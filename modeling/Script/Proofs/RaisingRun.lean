import Script.Proofs.Effects
import Script.Proofs.Raising
import Script.Proofs.UnwindingRun

/-!
# No mishap is raised

Every operation with a domain is applied inside of it, since the tests before it say so, whatever
the state of the machine is. So each step with operations that raise is the step that programs are
run with, and a statement raises exactly what its completion says.
-/

namespace Script

namespace Raising
variable {α β : Type}

theorem halting_of_ok {x : Eval α} {m m' : Machine} {a : α} (h : x m = .ok a m') :
    halting x m = .ok a m' := by
  rw [halting, h]

theorem halting_of_error {x : Eval α} {m m' : Machine} {reason : Halt}
    (h : x m = .error reason m') : halting x m = .error (.halted reason) m' := by
  rw [halting, h]

theorem halting_bind (x : Eval α) (f : α → Eval β) :
    halting (x >>= f) = halting x >>= fun a => halting (f a) := by
  funext m
  cases hm : x m with
  | ok a m' =>
      rw [bind_of_ok (halting_of_ok hm), halting, bind_of_ok hm, halting]
  | error reason m' =>
      rw [bind_of_error (halting_of_error hm), halting, bind_of_error hm]

/-! ### Steps -/

theorem get_eq (m : Machine) : (get : Raising Machine) m = .ok m m := rfl

theorem lookup_eq (name : Name) (env : Env) (m : Machine) :
    lookup name env m = match m.scopes.lookup? env name with
      | some value => .ok value m
      | none => .error (.mishap .key) m := by
  induction env with
  | nil => rfl
  | cons id env ih =>
      rw [lookup, bind_of_ok (get_eq m), Scopes.lookup?]
      cases found : (m.scopes.bindings id).get? name with
      | none =>
          rw [Scopes.find?_cons_of_none found]
          exact ih
      | some value =>
          rw [Scopes.find?_cons_of_some found]
          simp only [Option.bind_some, found]
          rfl

theorem orElse_of_ok {x missing : Raising α} {m m' : Machine} {a : α} (h : x m = .ok a m') :
    orElse x missing m = .ok a m' :=
  Unwinding.tryCatch_of_ok h

theorem orElse_of_missing {x missing : Raising α} {m m' : Machine}
    (h : x m = .error (.mishap .key) m') : orElse x missing m = missing m' :=
  Unwinding.tryCatch_of_error h

theorem resolve_eq (env : Env) (name : Name) (position : Position) :
    resolve env name position = halting (Script.resolve env name position) := by
  funext m
  have looked := lookup_eq name env m
  rw [resolve]
  cases found : m.scopes.lookup? env name with
  | some value =>
      rw [found] at looked
      rw [orElse_of_ok looked, halting_of_ok (Eval.resolve_of_some found position)]
  | none =>
      rw [found] at looked
      rw [orElse_of_missing looked, halting_of_ok (Eval.resolve_of_none found position)]
      cases Builtin.ofName? name <;> rfl

theorem replace_find (name : Name) (value : Value) (env : Env) (m : Machine) :
    replace name value env m = match m.scopes.find? name env with
      | some id => .ok () { m with scopes := m.scopes.define id name value }
      | none => .error (.mishap .key) m := by
  induction env with
  | nil => rfl
  | cons id env ih =>
      rw [replace, bind_of_ok (get_eq m)]
      cases found : (m.scopes.bindings id).get? name with
      | none =>
          rw [Scopes.find?_cons_of_none found]
          exact ih
      | some old =>
          rw [Scopes.find?_cons_of_some found]
          rfl

theorem replace_eq (name : Name) (value : Value) (env : Env) (missing : Raising Unit) :
    orElse (replace name value env) missing = (do
      if ← halting (Eval.assign env name value) then return () else missing) := by
  funext m
  have replaced := replace_find name value env m
  rcases Eval.assign_cases env name value m with ⟨id, found, done⟩ | ⟨none, done⟩
  · rw [found] at replaced
    rw [orElse_of_ok replaced, bind_of_ok (halting_of_ok done)]
    rfl
  · rw [none] at replaced
    rw [orElse_of_missing replaced, bind_of_ok (halting_of_ok done)]
    rfl

theorem placeOf_eq {i : Int} {size : Nat} (low : 0 ≤ i) (high : i < size) :
    placeOf i size = pure i.toNat := by
  rw [placeOf, if_neg (Int.not_lt.mpr low)]
  exact if_pos ⟨low, high⟩

theorem itemOf_eq {elements : Array Value} {i : Int} (low : 0 ≤ i) (high : i < elements.size) :
    itemOf elements i = pure (elements[i.toNat]?.getD .nil) := by
  have lt : i.toNat < elements.size := by omega
  rw [itemOf, placeOf_eq low high, pure_bind, Array.getElem?_eq_getElem lt]
  rfl

theorem itemOf_neg_one {elements : Array Value} (nonempty : ¬elements.isEmpty) :
    itemOf elements (-1) = pure (elements.back?.getD .nil) := by
  have pos : 0 < elements.size := Array.size_pos_iff.mpr (by simpa using nonempty)
  have place : placeOf (-1) elements.size = pure (elements.size - 1) := by
    have same : placeOf (-1) elements.size =
        if 0 ≤ -1 + (elements.size : Int) ∧ -1 + (elements.size : Int) < elements.size then
          pure (-1 + (elements.size : Int)).toNat else fail .item := rfl
    rw [same, if_pos (by omega)]
    congr 1
    omega
  have lt : elements.size - 1 < elements.size := by omega
  rw [itemOf, place, pure_bind, Array.back?, Array.getElem?_eq_getElem lt]
  rfl

theorem indexValue_eq (target index : Value) (position : Position) :
    indexValue target index position = halting (Script.indexValue target index position) := by
  cases index with
  | integer i =>
      cases target with
      | array id =>
          funext m
          change (if 0 ≤ i ∧ i < (m.elements id).size then itemOf (m.elements id) i
            else return .nil : Raising Value) m =
              .ok (if 0 ≤ i then (m.elements id)[i.toNat]?.getD .nil else .nil) m
          -- an element is asked for only between the bounds, where there is one
          by_cases low : 0 ≤ i
          · by_cases high : i < (m.elements id).size
            · rw [if_pos ⟨low, high⟩, itemOf_eq low high, if_pos low]
              rfl
            · have outside : (m.elements id)[i.toNat]? = none :=
                Array.getElem?_eq_none (by omega)
              rw [if_neg (fun h => high h.2), if_pos low, outside]
              rfl
          · rw [if_neg (fun h => low h.1), if_neg low]
            rfl
      | string t =>
          rw [Script.indexValue, halting_bind]
          refine bind_congr fun bytes => ?_
          change (if 0 ≤ i ∧ i < bytes.length then
              return .string (Utf8.ofBytes ((bytes.drop i.toNat).take 1))
            else return .nil : Raising Value) = pure _
          by_cases low : 0 ≤ i
          · by_cases high : i < bytes.length
            · have lt : i.toNat < bytes.length := by omega
              rw [if_pos ⟨low, high⟩, if_pos low, List.getElem?_eq_getElem lt,
                List.drop_eq_getElem_cons lt]
              rfl
            · have outside : bytes[i.toNat]? = none := List.getElem?_eq_none (by omega)
              rw [if_neg (fun h => high h.2), if_pos low, outside]
              rfl
          · rw [if_neg (fun h => low h.1), if_neg low]
      | _ => rfl
  | _ => cases target <;> rfl

theorem applyUnary_eq (op : UnaryOp) (value : Value) (position : Position) :
    applyUnary op value position = pure (op.apply value position) := by
  cases op with
  | not => rfl
  | negate => cases value <;> rfl

theorem remainder_eq (a b : Int) (nonzero : b ≠ 0) : remainder a b = pure (a.tmod b) := by
  rw [remainder, quotient, if_neg nonzero, pure_bind, Int.tmod_def]

/-- An operator on integers, where division by zero has been ruled out. -/
theorem onIntegers_eq {op : BinaryOp} (other : op ≠ .equal ∧ op ≠ .unequal) (a b : Int)
    (position : Position) :
    (if (op = .div ∨ op = .mod) ∧ b = 0 then return .error ⟨.divisionByZero, position⟩
      else do (← onIntegers op) a b : Raising Value) =
      match op.onIntegers a b with
      | .ok value => pure value
      | .error cause => pure (.error ⟨cause, position⟩) := by
  by_cases zero : b = 0
  · subst zero
    cases op <;> simp_all [onIntegers, BinaryOp.onIntegers, Integer64.quotient?,
      Integer64.remainder?]
  · rw [if_neg (fun h => zero h.2)]
    cases op with
    | equal => exact absurd rfl other.1
    | unequal => exact absurd rfl other.2
    | div => simp [onIntegers, BinaryOp.onIntegers, Integer64.quotient?, quotient, zero]
    | mod =>
        simp [onIntegers, BinaryOp.onIntegers, Integer64.remainder?, remainder_eq a b zero, zero]
    | _ => rfl

theorem applyBinary_eq (op : BinaryOp) (left right : Value) (position : Position) :
    applyBinary op left right position = halting (op.apply left right position) := by
  unfold BinaryOp.apply
  split
  · rfl
  · rfl
  · next a b equal unequal =>
    rw [applyBinary, if_neg equal, if_neg unequal, if_pos ⟨rfl, rfl⟩]
    refine (onIntegers_eq ⟨equal, unequal⟩ a b position).trans ?_
    cases op.onIntegers a b <;> rfl
  · next s t =>
    rw [halting_bind]
    refine bind_congr fun front => ?_
    rw [halting_bind]
    rfl
  · next equal unequal integers strings =>
    rw [applyBinary, if_neg equal, if_neg unequal, if_neg, if_neg]
    · rfl
    · rintro ⟨first, second, rfl⟩
      obtain ⟨s, rfl⟩ := Value.exists_of_kind_string first
      obtain ⟨t, rfl⟩ := Value.exists_of_kind_string second
      exact strings s t rfl rfl rfl
    · rintro ⟨first, second⟩
      obtain ⟨a, rfl⟩ := Value.exists_of_kind_integer first
      obtain ⟨b, rfl⟩ := Value.exists_of_kind_integer second
      exact integers a b rfl rfl

/-! ### Built-in functions -/

theorem isEmpty_of_getElem? {elements : Array Value} (h : elements.isEmpty) (i : Nat) :
    elements[i]? = none := by
  rw [Array.isEmpty_iff] at h
  subst h
  rfl

theorem len_eq (value : Value) : perform .len [value] = halting (Builtin.callLen value) := by
  cases value with
  | string t =>
      rw [Builtin.callLen, halting_bind]
      rfl
  | _ => rfl

theorem first_eq (value : Value) : perform .first [value] = halting (Builtin.callFirst value) := by
  cases value with
  | string t =>
      rw [Builtin.callFirst, halting_bind]
      rfl
  | array id =>
      funext m
      change (if (m.elements id).isEmpty then return .nil else itemOf (m.elements id) 0 :
        Raising Value) m = .ok ((m.elements id)[0]?.getD .nil) m
      split
      · next empty =>
        rw [isEmpty_of_getElem? empty]
        rfl
      · next nonempty =>
        have pos : 0 < (m.elements id).size := Array.size_pos_iff.mpr (by simpa using nonempty)
        rw [itemOf_eq (Int.le_refl 0) (by omega)]
        rfl
  | _ => rfl

theorem last_eq (value : Value) : perform .last [value] = halting (Builtin.callLast value) := by
  cases value with
  | string t =>
      rw [Builtin.callLast, halting_bind]
      rfl
  | array id =>
      funext m
      change (if (m.elements id).isEmpty then return .nil else itemOf (m.elements id) (-1) :
        Raising Value) m = .ok ((m.elements id).back?.getD .nil) m
      split
      · next empty =>
        rw [Array.back?, isEmpty_of_getElem? empty]
        rfl
      · next nonempty =>
        rw [itemOf_neg_one nonempty]
        rfl
  | _ => rfl

theorem rest_eq (value : Value) : perform .rest [value] = halting (Builtin.callRest value) := by
  cases value with
  | string t =>
      rw [Builtin.callRest, halting_bind]
      rfl
  | array id =>
      funext m
      change (if (m.elements id).isEmpty then return .nil
        else halting (Eval.newArray ((m.elements id).extract 1 (m.elements id).size)) :
        Raising Value) m = halting (do
          if (m.elements id).isEmpty then return .nil
          else Eval.newArray ((m.elements id).extract 1 (m.elements id).size)) m
      split <;> rfl
  | _ => rfl

theorem callPush_eq (container value : Value) :
    callPush container value = halting (Builtin.callPush container value) := by
  cases container with
  | string s =>
      cases value with
      | string t =>
          rw [Builtin.callPush, halting_bind]
          refine bind_congr fun front => ?_
          rw [halting_bind]
          rfl
      | _ => rfl
  | array id => rfl
  | _ => rfl

theorem callAlloc_eq (count fill : Value) :
    callAlloc count fill = halting (Builtin.callAlloc count fill) := by
  cases count with
  | integer n =>
      change (if n < 0 then return .nil
        else if Builtin.tooLarge ≤ n.toNat then throw (.halted .memory)
        else halting (Eval.newArray (Array.replicate n.toNat fill)) : Raising Value) =
          halting (if n < 0 then return .nil
            else if Builtin.tooLarge ≤ n.toNat then throw .memory
            else Eval.newArray (Array.replicate n.toNat fill))
      split
      · rfl
      · split <;> rfl
  | _ => rfl

theorem callSet_eq (array index value : Value) :
    callSet array index value = halting (Builtin.callSet array index value) := by
  cases array with
  | array id =>
      cases index with
      | integer i =>
          funext m
          have replaced (low : 0 ≤ i) (high : i < (m.elements id).size) :
              replaceItem (.array id) i value m = .ok () (m.store id i.toNat value) := by
            change (placeOf i (m.elements id).size >>= fun place => modify fun m =>
              { m with arrays := m.arrays.modify id fun a => a.setIfInBounds place value }) m = _
            rw [placeOf_eq low high, pure_bind]
            rfl
          change (if 0 ≤ i ∧ i < (m.elements id).size then do
              replaceItem (.array id) i value
              return .nil
            else return .unplacedError (.outOfRange i (m.elements id).size) : Raising Value) m =
            halting (if 0 ≤ i ∧ i < (m.elements id).size then do
              modify fun m =>
                { m with arrays := m.arrays.modify id fun a => a.setIfInBounds i.toNat value }
              return .nil
            else return .unplacedError (.outOfRange i (m.elements id).size)) m
          split
          · next bounds =>
            rw [bind_of_ok (replaced bounds.1 bounds.2)]
            rfl
          · rfl
      | _ => rfl
  | _ => cases index <;> rfl

theorem perform_eq (b : Builtin) (arguments : List Value)
    (fits : ∀ n, b.arity? = some n → arguments.length = n) :
    perform b arguments = halting (b.perform arguments) := by
  cases b with
  | len =>
      obtain ⟨value, rfl⟩ := List.length_eq_one_iff.mp (fits 1 rfl)
      exact len_eq value
  | first =>
      obtain ⟨value, rfl⟩ := List.length_eq_one_iff.mp (fits 1 rfl)
      exact first_eq value
  | last =>
      obtain ⟨value, rfl⟩ := List.length_eq_one_iff.mp (fits 1 rfl)
      exact last_eq value
  | rest =>
      obtain ⟨value, rfl⟩ := List.length_eq_one_iff.mp (fits 1 rfl)
      exact rest_eq value
  | push =>
      obtain ⟨container, value, rfl⟩ := List.length_eq_two.mp (fits 2 rfl)
      exact callPush_eq container value
  | alloc =>
      obtain ⟨count, fill, rfl⟩ := List.length_eq_two.mp (fits 2 rfl)
      exact callAlloc_eq count fill
  | set =>
      obtain ⟨array, index, value, rfl⟩ := List.length_eq_three.mp (fits 3 rfl)
      exact callSet_eq array index value
  | println => rfl
  | print => rfl
  | readln | read | readc | readall =>
      obtain rfl := List.length_eq_zero_iff.mp (fits 0 rfl)
      rfl

theorem callBuiltin_eq (b : Builtin) (arguments : List Value) :
    callBuiltin b arguments = halting (b.call arguments) := by
  unfold callBuiltin Builtin.call
  cases arity : b.arity? with
  | none => exact perform_eq b arguments fun n same => by simp [arity] at same
  | some expected =>
      dsimp only
      by_cases fits : arguments.length = expected
      · rw [if_neg (not_not.mpr fits), if_pos fits]
        refine perform_eq b arguments fun n same => ?_
        rwa [← Option.some.inj (arity.symm.trans same)]
      · rw [if_pos fits, if_neg fits]
        rfl

/-! ### Evaluation -/

section Values
variable {x : Eval Value} {fail : Failure → α}

theorem onValue_eq {f : Value → Eval α} {g : Value → Raising α} (same : ∀ v, g v = halting (f v)) :
    onValue (halting x) fail g = halting (onValue x fail f) := by
  unfold onValue
  rw [halting_bind]
  refine bind_congr fun v => ?_
  cases v with
  | error failure => rfl
  | _ => exact same _

theorem onValues_eq {x : Eval (Except Failure (List Value))} {f : List Value → Eval α}
    {g : List Value → Raising α} (same : ∀ vs, g vs = halting (f vs)) :
    onValues (halting x) fail g = halting (onValues x fail f) := by
  unfold onValues
  rw [halting_bind]
  refine bind_congr fun r => ?_
  cases r with
  | error failure => rfl
  | ok values => exact same values

end Values

theorem traced_eq {x : Eval Value} {y : Raising Value} (same : y = halting x)
    (trace : Value → Eval Unit) :
    (do let value ← y; halting (trace value); return value) =
      halting (do let value ← x; trace value; return value) := by
  rw [halting_bind, same]
  refine bind_congr fun value => ?_
  rw [halting_bind]
  rfl

section Expressions
variable {call : Caller} {call' : CallerIn Raising}

mutual

theorem evalExpr_eq (hc : ∀ id vs position, call' id vs position = halting (call id vs position))
    (env : Env) : ∀ e, evalExpr call' env e = halting (Script.evalExpr call env e)
  | .literal _ => rfl
  | .name name position => resolve_eq env name position
  | .array elements => by
      rw [evalExpr, Script.evalExpr, evalAll_eq hc env elements]
      exact onValues_eq fun values => rfl
  | .call callee arguments position => by
      rw [evalExpr, Script.evalExpr, resolve_eq, evalAll_eq hc env arguments]
      refine onValue_eq fun function => onValues_eq fun values => ?_
      cases function with
      | builtin b => exact traced_eq (callBuiltin_eq b values) _
      | function id => exact traced_eq (hc id values position) _
      | _ => rfl
  | .index target index position => by
      rw [evalExpr, Script.evalExpr, evalExpr_eq hc env target, evalExpr_eq hc env index]
      exact onValue_eq fun target => onValue_eq fun index => indexValue_eq target index position
  | .unary op operand position => by
      rw [evalExpr, Script.evalExpr, evalExpr_eq hc env operand]
      refine onValue_eq fun operand => ?_
      rw [applyUnary_eq, pure_bind, tracedUnary, halting_bind]
      rfl
  | .binary op left right position => by
      rw [evalExpr, Script.evalExpr, evalExpr_eq hc env left, evalExpr_eq hc env right]
      exact onValue_eq fun left => onValue_eq fun right =>
        traced_eq (applyBinary_eq op left right position) _

theorem evalAll_eq (hc : ∀ id vs position, call' id vs position = halting (call id vs position))
    (env : Env) : ∀ es, evalAll call' env es = halting (Script.evalAll call env es)
  | [] => rfl
  | e :: rest => by
      rw [evalAll, Script.evalAll, evalExpr_eq hc env e, evalAll_eq hc env rest]
      exact onValue_eq fun value => onValues_eq fun values => rfl

end

end Expressions

/-- What a statement raises that ends with a completion. -/
def signal : Completion → Raising Unit
  | .normal => return ()
  | .returned value => throw (.returned value)
  | .aborted failure => throw (.aborted failure)

/-- A computation that raises what the completion of another one says. -/
def signalling (x : Eval Completion) : Raising Unit := halting x >>= signal

theorem signalling_of_ok {x : Eval Completion} {m m' : Machine} {completion : Completion}
    (h : x m = .ok completion m') : signalling x m = signal completion m' :=
  bind_of_ok (halting_of_ok h)

theorem signalling_of_error {x : Eval Completion} {m m' : Machine} {reason : Halt}
    (h : x m = .error reason m') : signalling x m = .error (.halted reason) m' :=
  bind_of_error (halting_of_error h)

theorem need_eq {x : Eval Value} {f : Value → Eval Completion} {g : Value → Raising Unit}
    (same : ∀ v, g v = signalling (f v)) :
    need (halting x) >>= g = signalling (onValue x .aborted f) := by
  unfold need onValue signalling
  rw [halting_bind, bind_assoc, bind_assoc]
  refine bind_congr fun v => ?_
  cases v with
  | error failure => rfl
  | _ => exact same _

theorem signalling_bind (x : Eval α) (f : α → Eval Completion) :
    signalling (x >>= f) = halting x >>= fun a => signalling (f a) := by
  unfold signalling
  rw [halting_bind, bind_assoc]

theorem signalling_normal (x : Eval Unit) :
    signalling (do x; return .normal) = halting x := by
  rw [signalling_bind]
  exact bind_pure _

theorem onNormal_eq (x x' : Eval Completion) :
    signalling (do match ← x with | .normal => x' | completion => pure completion) =
      (do signalling x; signalling x') := by
  rw [signalling_bind]
  unfold signalling
  rw [bind_assoc]
  refine bind_congr fun completion => ?_
  cases completion <;> rfl

theorem repeatWhile_eq (condition : Eval Value) (body : Eval Completion) (n : Nat) :
    repeatWhile (halting condition) (signalling body) n =
      signalling (Script.repeatWhile condition body n) := by
  induction n with
  | zero => rfl
  | succ n ih =>
      refine need_eq fun v => ?_
      split
      · rw [ih]
        exact (onNormal_eq body _).symm
      · rfl

theorem inBlock_eq (env : Env) {f : Env → Eval Completion} {g : Env → Raising Unit}
    (same : ∀ env, g env = signalling (f env)) :
    inBlock env g = signalling (Script.inBlock env f) := by
  unfold inBlock Script.inBlock
  rw [signalling_bind]
  exact bind_congr same

section Statements
variable {call : Caller} {call' : CallerIn Raising} {rounds : Nat}

mutual

theorem execStmt_eq (hc : ∀ id vs position, call' id vs position = halting (call id vs position))
    (env : Env) :
    ∀ s, execStmt call' rounds env s = signalling (Script.execStmt call rounds env s)
  | .block body => inBlock_eq env fun env => execBody_eq hc env body
  | .declare name value => by
      rw [execStmt, Script.execStmt, evalExpr_eq hc]
      exact need_eq fun v => (signalling_normal _).symm
  | .assign name value position => by
      rw [execStmt, Script.execStmt, evalExpr_eq hc]
      refine need_eq fun v => ?_
      rw [replace_eq, signalling_bind]
      refine bind_congr fun bound => ?_
      cases bound <;> rfl
  | .eval value => by
      rw [execStmt, Script.execStmt, evalExpr_eq hc]
      exact need_eq fun v => rfl
  | .branch condition body otherwise => by
      rw [execStmt, Script.execStmt, evalExpr_eq hc]
      refine need_eq fun v => ?_
      split
      · exact execStmt_eq hc env body
      · exact execOtherwise_eq hc env otherwise
  | .loop condition body => by
      rw [execStmt, Script.execStmt, evalExpr_eq hc, execStmt_eq hc env body]
      exact repeatWhile_eq _ _ rounds
  | .return_ none => rfl
  | .return_ (some value) => by
      rw [execStmt, Script.execStmt, evalExpr_eq hc]
      exact need_eq fun v => rfl

theorem execOtherwise_eq
    (hc : ∀ id vs position, call' id vs position = halting (call id vs position)) (env : Env) :
    ∀ o, execOtherwise call' rounds env o = signalling (Script.execOtherwise call rounds env o)
  | .nothing => rfl
  | .stmt s => execStmt_eq hc env s

theorem execDecl_eq (hc : ∀ id vs position, call' id vs position = halting (call id vs position))
    (env : Env) :
    ∀ d, execDecl call' rounds env d = signalling (Script.execDecl call rounds env d)
  | .function name parameters body => by
      rw [execDecl, Script.execDecl, signalling_bind]
      exact bind_congr fun value => (signalling_normal _).symm
  | .stmt s => execStmt_eq hc env s

theorem execBody_eq (hc : ∀ id vs position, call' id vs position = halting (call id vs position))
    (env : Env) :
    ∀ body, execBody call' rounds env body = signalling (Script.execBody call rounds env body)
  | [] => rfl
  | d :: rest => by
      rw [execBody, Script.execBody, execDecl_eq hc env d, execBody_eq hc env rest]
      exact (onNormal_eq _ _).symm

end

end Statements

theorem pairUp_eq {as : List α} {bs : List β} (fits : bs.length = as.length) :
    pairUp as bs = pure (as.zip bs) := by
  induction as generalizing bs with
  | nil =>
      obtain rfl := List.length_eq_zero_iff.mp fits
      rfl
  | cons a as ih =>
      cases bs with
      | nil => cases fits
      | cons b bs =>
          rw [pairUp, ih (Nat.succ.inj fits), pure_bind]
          rfl

theorem catching_eq (x : Eval Completion) :
    catching (indented (signalling x)) = halting (do
      match ← Eval.indented x with
      | .normal => return .nil
      | .returned value => return value
      | .aborted failure => return .error failure) := by
  funext m
  rw [halting]
  cases hm : x { m with trace := m.trace.indent } with
  | error reason t =>
      have left : Eval.indented x m = .error reason { t with trace := t.trace.dedent } := by
        rw [Eval.indented, hm]
      have raised : indented (signalling x) m =
          .error (.halted reason) { t with trace := t.trace.dedent } := by
        rw [indented, signalling_of_error hm]
      rw [bind_of_error left, catching, Unwinding.tryCatch_of_error (bind_of_error raised)]
      rfl
  | ok completion t =>
      have left : Eval.indented x m = .ok completion { t with trace := t.trace.dedent } := by
        rw [Eval.indented, hm]
      have signalled : indented (signalling x) m =
          signal completion { t with trace := t.trace.dedent } := by
        rw [indented, signalling_of_ok hm]
        cases completion <;> rfl
      rw [bind_of_ok left, catching]
      cases completion with
      | normal => exact Unwinding.tryCatch_of_ok (bind_of_ok signalled)
      | returned value => exact Unwinding.tryCatch_of_error (bind_of_error signalled)
      | aborted failure => exact Unwinding.tryCatch_of_error (bind_of_error signalled)

theorem callFunction_eq (rounds depth : Nat) (id : FunctionId) (arguments : List Value)
    (position : Position) :
    callFunction rounds depth id arguments position =
      halting (Script.callFunction rounds depth id arguments position) := by
  induction depth generalizing id arguments position with
  | zero => rfl
  | succ depth ih =>
      rw [callFunction, Script.callFunction, halting_bind]
      refine bind_congr fun f? => ?_
      cases f? with
      | none => rfl
      | some f =>
          dsimp only
          by_cases fits : arguments.length = f.parameters.length
          · rw [if_neg (not_not.mpr fits), if_pos fits, pairUp_eq fits, pure_bind, halting_bind]
            refine bind_congr fun env => ?_
            rw [execBody_eq ih]
            exact catching_eq _
          · rw [if_pos fits, if_neg fits]
            rfl

/-- A checked program raises nothing but the halts that its run comes to. -/
theorem run_eq (budget : Budget) {program : Program} (accepted : program.check = .ok ())
    (m : Machine) : run budget program m = halting (program.run budget) m := by
  have stays : ∀ value m', Script.execBody budget.caller budget.rounds Machine.globalEnv program m ≠
      .ok (.returned value) m' := stays_of_checkBody Machine.globalEnv accepted m
  have same : execBody (callFunction budget.rounds budget.depth) budget.rounds Machine.globalEnv
      program =
        signalling (Script.execBody budget.caller budget.rounds Machine.globalEnv program) :=
    execBody_eq (callFunction_eq budget.rounds budget.depth) Machine.globalEnv program
  unfold run Program.run
  rw [same, halting_bind]
  cases hm : Script.execBody budget.caller budget.rounds Machine.globalEnv program m with
  | error reason t =>
      rw [bind_of_error (halting_of_error hm),
        Unwinding.tryCatch_of_error (bind_of_error (signalling_of_error hm))]
      rfl
  | ok completion t =>
      rw [bind_of_ok (halting_of_ok hm)]
      have signalled := signalling_of_ok hm
      cases completion with
      | normal => exact Unwinding.tryCatch_of_ok (bind_of_ok signalled)
      | returned value => exact absurd hm (stays value t)
      | aborted failure =>
          rw [Unwinding.tryCatch_of_error (bind_of_error signalled), halting_bind]
          rfl

end Raising

end Script
