import Mathlib.Data.List.TakeWhile
import Script.Proofs.ArrayGraph
import Script.Proofs.TraceIndependence

/-!
# The effects of steps

Here it is said once what the steps of evaluation can do; what they keep is read off from that.

Operators, names and indices only look at the machine: their value is computed, or it is one that
the machine holds. A call of a built-in function has one of the effects of `Builtin.Does`. Arrays
are made by `rest`, `push` and `alloc` only, and changed by `set` only; the readers take from the
front of the input and have a piece of it as their value.
-/

namespace Script

theorem Value.exists_of_kind_integer {v : Value} (h : v.kind = .integer) : ∃ n, v = .integer n := by
  cases v with
  | integer n => exact ⟨n, rfl⟩
  | _ => cases h

theorem Value.exists_of_kind_string {v : Value} (h : v.kind = .string) : ∃ t, v = .string t := by
  cases v with
  | string t => exact ⟨t, rfl⟩
  | _ => cases h

theorem Value.exists_of_kind_array {v : Value} (h : v.kind = .array) : ∃ a, v = .array a := by
  cases v with
  | array a => exact ⟨a, rfl⟩
  | _ => cases h

/-- The values that are computed from the contents of other values. -/
inductive Value.Computed : Value → Prop
  | nil : Computed .nil
  | boolean (b : Bool) : Computed (.boolean b)
  | integer (n : Int) : Computed (.integer (Integer64.wrap n))
  | string (bytes : List UInt8) : Computed (.string (Utf8.ofBytes bytes))
  | error (failure : Failure) : Computed (.error failure)
  | builtin (b : Builtin) : Computed (.builtin b)

/-- The values that a step can have that only looks at a machine. -/
inductive Machine.Supplies (m : Machine) : Value → Prop
  | computed {v : Value} : v.Computed → m.Supplies v
  | bound {id : ScopeId} {binding : Name × Value} : binding ∈ m.scopes.bindings id →
      m.Supplies binding.2
  | element {a : ArrayId} {v : Value} : v ∈ m.elements a → m.Supplies v

/-- An optional element of an array is supplied, and so is nil instead of none. -/
theorem Machine.supplies_getD {m : Machine} {a : ArrayId} (value? : Option Value)
    (mem : ∀ v, value? = some v → v ∈ m.elements a) : m.Supplies (value?.getD .nil) := by
  cases value? with
  | none => exact .computed .nil
  | some v => exact .element (mem v rfl)

namespace Scopes
variable {s : Scopes} {name : Name} {id : ScopeId}

theorem find?_cons_of_some {v : Value} (bound : (s.bindings id).get? name = some v) (env : Env) :
    s.find? name (id :: env) = some id := by
  rw [find?, List.find?_cons_of_pos]
  rw [bound]
  rfl

theorem find?_cons_of_none (unbound : (s.bindings id).get? name = none) (env : Env) :
    s.find? name (id :: env) = s.find? name env := by
  rw [find?, List.find?_cons_of_neg]
  · rfl
  · rw [unbound]
    exact Bool.false_ne_true

end Scopes

namespace Eval

theorem bytesOf_cases (t : Text) (m : Machine) :
    (∃ bytes, Utf8.toBytes t = .ok bytes ∧ bytesOf t m = .ok bytes m) ∨
      ∃ reason, bytesOf t m = .error reason m := by
  unfold bytesOf
  cases Utf8.toBytes t with
  | ok bytes => exact .inl ⟨bytes, rfl, rfl⟩
  | error e => exact .inr ⟨.unencodable e, rfl⟩

theorem resolve_of_some {env : Env} {name : Name} {v : Value} {m : Machine}
    (found : m.scopes.lookup? env name = some v) (position : Position) :
    resolve env name position m = .ok v m := by
  have got : (MonadState.get : Eval Machine) m = .ok m m := rfl
  simp only [Script.resolve, bind_of_ok got, found]
  rfl

/-- A name without a binding is that of a built-in function, or unbound. -/
theorem resolve_of_none {env : Env} {name : Name} {m : Machine}
    (missing : m.scopes.lookup? env name = none) (position : Position) :
    resolve env name position m =
      .ok ((Builtin.ofName? name).elim (.error ⟨.unboundName name, position⟩) .builtin) m := by
  have got : (MonadState.get : Eval Machine) m = .ok m m := rfl
  simp only [Script.resolve, bind_of_ok got, missing]
  cases Builtin.ofName? name <;> rfl

/-- Every name has a value, if only the failure that it is unbound. -/
theorem supplies_resolve (env : Env) (name : Name) (position : Position) (m : Machine) :
    ∃ v, resolve env name position m = .ok v m ∧ m.Supplies v := by
  cases found : m.scopes.lookup? env name with
  | some v =>
      obtain ⟨id, bound⟩ := Scopes.mem_bindings_of_lookup? found
      exact ⟨v, resolve_of_some found position, .bound bound⟩
  | none =>
      refine ⟨_, resolve_of_none found position, .computed ?_⟩
      cases Builtin.ofName? name with
      | some b => exact .builtin b
      | none => exact .error _

/-- A step that changes nothing but the trace and has a value that the machine supplies, or that
halts. -/
def Consults (x : Eval Value) : Prop :=
  ∀ m, ∃ t, (∃ v, x m = .ok v { m with trace := t } ∧ m.Supplies v) ∨
    ∃ reason, x m = .error reason { m with trace := t }

namespace Consults

theorem pure {v : Value} (h : v.Computed) : Consults (pure v) :=
  fun m => ⟨m.trace, .inl ⟨v, rfl, .computed h⟩⟩

theorem get {f : Machine → Value} (h : ∀ m : Machine, m.Supplies (f m)) :
    Consults (do return f (← get)) :=
  fun m => ⟨m.trace, .inl ⟨f m, rfl, h m⟩⟩

theorem withBytes (t : Text) {f : List UInt8 → Eval Value} (h : ∀ bytes, Consults (f bytes)) :
    Consults (bytesOf t >>= f) := by
  intro m
  rcases bytesOf_cases t m with ⟨bytes, -, found⟩ | ⟨reason, halted⟩
  · rw [bind_of_ok found]
    exact h bytes m
  · exact ⟨m.trace, .inr ⟨reason, bind_of_error halted⟩⟩

theorem traced {x : Eval Value} {trace : Value → Eval Unit} {shown : Value → List Value}
    (h : Consults x) (traces : ∀ v, Traces (shown v) (trace v)) :
    Consults (do let v ← x; trace v; return v) := by
  intro m
  obtain ⟨t, ⟨v, found, supplied⟩ | ⟨reason, halted⟩⟩ := h m
  · rw [bind_of_ok found]
    rcases (traces v).result { m with trace := t } with ⟨t', done⟩ | ⟨reason, halted, -⟩
    · exact ⟨t', .inl ⟨v, bind_of_ok done, supplied⟩⟩
    · exact ⟨t, .inr ⟨reason, bind_of_error halted⟩⟩
  · exact ⟨t, .inr ⟨reason, bind_of_error halted⟩⟩

theorem resolve (env : Env) (name : Name) (position : Position) :
    Consults (resolve env name position) := by
  intro m
  obtain ⟨v, found, supplied⟩ := supplies_resolve env name position m
  exact ⟨m.trace, .inl ⟨v, found, supplied⟩⟩

theorem indexValue (target index : Value) (position : Position) :
    Consults (indexValue target index position) := by
  unfold Script.indexValue
  split
  · rename_i a i
    refine .get fun m => ?_
    split
    · exact m.supplies_getD _ fun v h => Array.mem_of_getElem? h
    · exact .computed .nil
  · rename_i t i
    refine .withBytes t fun bytes => .pure ?_
    split
    · cases bytes[i.toNat]? with
      | none => exact .nil
      | some b => exact .string [b]
    · exact .nil
  · exact .pure (.error _)
  · exact .pure (.error _)

end Consults

end Eval

namespace Eval

/-- A step that changes nothing but the trace. -/
def Looks {α : Type} (x : Eval α) : Prop :=
  ∀ m, ∃ t, final (x m) = { m with trace := t }

theorem Consults.looks {x : Eval Value} (h : Consults x) : Looks x := by
  intro m
  obtain ⟨t, ⟨v, found, -⟩ | ⟨reason, halted⟩⟩ := h m
  · exact ⟨t, by rw [found]; rfl⟩
  · exact ⟨t, by rw [halted]; rfl⟩

theorem looks_closure (id : FunctionId) : Looks (closure? id) :=
  fun m => ⟨m.trace, rfl⟩

theorem modifyGet_eq {α : Type} (f : Machine → α × Machine) (m : Machine) :
    (modifyGet f : Eval α) m = .ok (f m).1 (f m).2 :=
  rfl

theorem assign_of_found {env : Env} {name : Name} {id : ScopeId} {m : Machine}
    (found : m.scopes.find? name env = some id) (value : Value) :
    Eval.assign env name value m =
      .ok true { m with scopes := m.scopes.define id name value } := by
  rw [Eval.assign, modifyGet_eq, found]

/-- An assignment finds the scope that says what the name means, or changes nothing. -/
theorem assign_cases (env : Env) (name : Name) (value : Value) (m : Machine) :
    (∃ id, m.scopes.find? name env = some id ∧ Eval.assign env name value m =
      .ok true { m with scopes := m.scopes.define id name value }) ∨
    (m.scopes.find? name env = none ∧ Eval.assign env name value m = .ok false m) := by
  cases found : m.scopes.find? name env with
  | none => exact .inr ⟨rfl, by rw [Eval.assign, modifyGet_eq, found]⟩
  | some id => exact .inl ⟨id, rfl, assign_of_found found value⟩

end Eval

theorem Traces.looks {values : List Value} {x : Eval Unit} (h : Traces values x) :
    Eval.Looks x := by
  intro m
  rcases h.result m with ⟨t, done⟩ | ⟨reason, halted, -⟩
  · exact ⟨t, by rw [done]; rfl⟩
  · exact ⟨m.trace, by rw [halted]; rfl⟩

theorem UnaryOp.computed_apply (op : UnaryOp) (operand : Value) (position : Position) :
    (op.apply operand position).Computed := by
  cases op with
  | not => exact .boolean _
  | negate =>
      cases operand with
      | integer n => exact .integer (-n)
      | _ => exact .error _

theorem BinaryOp.computed_onIntegers {op : BinaryOp} {a b : Int} {value : Value}
    (h : op.onIntegers a b = .ok value) : value.Computed := by
  cases op with
  | div | mod =>
      simp only [BinaryOp.onIntegers] at h
      split at h
      · cases h
        exact .integer _
      · cases h
  | add | sub | mul =>
      cases h
      exact .integer _
  | _ =>
      cases h
      exact .boolean _

namespace Eval.Consults

theorem binary (op : BinaryOp) (left right : Value) (position : Position) :
    Consults (op.apply left right position) := by
  unfold BinaryOp.apply
  split
  · exact .pure (.boolean _)
  · exact .pure (.boolean _)
  · split
    · rename_i value h
      exact .pure (BinaryOp.computed_onIntegers h)
    · exact .pure (.error _)
  · exact .withBytes _ fun front => .withBytes _ fun back => .pure (.string (front ++ back))
  · exact .pure (.error _)

theorem tracedUnary (op : UnaryOp) (operand : Value) (position : Position) :
    Consults (tracedUnary op operand position) :=
  traced (.pure (op.computed_apply operand position)) fun v => .unary op operand v

theorem tracedBinary (op : BinaryOp) (left right : Value) (position : Position) :
    Consults (tracedBinary op left right position) :=
  traced (.binary op left right position) fun v => .binary op left right v

end Eval.Consults

/-! ### Readers -/

/-- A reading that takes a piece of a text and leaves an end of it. -/
structure Reading.Of (t : Text) (r : Reading) : Prop where
  result : r.result <:+: t
  rest : r.rest <:+ t

theorem CodePoint.isBlank_lineFeed : isBlank lineFeed := by decide

theorem CodePoint.isBlank_carriageReturn : isBlank carriageReturn := by decide

theorem Text.dropEnding_prefix (ending : CodePoint) (t : Text) :
    Text.dropEnding ending t <+: t := by
  unfold Text.dropEnding
  split
  · exact List.dropLast_prefix t
  · exact List.prefix_refl t

/-- A text is what is left of it and the ending that is dropped. -/
theorem Text.exists_eq_dropEnding_append (c : CodePoint) (t : Text) :
    ∃ e, t = Text.dropEnding c t ++ e ∧ (e = [] ∨ e = [c]) := by
  unfold Text.dropEnding
  split
  · rename_i last
    exact ⟨[c], (List.dropLast_append_getLast? c last).symm, .inr rfl⟩
  · exact ⟨[], (List.append_nil t).symm, .inl rfl⟩

namespace Input

theorem readLine_append_lineFeed {line : Text} (rest : Text) (fault : Option InputFault)
    (single : .lineFeed ∉ line) : readLine ⟨line ++ .lineFeed :: rest, fault⟩ =
      ⟨Text.dropEnding .carriageReturn line, rest, none⟩ := by
  have within : ∀ c ∈ line, decide (c ≠ .lineFeed) = true :=
    fun c mem => decide_eq_true (ne_of_mem_of_not_mem mem single)
  unfold readLine
  dsimp only
  rw [List.takeWhile_append_of_pos within, List.dropWhile_append_of_pos within]
  simp

/-- The last line, if nothing ends it: it is taken to its end, but not from a broken input. -/
theorem readLine_of_notMem {t : Text} (fault : Option InputFault) (endless : .lineFeed ∉ t) :
    readLine ⟨t, fault⟩ = match fault with
      | none => ⟨Text.dropEnding .carriageReturn t, [], none⟩
      | some fault => ⟨[], t, some fault⟩ := by
  have within : ∀ c ∈ t, decide (c ≠ .lineFeed) = true :=
    fun c mem => decide_eq_true (ne_of_mem_of_not_mem mem endless)
  have behind : t.dropWhile (· ≠ .lineFeed) = [] := List.dropWhile_eq_nil_iff.mpr within
  have line : t.takeWhile (· ≠ .lineFeed) = t := List.takeWhile_eq_self_iff.mpr within
  unfold readLine
  dsimp only
  rw [behind, line]
  cases fault <;> rfl

theorem of_readChar (input : Input) : input.readChar.Of input.rest := by
  unfold readChar
  cases h : input.rest with
  | nil => exact ⟨List.infix_refl _, List.suffix_refl _⟩
  | cons c rest => exact ⟨⟨[], rest, rfl⟩, List.suffix_cons c rest⟩

theorem of_readAll (input : Input) : input.readAll.Of input.rest :=
  ⟨List.infix_refl _, List.nil_suffix⟩

theorem of_readLine (input : Input) : input.readLine.Of input.rest := by
  unfold readLine
  have line : Text.dropEnding .carriageReturn (input.rest.takeWhile (· ≠ .lineFeed)) <:+:
      input.rest :=
    ((Text.dropEnding_prefix _ _).trans (List.takeWhile_prefix _)).isInfix
  have behind : input.rest.dropWhile (· ≠ .lineFeed) <:+ input.rest := List.dropWhile_suffix _
  split
  · rename_i c rest after
    rw [after] at behind
    exact ⟨line, (List.suffix_cons c rest).trans behind⟩
  · exact ⟨List.nil_infix, List.suffix_refl _⟩
  · exact ⟨line, List.nil_suffix⟩

section Words
variable {fault : Option InputFault} {word rest : Text} {c : CodePoint}

theorem readWordFrom_lineFeed :
    readWordFrom fault word (.lineFeed :: rest) = ⟨word.reverse, rest, none⟩ := by
  rw [readWordFrom.eq_def]
  rfl

theorem readWordFrom_of_blank (inside : word ≠ []) (other : c ≠ .carriageReturn)
    (blank : c.isBlank) : readWordFrom fault word (c :: rest) = ⟨word.reverse, rest, none⟩ := by
  rw [readWordFrom.eq_def]
  simp [inside, other, blank]

theorem readWordFrom_nil_of_blank (other : c ≠ .carriageReturn) (goes : c ≠ .lineFeed)
    (blank : c.isBlank) : readWordFrom fault [] (c :: rest) = readWordFrom fault [] rest := by
  rw [readWordFrom.eq_def]
  simp [other, goes, blank]

theorem readWordFrom_of_solid (solid : ¬c.isBlank) :
    readWordFrom fault word (c :: rest) = readWordFrom fault (c :: word) rest := by
  have other : c ≠ .carriageReturn := fun same => solid (same ▸ CodePoint.isBlank_carriageReturn)
  have goes : c ≠ .lineFeed := fun same => solid (same ▸ CodePoint.isBlank_lineFeed)
  rw [readWordFrom.eq_def]
  simp [other, goes, solid]

end Words

/-- A word that has been taken stands right in front of what is left. -/
theorem of_readWordFrom (fault : Option InputFault) {word t whole : Text}
    (h : word.reverse ++ t <:+ whole) : (readWordFrom fault word t).Of whole := by
  have taken : word.reverse <:+: whole := (List.prefix_append _ _).isInfix.trans h.isInfix
  have left : t <:+ whole := (List.suffix_append _ _).trans h
  fun_induction readWordFrom fault word t with
  | case1 word => exact ⟨taken, List.nil_suffix⟩
  | case2 word => exact ⟨taken, List.nil_suffix⟩
  | case3 word d more ends =>
      exact ⟨taken, ((List.suffix_cons _ _).trans (List.suffix_cons _ _)).trans left⟩
  | case4 word d more goes ih =>
      have empty : word = [] := by
        by_contra other
        exact goes (.inr other)
      subst empty
      have next : d :: more <:+ whole := (List.suffix_cons _ _).trans left
      exact ih next List.nil_infix next
  | case5 word rest _ => exact ⟨taken, (List.suffix_cons _ _).trans left⟩
  | case6 word c rest _ _ _ _ => exact ⟨taken, (List.suffix_cons _ _).trans left⟩
  | case7 word c rest _ _ _ empty ih =>
      have empty : word = [] := by simpa using empty
      subst empty
      have next : rest <:+ whole := (List.suffix_cons _ _).trans left
      exact ih next List.nil_infix next
  | case8 word c rest _ _ _ ih =>
      have moved : (c :: word).reverse ++ rest = word.reverse ++ c :: rest := by simp
      rw [← moved] at h
      have part := (List.prefix_append _ _).isInfix.trans h.isInfix
      exact ih h part ((List.suffix_append _ _).trans h)

theorem of_readWord (input : Input) : input.readWord.Of input.rest :=
  of_readWordFrom input.fault (List.suffix_refl _)

theorem fault_readWordFrom (fault : Option InputFault) (word t : Text) :
    (readWordFrom fault word t).fault = none ∨ (readWordFrom fault word t).fault = fault := by
  fun_induction readWordFrom fault word t with
  | case1 | case2 => exact .inr rfl
  | case3 | case5 | case6 => exact .inl rfl
  | case4 _ _ _ _ ih => exact ih
  | case7 _ _ _ _ _ _ _ ih => exact ih
  | case8 _ _ _ _ _ _ ih => exact ih

theorem fault_readWord (input : Input) :
    input.readWord.fault = none ∨ input.readWord.fault = input.fault :=
  fault_readWordFrom _ _ _

theorem fault_readLine (input : Input) :
    input.readLine.fault = none ∨ input.readLine.fault = input.fault := by
  unfold readLine
  dsimp only
  split
  · exact .inl rfl
  · rename_i fault _ broken
    exact .inr broken.symm
  · exact .inl rfl

theorem fault_readChar (input : Input) :
    input.readChar.fault = none ∨ input.readChar.fault = input.fault := by
  unfold readChar
  split
  · exact .inr rfl
  · exact .inl rfl

end Input

/-! ### Built-in functions -/

namespace Builtin

/-- The elements of the arrays that calls make. -/
inductive Makes (m : Machine) : Builtin → List Value → Array Value → Prop
  | rest (a : ArrayId) :
      Makes m .rest [.array a] ((m.elements a).extract 1 (m.elements a).size)
  | push (a : ArrayId) (v : Value) : Makes m .push [.array a, v] ((m.elements a).push v)
  | alloc {n : Int} (fill : Value) : 0 ≤ n →
      Makes m .alloc [.integer n, fill] (Array.replicate n.toNat fill)

/-- Nothing gets into a new array but arguments and elements of other arrays. -/
theorem Makes.mem_or {m : Machine} {b : Builtin} {arguments : List Value} {elements : Array Value}
    (makes : Makes m b arguments elements) {v : Value} (mem : v ∈ elements) :
    v ∈ arguments ∨ ∃ a, v ∈ m.elements a := by
  cases makes with
  | rest a =>
      obtain ⟨i, -, -, rfl⟩ := Array.mem_extract_iff_getElem.mp mem
      exact .inr ⟨a, Array.getElem_mem _⟩
  | push a last =>
      rcases Array.mem_push.mp mem with old | rfl
      · exact .inr ⟨a, old⟩
      · exact .inl (by simp)
  | alloc fill _ =>
      rw [Array.eq_of_mem_replicate mem]
      exact .inl (by simp)

/-- What a call can do to a machine, and what it then has as its value. -/
inductive Does (m : Machine) : Builtin → List Value → EStateM.Result Halt Machine Value → Prop
  | refuses {b : Builtin} {arguments : List Value} (cause : Cause) :
      Does m b arguments (.ok (.unplacedError cause) m)
  | computes {b : Builtin} {arguments : List Value} {v : Value} : b ≠ .set → v.kind ≠ .error →
      v.Computed → Does m b arguments (.ok v m)
  | picks {b : Builtin} {a : ArrayId} {v : Value} : b = .first ∨ b = .last → v ∈ m.elements a →
      Does m b [.array a] (.ok v m)
  | measuresString {t : Text} {bytes : List UInt8} : Utf8.toBytes t = .ok bytes →
      Does m .len [.string t] (.ok (.integer bytes.length) m)
  | measuresArray (a : ArrayId) :
      Does m .len [.array a] (.ok (.integer (m.elements a).size) m)
  | makes {b : Builtin} {arguments : List Value} {elements : Array Value} :
      Makes m b arguments elements →
      Does m b arguments (.ok (.array m.arrays.size) (m.allocate elements))
  | stores {a : ArrayId} {i : Int} (v : Value) : 0 ≤ i → i.toNat < (m.elements a).size →
      Does m .set [.array a, .integer i, v] (.ok .nil (m.store a i.toNat v))
  | prints {b : Builtin} (arguments : List Value) (output : Array CodePoint) :
      b = .print ∨ b = .println → Does m b arguments (.ok .nil { m with output := output })
  | reads {b : Builtin} {r : Reading} (t : Trace) : b.isReader → r.Of m.input.rest →
      Does m b [] (.ok (.string r.result) { m with input := m.input.leave r, trace := t })
  | halts {b : Builtin} {arguments : List Value} {input : Input} (reason : Halt)
      (output : Array CodePoint) : input.rest <:+ m.input.rest →
      Does m b arguments (.error reason { m with input := input, output := output })

namespace Does
variable {m : Machine} {b : Builtin} {arguments : List Value}

theorem stops (reason : Halt) : Does m b arguments (.error reason m) :=
  halts reason m.output (List.suffix_refl _)

theorem withBytes (t : Text) {f : List UInt8 → Eval Value}
    (h : ∀ bytes, Utf8.toBytes t = .ok bytes → Does m b arguments (f bytes m)) :
    Does m b arguments ((Eval.bytesOf t >>= f) m) := by
  rcases Eval.bytesOf_cases t m with ⟨bytes, has, found⟩ | ⟨reason, halted⟩
  · rw [bind_of_ok found]
    exact h bytes has
  · rw [bind_of_error halted]
    exact stops reason

end Does

theorem kind_ofBytesOrNil (bytes : List UInt8) (part : List UInt8 → List UInt8) :
    (ofBytesOrNil bytes part).kind ≠ .error := by
  unfold ofBytesOrNil
  split <;> simp

theorem computed_ofBytesOrNil (bytes : List UInt8) (part : List UInt8 → List UInt8) :
    (ofBytesOrNil bytes part).Computed := by
  unfold ofBytesOrNil
  split
  · exact .nil
  · exact .string _

section Calls
variable (m : Machine)

theorem does_callLen (value : Value) : Does m .len [value] (callLen value m) := by
  cases value with
  | string t => exact .withBytes t fun bytes has => .measuresString has
  | array a => exact .measuresArray a
  | _ => exact .refuses _

/-- An optional element of an array, or nil instead of none. -/
theorem does_pick {b : Builtin} (picks : b = .first ∨ b = .last) {a : ArrayId}
    {value? : Option Value} (mem : ∀ v, value? = some v → v ∈ m.elements a) :
    Does m b [.array a] (.ok (value?.getD .nil) m) := by
  cases value? with
  | some v => exact .picks picks (mem v rfl)
  | none =>
      refine .computes ?_ (by simp) .nil
      rcases picks with rfl | rfl <;> nofun

theorem does_callFirst (value : Value) : Does m .first [value] (callFirst value m) := by
  cases value with
  | string t =>
      exact .withBytes t fun bytes _ =>
        .computes nofun (kind_ofBytesOrNil bytes _) (computed_ofBytesOrNil bytes _)
  | array a => exact does_pick m (.inl rfl) fun v h => Array.mem_of_getElem? h
  | _ => exact .refuses _

theorem does_callLast (value : Value) : Does m .last [value] (callLast value m) := by
  cases value with
  | string t =>
      exact .withBytes t fun bytes _ =>
        .computes nofun (kind_ofBytesOrNil bytes _) (computed_ofBytesOrNil bytes _)
  | array a => exact does_pick m (.inr rfl) fun v h => Array.mem_of_back? h
  | _ => exact .refuses _

theorem callRest_array (a : ArrayId) : callRest (.array a) m =
    if (m.elements a).isEmpty then .ok .nil m
    else .ok (.array m.arrays.size)
      (m.allocate ((m.elements a).extract 1 (m.elements a).size)) := by
  change (if (m.elements a).isEmpty then (pure .nil : Eval Value) else _) m = _
  split <;> rfl

theorem does_callRest (value : Value) : Does m .rest [value] (callRest value m) := by
  cases value with
  | string t =>
      exact .withBytes t fun bytes _ =>
        .computes nofun (kind_ofBytesOrNil bytes _) (computed_ofBytesOrNil bytes _)
  | array a =>
      rw [callRest_array]
      split
      · exact .computes nofun (by simp) .nil
      · exact .makes (.rest a)
  | _ => exact .refuses _

theorem does_callPush (container value : Value) :
    Does m .push [container, value] (callPush container value m) := by
  cases container with
  | string s =>
      cases value with
      | string t =>
          exact .withBytes s fun front _ => .withBytes t fun back _ =>
            .computes nofun (by simp) (.string (front ++ back))
      | _ => exact .refuses _
  | array a => exact .makes (.push a value)
  | _ => exact .refuses _

theorem does_callAlloc (count fill : Value) :
    Does m .alloc [count, fill] (callAlloc count fill m) := by
  cases count with
  | integer n =>
      dsimp only [callAlloc]
      split
      · exact .computes nofun (by simp) .nil
      · rename_i positive
        split
        · exact .stops .memory
        · exact .makes (.alloc fill (Int.not_lt.mp positive))
  | _ => exact .refuses _

theorem does_callSet (array index value : Value) :
    Does m .set [array, index, value] (callSet array index value m) := by
  cases array with
  | array a =>
      cases index with
      | integer i =>
          have called : callSet (.array a) (.integer i) value m =
              if 0 ≤ i ∧ i < (m.elements a).size then .ok .nil (m.store a i.toNat value)
              else .ok (.unplacedError (.outOfRange i (m.elements a).size)) m := by
            change (if 0 ≤ i ∧ i < (m.elements a).size then _ else _ : Eval Value) m = _
            split <;> rfl
          rw [called]
          split
          · rename_i bounds
            exact .stores value bounds.1 (by omega)
          · exact .refuses _
      | _ => exact .refuses _
  | _ => exact .refuses _

/-- Printing has nil as its value, or halts for want of a readable form. -/
theorem printEach_cases (ending : Text) (values : List Value) :
    ∃ output, printEach ending values m = .ok .nil { m with output } ∨
      ∃ reason, printEach ending values m = .error reason { m with output } := by
  induction values generalizing m with
  | nil => exact ⟨m.output, .inl rfl⟩
  | cons value values ih =>
      cases shown : m.display value with
      | error reason =>
          have halted : Eval.display value m = .error reason m := by
            change Eval.ofExcept (m.display value) m = _
            rw [shown]
            rfl
          exact ⟨m.output, .inr ⟨reason, bind_of_error halted⟩⟩
      | ok form =>
          have found : Eval.display value m = .ok form m := by
            change Eval.ofExcept (m.display value) m = _
            rw [shown]
            rfl
          have step : printEach ending (value :: values) m =
              printEach ending values { m with output := m.output ++ (form ++ ending) } :=
            bind_of_ok found
          obtain ⟨output, h⟩ := ih { m with output := m.output ++ (form ++ ending) }
          rw [step]
          exact ⟨output, h⟩

theorem does_printEach {b : Builtin} (prints : b = .print ∨ b = .println) (ending : Text)
    (arguments values : List Value) : Does m b arguments (printEach ending values m) := by
  obtain ⟨output, done | ⟨reason, halted⟩⟩ := printEach_cases m ending values
  · rw [done]
    exact .prints arguments output prints
  · rw [halted]
    exact .halts reason output (List.suffix_refl _)

/-- A reader has a string as its result and leaves the rest of the input. A fault that it met stands
in the trace, or stops the run if it cannot be recovered from. -/
theorem takeInput_cases (b : Builtin) (read : Input → Reading) :
    ((read m.input).fault = none ∧ takeInput b read m =
      .ok (.string (read m.input).result) { m with input := m.input.leave (read m.input) }) ∨
    (∃ fault t, (read m.input).fault = some fault ∧ fault.recoverable ∧ takeInput b read m =
      .ok (.string (read m.input).result)
        { m with input := m.input.leave (read m.input), trace := t }) ∨
    ∃ fault, (read m.input).fault = some fault ∧ ¬fault.recoverable ∧ takeInput b read m =
      .error (.brokenInput fault.message) { m with input := m.input.leave (read m.input) } := by
  have got : (get : Eval Machine) m = .ok m m := rfl
  have changed (f : Machine → Machine) : (modify f : Eval Unit) m = .ok () (f m) := rfl
  unfold takeInput
  rw [bind_of_ok got]
  dsimp only
  rw [bind_of_ok (changed _)]
  cases (read m.input).fault with
  | none => exact .inl ⟨rfl, rfl⟩
  | some fault =>
      dsimp only
      split
      · exact .inr (.inl ⟨fault, _, rfl, ‹_›, rfl⟩)
      · exact .inr (.inr ⟨fault, rfl, ‹_›, rfl⟩)

theorem takeInput_of_faultless {b : Builtin} {read : Input → Reading} {m : Machine}
    (sound : (read m.input).fault = none) : takeInput b read m =
      .ok (.string (read m.input).result) { m with input := m.input.leave (read m.input) } := by
  obtain ⟨-, called⟩ | ⟨_, _, broken, -⟩ | ⟨_, broken, -⟩ := takeInput_cases m b read
  · exact called
  · exact absurd (sound.symm.trans broken) nofun
  · exact absurd (sound.symm.trans broken) nofun

theorem does_takeInput {b : Builtin} (reader : b.isReader) {read : Input → Reading}
    (piece : (read m.input).Of m.input.rest) : Does m b [] (takeInput b read m) := by
  obtain ⟨-, called⟩ | ⟨_, t, -, -, called⟩ | ⟨fault, -, -, called⟩ := takeInput_cases m b read
  · exact called ▸ .reads m.trace reader piece
  · exact called ▸ .reads t reader piece
  · exact called ▸ .halts (.brokenInput fault.message) m.output piece.rest

theorem does_call (b : Builtin) (arguments : List Value) :
    Does m b arguments (b.call arguments m) := by
  have performed (fits : ∀ n, b.arity? = some n → arguments.length = n) :
      Does m b arguments (b.perform arguments m) := by
    unfold perform
    split
    · exact does_callLen m _
    · exact does_callFirst m _
    · exact does_callLast m _
    · exact does_callRest m _
    · exact does_callPush m _ _
    · exact does_callAlloc m _ _
    · exact does_callSet m _ _ _
    · exact does_printEach m (.inr rfl) _ _ _
    · exact does_printEach m (.inl rfl) _ _ _
    · exact does_takeInput m rfl m.input.of_readLine
    · exact does_takeInput m rfl m.input.of_readWord
    · exact does_takeInput m rfl m.input.of_readChar
    · exact does_takeInput m rfl m.input.of_readAll
    · refine .computes ?_ (by simp) .nil
      rintro rfl
      -- with three arguments, `set` has its own branch
      have three := fits 3 rfl
      obtain ⟨array, index, value, rfl⟩ := List.length_eq_three.mp three
      rename_i own _ _ _ _
      exact own array index value rfl rfl
  unfold call
  cases arity : b.arity? with
  | none => exact performed fun n same => by simp [arity] at same
  | some expected =>
      dsimp only
      split
      · rename_i fits
        refine performed fun n same => ?_
        rwa [← Option.some.inj (arity.symm.trans same)]
      · exact .refuses _

end Calls

/-- No call defines names or functions. -/
theorem Does.scopes {m : Machine} {b : Builtin} {arguments : List Value}
    {result : EStateM.Result Halt Machine Value} (h : Does m b arguments result) :
    (Eval.final result).scopes = m.scopes ∧ (Eval.final result).functions = m.functions := by
  cases h <;> exact ⟨rfl, rfl⟩

/-- No call that comes to its end changes how the input breaks. -/
theorem Does.fault {m m' : Machine} {b : Builtin} {arguments : List Value} {v : Value}
    (h : Does m b arguments (.ok v m')) : m'.input.fault = m.input.fault := by
  cases h <;> rfl

end Builtin

end Script
