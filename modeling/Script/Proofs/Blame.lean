import Script.Proofs.NodePositions
import Script.Proofs.Traits

/-!
# What failures are about

A failure is explained by one of two things. It arose at a node of the program, of the kind that its
cause speaks of, and has the position of that node; or a call of a built-in function returned it,
and it has no position. On their way nothing replaces failures: none is ever bound to a name or put
into an array, so no step gives on a failure that it did not make.

`Explains` says this of what a computation ends with, as long as the functions that exist are
written with the nodes of the program. There is one lemma for each step and each way to go on.
-/

namespace Script

/-- The node that a failure is about. -/
inductive Failure.ArisesAt : Failure → Node → Prop
  | name (n : Name) (p : Position) : ArisesAt ⟨.unboundName n, p⟩ (.name n p)
  | callee (n : Name) (p : Position) : ArisesAt ⟨.unboundName n, p⟩ (.call n p)
  | assigned (n : Name) (p : Position) : ArisesAt ⟨.unboundName n, p⟩ (.assign n p)
  | notAFunction (kind : Kind) (callee : Name) (p : Position) :
      ArisesAt ⟨.notAFunction kind, p⟩ (.call callee p)
  | arity (function : Name) (expected got : Nat) (callee : Name) (p : Position) :
      ArisesAt ⟨.functionArity function expected got, p⟩ (.call callee p)
  | indexKind (kind : Kind) (p : Position) : ArisesAt ⟨.indexKind kind, p⟩ (.index p)
  | notIndexable (kind : Kind) (p : Position) : ArisesAt ⟨.notIndexable kind, p⟩ (.index p)
  | notNegatable (kind : Kind) (p : Position) :
      ArisesAt ⟨.notNegatable kind, p⟩ (.unary .negate p)
  | division {op : BinaryOp} (p : Position) : op = .div ∨ op = .mod →
      ArisesAt ⟨.divisionByZero, p⟩ (.binary op p)
  | mixed (op : BinaryOp) (left right : Kind) (p : Position) :
      ArisesAt ⟨.mixedOperands op left right, p⟩ (.binary op p)
  | unsupported (op : BinaryOp) (left right : Kind) (p : Position) :
      ArisesAt ⟨.unsupportedOperands op left right, p⟩ (.binary op p)

theorem Failure.ArisesAt.position_eq {failure : Failure} {node : Node}
    (h : failure.ArisesAt node) : failure.position = node.position := by
  cases h <;> rfl

theorem Failure.ArisesAt.name?_eq {n : Name} {p : Position} {node : Node}
    (h : (Failure.mk (.unboundName n) p).ArisesAt node) : node.name? = some n := by
  cases h <;> rfl

/-! ### Failures of single steps -/

theorem UnaryOp.arisesAt_apply {op : UnaryOp} {operand : Value} {p : Position} {failure : Failure}
    (h : op.apply operand p = .error failure) : failure.ArisesAt (.unary op p) := by
  cases op with
  | not => cases h
  | negate => cases operand <;> cases h <;> exact .notNegatable _ p

theorem BinaryOp.arisesAt_onIntegers {op : BinaryOp} {a b : Int} {cause : Cause} (p : Position)
    (h : op.onIntegers a b = .error cause) : Failure.ArisesAt ⟨cause, p⟩ (.binary op p) := by
  cases op with
  | div | mod =>
      simp only [onIntegers] at h
      split at h <;> cases h
      exact .division p (by simp)
  | _ => cases h

theorem BinaryOp.error_onIntegers {op : BinaryOp} {a b : Int} {failure : Failure} :
    op.onIntegers a b ≠ .ok (.error failure) := by
  intro h
  cases op with
  | div | mod =>
      simp only [onIntegers] at h
      split at h <;> cases h
  | _ => cases h

namespace Eval

/-- All failures that a step has as its value, on machines that hold none, have a property. -/
def Fails (x : Eval Value) (P : Failure → Prop) : Prop :=
  ∀ (m m' : Machine) failure, (m.Holds fun v => v.kind ≠ .error) →
    x m = .ok (.error failure) m' → P failure

namespace Fails
variable {P : Failure → Prop}

theorem pure {v : Value} (h : ∀ failure, v = .error failure → P failure) : Fails (pure v) P := by
  rintro m m' failure - ⟨⟩
  exact h failure rfl

theorem never {v : Value} (h : v.kind ≠ .error) : Fails (Pure.pure v) P :=
  pure fun _ same => absurd (congrArg Value.kind same) h

theorem withBytes (t : Text) {f : List UInt8 → Eval Value} (h : ∀ bytes, Fails (f bytes) P) :
    Fails (bytesOf t >>= f) P := by
  intro m m' failure holds done
  rcases bytesOf_cases t m with ⟨bytes, -, found⟩ | ⟨reason, halted⟩
  · rw [bind_of_ok found] at done
    exact h bytes m m' failure holds done
  · rw [bind_of_error halted] at done
    cases done

theorem traced {x : Eval Value} (h : Fails x P) (trace : Value → Eval Unit) :
    Fails (do let v ← x; trace v; return v) P := by
  intro m m' failure holds done
  cases hx : x m with
  | error reason t => rw [bind_of_error hx] at done; cases done
  | ok v t =>
      rw [bind_of_ok hx] at done
      cases ht : trace v t with
      | error reason u => rw [bind_of_error ht] at done; cases done
      | ok _ u =>
          rw [bind_of_ok ht] at done
          cases done
          exact h m t failure holds hx

theorem resolve (env : Env) (name : Name) (position : Position) :
    Fails (resolve env name position) (· = ⟨.unboundName name, position⟩) := by
  intro m m' failure holds done
  cases found : m.scopes.lookup? env name with
  | some v =>
      rw [resolve_of_some found] at done
      cases done
      obtain ⟨id, bound⟩ := Scopes.mem_bindings_of_lookup? found
      exact absurd rfl (holds.bindings id _ bound)
  | none =>
      rw [resolve_of_none found] at done
      cases builtin : Builtin.ofName? name with
      | some b => rw [builtin] at done; cases done
      | none => rw [builtin] at done; cases done; rfl

theorem indexValue (target index : Value) (position : Position) :
    Fails (indexValue target index position) (·.ArisesAt (.index position)) := by
  unfold Script.indexValue
  split
  · next a i =>
      intro m m' failure holds done
      have value : (if 0 ≤ i then (m.elements a)[i.toNat]?.getD .nil else .nil) =
          Value.error failure := (EStateM.Result.ok.inj done).1
      split at value
      · cases element : (m.elements a)[i.toNat]? with
        | none => rw [element] at value; cases value
        | some v =>
            rw [element] at value
            cases value
            exact absurd rfl (holds.elements a _ (Array.mem_of_getElem? element))
      · cases value
  · next t i =>
      refine .withBytes t fun bytes => .never ?_
      split
      · cases bytes[i.toNat]? <;> simp
      · simp
  · exact .pure fun failure same => by cases same; exact .notIndexable _ position
  · exact .pure fun failure same => by cases same; exact .indexKind _ position

theorem binary (op : BinaryOp) (left right : Value) (position : Position) :
    Fails (op.apply left right position) (·.ArisesAt (.binary op position)) := by
  unfold BinaryOp.apply
  split
  · exact .never (by simp)
  · exact .never (by simp)
  · split
    · next value applied =>
        refine .pure fun failure same => ?_
        rw [same] at applied
        exact absurd applied BinaryOp.error_onIntegers
    · next cause applied =>
        refine .pure fun failure same => ?_
        cases same
        exact BinaryOp.arisesAt_onIntegers position applied
  · exact .withBytes _ fun front => .withBytes _ fun back =>
      .never (by simp)
  · refine .pure fun failure same => ?_
    cases same
    unfold BinaryOp.refuse
    split
    · exact .unsupported op _ _ position
    · exact .mixed op _ _ position

theorem tracedUnary (op : UnaryOp) (operand : Value) (position : Position) :
    Fails (tracedUnary op operand position) (·.ArisesAt (.unary op position)) :=
  traced (.pure fun _ same => UnaryOp.arisesAt_apply same) (traceUnary op operand)

theorem tracedBinary (op : BinaryOp) (left right : Value) (position : Position) :
    Fails (tracedBinary op left right position) (·.ArisesAt (.binary op position)) :=
  traced (.binary op left right position) (traceBinary op left right)

/-- The failures of built-in functions stand nowhere in the source. -/
theorem builtin (b : Builtin) (arguments : List Value) :
    Fails (b.call arguments) (·.position = .nowhere) := by
  intro m m' failure holds done
  have effect := Builtin.does_call m b arguments
  rw [done] at effect
  cases effect with
  | refuses cause => rfl
  | computes _ other _ => exact absurd rfl other
  | picks _ mem => exact absurd rfl (holds.elements _ _ mem)

end Fails

end Eval

/-! ### Explanations -/

/-- A machine that holds no failures, and whose functions are written with these nodes. -/
structure Machine.Written (nodes : List Node) (m : Machine) : Prop where
  holds : m.Holds fun v => v.kind ≠ .error
  functions : ∀ f ∈ m.functions, bodyNodes f.body ⊆ nodes

theorem Machine.Written.retraced {nodes : List Node} {m : Machine} (h : m.Written nodes)
    (trace : Trace) : ({ m with trace := trace } : Machine).Written nodes :=
  ⟨h.holds.of_eq rfl rfl, h.functions⟩

/-- A failure arose at a node, or a built-in function has returned it. -/
def Failure.Explained (nodes : List Node) (log : List Moment) (failure : Failure) : Prop :=
  (∃ node ∈ nodes, failure.ArisesAt node) ∨
    (failure.position = .nowhere ∧
      ∃ b arguments, .answered (.builtin b) arguments (.error failure) ∈ log)

section Explanations
variable {nodes : List Node} {log log' : List Moment}

theorem Failure.Explained.mono {failure : Failure} (h : failure.Explained nodes log)
    (le : log <+: log') : failure.Explained nodes log' := by
  obtain here | ⟨unplaced, b, arguments, told⟩ := h
  · exact .inl here
  · exact .inr ⟨unplaced, b, arguments, le.mem told⟩

/-- The value of an expression is explained if it is a failure. -/
def Value.Explained (nodes : List Node) (log : List Moment) (v : Value) : Prop :=
  ∀ failure, v = .error failure → failure.Explained nodes log

theorem Failure.Explained.value {failure : Failure} (h : failure.Explained nodes log) :
    (Value.error failure).Explained nodes log := by
  rintro _ ⟨⟩
  exact h

theorem Value.explained_of_kind {v : Value} (h : v.kind ≠ .error) : v.Explained nodes log :=
  fun _ same => absurd (congrArg Value.kind same) h

theorem Value.Explained.mono {v : Value} (h : v.Explained nodes log) (le : log <+: log') :
    v.Explained nodes log' :=
  fun failure same => (h failure same).mono le

/-- No function returns a failure as its value. -/
def Completion.Explained (nodes : List Node) (log : List Moment) : Completion → Prop
  | normal => True
  | returned value => value.kind ≠ .error
  | aborted failure => failure.Explained nodes log

theorem Completion.Explained.mono {c : Completion} (h : c.Explained nodes log)
    (le : log <+: log') : c.Explained nodes log' := by
  cases c with
  | aborted failure => exact Failure.Explained.mono h le
  | _ => exact h

/-- Values that are gone on with are no failures. -/
def ValuesExplained (nodes : List Node) (log : List Moment) :
    Except Failure (List Value) → Prop
  | .ok values => ∀ v ∈ values, v.kind ≠ .error
  | .error failure => failure.Explained nodes log

/-! ### Runs -/

/-- A state is viewed by its log, while its machine is written with the nodes. -/
structure Logged.Written (nodes : List Node) (log : List Moment) (s : Logged Moment) : Prop where
  same : s.log = log
  machine : s.machine.Written nodes

/-- A computation that leaves only written machines, and of whose result `Q` holds. -/
abbrev Explains {α : Type} (nodes : List Node) (log : List Moment) (x : Narrated α)
    (Q : List Moment → α → Prop) : Prop :=
  Maintains Course.log (Logged.Written nodes) none log x Q

namespace Explains
variable {α β : Type} {Q : List Moment → α → Prop}

theorem step {x : Eval α} {Q : α → Prop}
    (left : ∀ m, m.Written nodes → (Eval.final (x m)).Written nodes)
    (result : ∀ m a m', m.Written nodes → x m = .ok a m' → Q a) :
    Explains nodes log (Narrated.step x) fun _ a => Q a := by
  refine Maintains.step fun s view => ?_
  have written := left s.machine view.machine
  cases hs : x s.machine with
  | error reason m =>
      rw [hs] at written
      exact ⟨log, List.prefix_refl log, view.same, written⟩
  | ok a m =>
      rw [hs] at written
      refine ⟨_, List.prefix_append log [.stepped m], ⟨?_, written⟩, result _ a m view.machine hs⟩
      rw [view.same]

theorem looks {x : Eval α} {Q : α → Prop} (h : Eval.Looks x)
    (result : ∀ m a m', m.Written nodes → x m = .ok a m' → Q a) :
    Explains nodes log (Narrated.step x) fun _ a => Q a := by
  refine step (fun m written => ?_) result
  obtain ⟨trace, same⟩ := h m
  rw [same]
  exact written.retraced trace

/-- A step that only looks at the machine, and fails at one node. -/
theorem consults {x : Eval Value} {P : Failure → Prop} (h : Eval.Consults x)
    (fails : Eval.Fails x P) {node : Node} (mem : node ∈ nodes)
    (arises : ∀ failure, P failure → failure.ArisesAt node) :
    Explains nodes log (Narrated.step x) (Value.Explained nodes) := by
  have found : Explains nodes log (Narrated.step x) fun _ v =>
      ∀ failure, v = .error failure → failure.ArisesAt node := by
    refine looks h.looks fun m v m' written done failure same => ?_
    rw [same] at done
    exact arises failure (fails m m' failure written.holds done)
  exact found.imp fun _ v here failure same => .inl ⟨node, mem, here failure same⟩

theorem tell (moment : Moment) :
    Explains nodes log (Narrated.tell moment) fun log' _ => moment ∈ log' := by
  refine Maintains.tell (P := fun log' => moment ∈ log') fun s view => ?_
  refine ⟨_, List.prefix_append log [moment], ⟨?_, view.machine⟩, ?_⟩
  · rw [view.same]
  · exact List.mem_append_right log (List.mem_singleton_self moment)

/-- A computation between two moments. What is known of its result may depend on the second. -/
theorem between {x : Narrated α} {before : Moment} {after : α → Moment}
    {Q' : List Moment → α → Prop} (hx : ∀ log', log <+: log' → Explains nodes log' x Q)
    (last : ∀ log' log'' a, log' <+: log'' → Q log' a → after a ∈ log'' → Q' log'' a) :
    Explains nodes log (Narrated.between before after x) Q' := by
  refine (tell before).bind fun log' _ le _ => ?_
  refine (hx log' le).bind fun log'' a _ ha => ?_
  exact (tell (after a)).bind fun log₃ _ le' told => .pure (last _ _ a le' ha told)

theorem indented {x : Narrated α} (h : Explains nodes log x Q) :
    Explains nodes log (Logged.indented x) Q :=
  Maintains.indented (fun _ _ trace view => ⟨view.same, view.machine.retraced trace⟩) h

theorem onCall {x : Narrated Value} (callee : Name) (function : Value) (arguments : List Value)
    (hx : Explains nodes log (Narrated.between (.calling function arguments)
      (.answered function arguments) x) (Value.Explained nodes)) :
    Explains nodes log (Observer.narrating.onCall callee function arguments x)
      (Value.Explained nodes) := by
  refine hx.bind fun log' result _ hresult => ?_
  have traced : Explains nodes log' (Narrated.step (traceCall callee arguments result))
      fun _ _ => True :=
    looks (Traces.call callee arguments result).looks fun _ _ _ _ _ => trivial
  exact traced.bind fun log'' _ le _ => .pure (hresult.mono le)

/-- A failure that a built-in function returns is told of when the call is answered. -/
theorem builtin (callee : Name) (b : Builtin) {arguments : List Value}
    (all : ∀ v ∈ arguments, v.kind ≠ .error) :
    Explains nodes log (Observer.narrating.onCall callee (.builtin b) arguments
      (Narrated.step (b.call arguments))) (Value.Explained nodes) := by
  refine onCall callee _ arguments ?_
  have called (log' : List Moment) : Explains nodes log' (Narrated.step (b.call arguments))
      fun _ v => ∀ failure, v = .error failure → failure.position = .nowhere := by
    refine step (fun m written => ?_) fun m v m' written done failure same => ?_
    · have held := b.preserves_call all m written.holds
      have functions := (Builtin.does_call m b arguments).scopes.2
      generalize b.call arguments m = result at held functions
      cases result with
      | ok v m' => exact ⟨held, fun f mem => written.functions f (functions ▸ mem)⟩
      | error reason m' => exact ⟨held.1, fun f mem => written.functions f (functions ▸ mem)⟩
    · rw [same] at done
      exact Eval.Fails.builtin b arguments m m' failure written.holds done
  refine between (fun log' _ => called log') fun log' log'' v _ unplaced told failure same => ?_
  subst same
  exact .inr ⟨unplaced failure rfl, b, arguments, told⟩

theorem onValue {x : Narrated Value} {fail : Failure → α} {next : Value → Narrated α}
    (hx : Explains nodes log x (Value.Explained nodes))
    (hfail : ∀ log' failure, failure.Explained nodes log' → Q log' (fail failure))
    (hf : ∀ log' v, v.kind ≠ .error → Explains nodes log' (next v) Q) :
    Explains nodes log (onValue x fail next) Q := by
  refine hx.bind fun log' v _ hv => ?_
  cases v with
  | error failure => exact .pure (hfail log' failure (hv failure rfl))
  | _ => exact hf log' _ (by simp)

theorem onValues {x : Narrated (Except Failure (List Value))} {fail : Failure → α}
    {next : List Value → Narrated α} (hx : Explains nodes log x (ValuesExplained nodes))
    (hfail : ∀ log' failure, failure.Explained nodes log' → Q log' (fail failure))
    (hf : ∀ log' values, (∀ v ∈ values, v.kind ≠ .error) → Explains nodes log' (next values) Q) :
    Explains nodes log (onValues x fail next) Q := by
  refine hx.bind fun log' r _ hr => ?_
  cases r with
  | error failure => exact .pure (hfail log' failure hr)
  | ok values => exact hf log' values hr

theorem onNormal {x x' : Narrated Completion}
    (hx : Explains nodes log x (Completion.Explained nodes))
    (hx' : ∀ log', Explains nodes log' x' (Completion.Explained nodes)) :
    Explains nodes log (do match ← x with | .normal => x' | completion => pure completion)
      (Completion.Explained nodes) := by
  refine hx.bind fun log' completion _ hc => ?_
  cases completion with
  | normal => exact hx' log'
  | _ => exact .pure hc

end Explains

/-! ### Steps of evaluation -/

namespace Explains

theorem onExpr {env : Env} {e : Expr} {x : Narrated Value}
    (h : ∀ log', Explains nodes log' x (Value.Explained nodes)) :
    Explains nodes log (Observer.narrating.onExpr env e x) (Value.Explained nodes) :=
  between (fun log' _ => h log') fun _ _ _ le hv _ => hv.mono le

theorem onDecl {env : Env} {d : Decl} {x : Narrated Completion}
    (h : ∀ log', Explains nodes log' x (Completion.Explained nodes)) :
    Explains nodes log (Observer.narrating.onDecl env d x) (Completion.Explained nodes) :=
  between (fun log' _ => h log') fun _ _ _ le hc _ => hc.mono le

theorem resolve (env : Env) {name : Name} {position : Position} {node : Node} (mem : node ∈ nodes)
    (arises : (Failure.mk (.unboundName name) position).ArisesAt node) :
    Explains nodes log (Narrated.step (resolve env name position)) (Value.Explained nodes) :=
  consults (.resolve env name position) (.resolve env name position) mem
    fun _ same => same ▸ arises

theorem newArray {elements : Array Value} (all : ∀ v ∈ elements, v.kind ≠ .error) :
    Explains nodes log (Narrated.step (Eval.newArray elements)) (Value.Explained nodes) := by
  have made : Explains nodes log (Narrated.step (Eval.newArray elements)) fun _ v =>
      v.kind ≠ .error := by
    refine step (fun m written => ⟨written.holds.allocate all, written.functions⟩) ?_
    rintro _ v _ - ⟨⟩
    simp
  exact made.imp fun _ _ => Value.explained_of_kind

theorem newScope {bindings : Bindings} (name : Name) (env : Env)
    (all : ∀ binding ∈ bindings, binding.2.kind ≠ .error) :
    Explains nodes log (Narrated.step (Eval.newScope name bindings env)) fun _ _ => True :=
  step (fun _ written => ⟨written.holds.make name all, written.functions⟩) fun _ _ _ _ _ => trivial

theorem define {value : Value} (env : Env) (name : Name) (hv : value.kind ≠ .error) :
    Explains nodes log (Narrated.step (Eval.define env name value)) fun _ _ => True := by
  refine step (fun m written => ?_) fun _ _ _ _ _ => trivial
  cases env with
  | nil => exact written
  | cons id env => exact ⟨written.holds.define id name hv, written.functions⟩

theorem assign {value : Value} (env : Env) (name : Name) (hv : value.kind ≠ .error) :
    Explains nodes log (Narrated.step (Eval.assign env name value)) fun _ _ => True := by
  refine step (fun m written => ?_) fun _ _ _ _ _ => trivial
  obtain ⟨id, -, assigned⟩ | ⟨-, missing⟩ := Eval.assign_cases env name value m
  · rw [assigned]
    exact ⟨written.holds.define id name hv, written.functions⟩
  · rw [missing]
    exact written

theorem newFunction (name : Name) (parameters : List Name) {body : List Decl} (env : Env)
    (sub : bodyNodes body ⊆ nodes) :
    Explains nodes log (Narrated.step (Eval.newFunction name parameters body env)) fun _ v =>
      v.kind ≠ .error := by
  refine step (fun m written => ⟨written.holds.of_eq rfl rfl, fun f mem => ?_⟩) ?_
  · rcases Array.mem_push.mp mem with old | rfl
    · exact written.functions f old
    · exact sub
  · rintro _ v _ - ⟨⟩
    nofun

theorem closure (id : FunctionId) :
    Explains nodes log (Narrated.step (Eval.closure? id)) fun _ f? =>
      ∀ f, f? = some f → bodyNodes f.body ⊆ nodes := by
  refine looks (Eval.looks_closure id) ?_
  rintro m f? m' written ⟨⟩ f found
  exact written.functions f (Array.mem_of_getElem? found)

theorem halt {α : Type} (reason : Halt) {Q : List Moment → α → Prop} :
    Explains nodes log (Narrated.step (throw reason)) Q :=
  Maintains.halt reason

end Explains

end Explanations

end Script
