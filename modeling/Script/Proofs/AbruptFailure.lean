import Script.Proofs.TraceIndependence

/-!
# Failures that end the run at once

A second semantics of programs, in which a failure is an exception: wherever the first one comes
up, in a lookup, an operator, an index, a call or an assignment, it ends the run on the spot, at any
depth of expressions, blocks, loops and calls. Nothing passes a failure on, nothing looks for one,
and nothing is traced.

The run of a program, in which a failure is a value that every construct gives on, comes to the same
end unless some readable form could not be made for its trace: the same failure or none, in machines
that differ in their traces only.
-/

namespace Script

/-- What stops an abrupt run: a failure of the program, or a halt. -/
inductive Stop where
  | failure (failure : Failure)
  | halt (reason : Halt)
  deriving Repr, DecidableEq

abbrev Abrupt := EStateM Stop Machine

namespace Abrupt

def lift {α : Type} (x : Eval α) : Abrupt α := fun m =>
  match x m with
  | .ok a m => .ok a m
  | .error reason m => .error (.halt reason) m

def value (x : Eval Value) : Abrupt Value := do
  match ← lift x with
  | .error failure => throw (.failure failure)
  | v => return v

mutual

def evalExpr (call : CallerIn Abrupt) (env : Env) : Expr → Abrupt Value
  | .literal l => return l.value
  | .name name position => value (resolve env name position)
  | .array elements => do
    let values ← evalAll call env elements
    lift (Eval.newArray values.toArray)
  | .call callee arguments position => do
    let function ← value (resolve env callee position)
    let values ← evalAll call env arguments
    match function with
    | .builtin b => value (b.call values)
    | .function id => call id values position
    | other => throw (.failure ⟨.notAFunction other.kind, position⟩)
  | .index target index position => do
    let target ← evalExpr call env target
    let index ← evalExpr call env index
    value (indexValue target index position)
  | .unary op operand position => do
    let operand ← evalExpr call env operand
    value (pure (op.apply operand position))
  | .binary op left right position => do
    let left ← evalExpr call env left
    let right ← evalExpr call env right
    value (op.apply left right position)
termination_by structural e => e

def evalAll (call : CallerIn Abrupt) (env : Env) : List Expr → Abrupt (List Value)
  | [] => return []
  | e :: rest => do
    let value ← evalExpr call env e
    let values ← evalAll call env rest
    return value :: values
termination_by structural es => es

end

/-- Repeats a body until the condition fails or the body returns a value. -/
def repeatWhile (condition : Abrupt Value) (body : Abrupt (Option Value)) :
    Nat → Abrupt (Option Value)
  | 0 => throw (.halt .exhausted)
  | rounds + 1 => do
    let value ← condition
    if value.isTruthy then
      match ← body with
      | none => repeatWhile condition body rounds
      | some value => return some value
    else return none

def inBlock {α : Type} (env : Env) (run : Env → Abrupt α) : Abrupt α := do
  run (← lift (Eval.newScope (text "block") [] env))

mutual

def execStmt (call : CallerIn Abrupt) (rounds : Nat) (env : Env) : Stmt → Abrupt (Option Value)
  | .block body => inBlock env fun env => execBody call rounds env body
  | .declare name value => do
    lift (Eval.define env name (← evalExpr call env value))
    return none
  | .assign name value position => do
    let value ← evalExpr call env value
    if ← lift (Eval.assign env name value) then return none
    else throw (.failure ⟨.unboundName name, position⟩)
  | .eval value => do
    let _ ← evalExpr call env value
    return none
  | .branch condition body otherwise => do
    let value ← evalExpr call env condition
    if value.isTruthy then execStmt call rounds env body
    else execOtherwise call rounds env otherwise
  | .loop condition body =>
    repeatWhile (evalExpr call env condition) (execStmt call rounds env body) rounds
  | .return_ none => return some .nil
  | .return_ (some value) => do
    let value ← evalExpr call env value
    return some value
termination_by structural s => s

def execOtherwise (call : CallerIn Abrupt) (rounds : Nat) (env : Env) :
    Otherwise → Abrupt (Option Value)
  | .nothing => return none
  | .stmt s => execStmt call rounds env s
termination_by structural e => e

def execDecl (call : CallerIn Abrupt) (rounds : Nat) (env : Env) : Decl → Abrupt (Option Value)
  | .function name parameters body => do
    lift (Eval.define env name (← lift (Eval.newFunction name parameters body env)))
    return none
  | .stmt s => execStmt call rounds env s
termination_by structural d => d

def execBody (call : CallerIn Abrupt) (rounds : Nat) (env : Env) :
    List Decl → Abrupt (Option Value)
  | [] => return none
  | d :: rest => do
    match ← execDecl call rounds env d with
    | none => execBody call rounds env rest
    | some value => return some value
termination_by structural body => body

end

def callFunction (rounds : Nat) : Nat → CallerIn Abrupt
  | 0 => fun _ _ _ => throw (.halt .recursion)
  | depth + 1 => fun id arguments position => do
    match ← lift (Eval.closure? id) with
    | none => return .nil
    | some f =>
      if arguments.length = f.parameters.length then
        let bindings := Bindings.ofList (f.parameters.zip arguments)
        let env ← lift (Eval.newScope f.name bindings f.env)
        match ← execBody (callFunction rounds depth) rounds env f.body with
        | none => return .nil
        | some value => return value
      else
        throw (.failure ⟨.functionArity f.name f.parameters.length arguments.length, position⟩)

def run (budget : Budget) (program : Program) : Abrupt Unit := do
  match ← execBody (callFunction budget.rounds budget.depth) budget.rounds Machine.globalEnv
      program with
  | none => return ()
  | some _ => throw (.halt .strayReturn)

end Abrupt

/-- What comes of a value when failures are not values. -/
inductive Value.Settles : Value → Except Failure Value → Prop
  | value {v : Value} : v.kind ≠ .error → Settles v (.ok v)
  | failure (failure : Failure) : Settles (.error failure) (.error failure)

inductive Completion.Settles : Completion → Except Failure (Option Value) → Prop
  | normal : Settles .normal (.ok none)
  | returned {v : Value} : v.Settles (.ok v) → Settles (.returned v) (.ok (some v))
  | aborted (failure : Failure) : Settles (.aborted failure) (.error failure)

/-- Two results that are the same end, but for the traces of their machines, or the first is a halt
for want of a readable form. -/
inductive Mirrors {α β : Type} (settles : α → Except Failure β → Prop) :
    EStateM.Result Halt Machine α → EStateM.Result Stop Machine β → Prop
  | ok {a : α} {b : β} (m : Machine) (t : Trace) : settles a (.ok b) →
      Mirrors settles (.ok a m) (.ok b { m with trace := t })
  | failed {a : α} {failure : Failure} (m : Machine) (t : Trace) : settles a (.error failure) →
      Mirrors settles (.ok a m) (.error (.failure failure) { m with trace := t })
  | halted (reason : Halt) (m : Machine) (t : Trace) :
      Mirrors settles (.error reason m) (.error (.halt reason) { m with trace := t })
  | unreadable {reason : Halt} (m : Machine) {r : EStateM.Result Stop Machine β} :
      reason.IsUnreadable → Mirrors settles (.error reason m) r

/-- A computation, and an abrupt one that comes to the same end from the same machine. -/
def Follows {α β : Type} (settles : α → Except Failure β → Prop) (x : Eval α) (y : Abrupt β) :
    Prop :=
  ∀ m t, Mirrors settles (x m) (y { m with trace := t })

namespace Follows
variable {α β γ δ : Type} {settles : α → Except Failure β → Prop}
variable {settles' : γ → Except Failure δ → Prop}

theorem pure {a : α} {b : β} (h : settles a (.ok b)) : Follows settles (pure a) (pure b) :=
  fun m t => .ok m t h

theorem failed {a : α} {failure : Failure} (h : settles a (.error failure)) :
    Follows settles (Pure.pure a) (throw (.failure failure)) :=
  fun m t => .failed m t h

theorem halted (reason : Halt) : Follows settles (throw reason) (throw (.halt reason)) :=
  fun m t => .halted reason m t

/-- The abrupt computation skips what the other one does only to give a failure on. -/
theorem bind {x : Eval α} {y : Abrupt β} {f : α → Eval γ} {g : β → Abrupt δ}
    (h : Follows settles x y) (hf : ∀ a b, settles a (.ok b) → Follows settles' (f a) (g b))
    (hfail : ∀ a failure, settles a (.error failure) →
      Follows settles' (f a) (throw (.failure failure))) :
    Follows settles' (x >>= f) (y >>= g) := by
  intro m t
  have hx := h m t
  generalize hm : x m = r, hm' : y { m with trace := t } = r' at hx
  cases hx with
  | @ok a b n t' hok =>
      rw [bind_of_ok hm, bind_of_ok hm']
      exact hf a b hok n t'
  | @failed a failure n t' herror =>
      rw [bind_of_ok hm, bind_of_error hm']
      exact hfail a failure herror n t'
  | halted reason n t' =>
      rw [bind_of_error hm, bind_of_error hm']
      exact .halted reason n t'
  | unreadable n hreason =>
      rw [bind_of_error hm]
      exact .unreadable n hreason

theorem onValue {x : Eval Value} {y : Abrupt Value} {fail : Failure → γ} {f : Value → Eval γ}
    {g : Value → Abrupt δ} (h : Follows Value.Settles x y)
    (hfail : ∀ failure, settles' (fail failure) (.error failure))
    (hf : ∀ v, v.Settles (.ok v) → Follows settles' (f v) (g v)) :
    Follows settles' (onValue x fail f) (y >>= g) := by
  refine h.bind (fun v w hv => ?_) fun v failure hv => ?_
  · cases hv with
    | value hv =>
        cases v with
        | error failure => exact absurd rfl hv
        | _ => exact hf _ (.value hv)
  · cases hv
    exact failed (hfail failure)

theorem onValues {x : Eval (Except Failure (List Value))} {y : Abrupt (List Value)}
    {fail : Failure → γ} {f : List Value → Eval γ} {g : List Value → Abrupt δ}
    (h : Follows Eq x y) (hfail : ∀ failure, settles' (fail failure) (.error failure))
    (hf : ∀ vs, Follows settles' (f vs) (g vs)) :
    Follows settles' (onValues x fail f) (y >>= g) := by
  refine h.bind (fun r vs hr => ?_) fun r failure hr => ?_
  · cases hr
    exact hf vs
  · cases hr
    exact failed (hfail failure)

theorem onNormal {x x' : Eval Completion} {y y' : Abrupt (Option Value)}
    (h : Follows Completion.Settles x y) (h' : Follows Completion.Settles x' y') :
    Follows Completion.Settles
      (do match ← x with | .normal => x' | completion => Pure.pure completion)
      (do match ← y with | none => y' | some value => Pure.pure (some value)) := by
  refine h.bind (fun c r hc => ?_) fun c failure hc => ?_
  · cases hc with
    | normal => exact h'
    | returned hv => exact pure (.returned hv)
  · cases hc
    exact failed (.aborted failure)

/-- A step that cannot fail. -/
theorem step {x : Eval α} {f : α → Eval γ} {g : α → Abrupt δ} (h : Alike x x)
    (hf : ∀ a, Follows settles' (f a) (g a)) :
    Follows settles' (x >>= f) (Abrupt.lift x >>= g) := by
  have hlift : Follows (fun a r => Except.ok a = r) x (Abrupt.lift x) := by
    intro m t
    have hx := h m t
    unfold Abrupt.lift
    generalize x m = r, x { m with trace := t } = r' at hx
    cases hx with
    | ok a n t' _ => exact .ok n t' rfl
    | error reason n t' _ => exact .halted reason n t'
  refine hlift.bind (fun a b hab => ?_) fun a failure ha => ?_
  · cases hab
    exact hf a
  · cases ha

/-- A step whose value may be a failure. -/
theorem value {x : Eval Value} (h : Alike x x) : Follows Value.Settles x (Abrupt.value x) := by
  have hbind : Follows Value.Settles (x >>= Pure.pure) (Abrupt.value x) :=
    step h fun v => by
      cases v with
      | error failure => exact failed (.failure failure)
      | _ => exact pure (.value nofun)
  rwa [bind_pure] at hbind

/-- Tracing a result has no counterpart in the abrupt computation. -/
theorem traced {x : Eval α} {y : Abrupt β} {f : α → Eval Unit} {values : α → List Value}
    (h : Follows settles x y) (hf : ∀ a, Traces (values a) (f a)) :
    Follows settles (do let a ← x; f a; return a) y := by
  intro m t
  have hx := h m t
  generalize hm : x m = r, hm' : y { m with trace := t } = r' at hx
  cases hx with
  | halted reason n t' =>
      rw [bind_of_error hm]
      exact .halted reason n t'
  | unreadable n hreason =>
      rw [bind_of_error hm]
      exact .unreadable n hreason
  | @ok a b n t' hok =>
      rw [bind_of_ok hm]
      obtain ⟨u, hu⟩ | ⟨reason, hu, hreason⟩ := (hf a).result n
      · rw [bind_of_ok hu]
        exact .ok { n with trace := u } t' hok
      · rw [bind_of_error hu]
        exact .unreadable n hreason
  | @failed a failure n t' herror =>
      rw [bind_of_ok hm]
      obtain ⟨u, hu⟩ | ⟨reason, hu, hreason⟩ := (hf a).result n
      · rw [bind_of_ok hu]
        exact .failed { n with trace := u } t' herror
      · rw [bind_of_error hu]
        exact .unreadable n hreason

theorem newArray (elements : Array Value) :
    Follows Value.Settles (Eval.newArray elements) (Abrupt.lift (Eval.newArray elements)) :=
  fun m t => .ok { m with arrays := m.arrays.push elements } t (.value nofun)

theorem indented {x : Eval α} {y : Abrupt β} (h : Follows settles x y) :
    Follows settles (Eval.indented x) y := by
  intro m t
  have hx := h { m with trace := m.trace.indent } t
  unfold Eval.indented
  dsimp only at hx ⊢
  generalize x _ = r, y _ = r' at hx
  cases hx with
  | ok n t' hok => exact .ok { n with trace := n.trace.dedent } t' hok
  | failed n t' herror => exact .failed { n with trace := n.trace.dedent } t' herror
  | halted reason n t' => exact .halted reason { n with trace := n.trace.dedent } t'
  | unreadable n hreason => exact .unreadable _ hreason

section Expressions
variable {call : Caller} {call' : CallerIn Abrupt}

mutual

theorem evalExpr
    (hc : ∀ id vs position, Follows Value.Settles (call id vs position) (call' id vs position))
    (env : Env) : ∀ e, Follows Value.Settles (evalExpr call env e) (Abrupt.evalExpr call' env e)
  | .literal l => pure (.value (by cases l <;> nofun))
  | .name _ _ => value (Primitive.resolve _ _ _).alike
  | .array elements =>
      onValues (evalAll hc env elements) .failure fun values => newArray _
  | .call callee arguments position => by
      refine onValue (value (Primitive.resolve _ _ _).alike) .failure fun function _ => ?_
      refine onValues (evalAll hc env arguments) .failure fun values => ?_
      cases function with
      | builtin b =>
          exact traced (value (b.nameless_call values).alike) fun v => Traces.call callee values v
      | function id => exact traced (hc id values position) fun v => Traces.call callee values v
      | _ => exact failed (.failure _)
  | .index target index position =>
      onValue (evalExpr hc env target) .failure fun target _ =>
        onValue (evalExpr hc env index) .failure fun index _ =>
          value (Primitive.index target index position).alike
  | .unary op operand position =>
      onValue (evalExpr hc env operand) .failure fun operand _ =>
        traced (value (.pure (op.apply operand position))) fun v => Traces.unary op operand v
  | .binary op left right position =>
      onValue (evalExpr hc env left) .failure fun left _ =>
        onValue (evalExpr hc env right) .failure fun right _ =>
          traced (value (Eval.Nameless.apply op left right position).alike) fun v =>
            Traces.binary op left right v

theorem evalAll
    (hc : ∀ id vs position, Follows Value.Settles (call id vs position) (call' id vs position))
    (env : Env) : ∀ es, Follows Eq (evalAll call env es) (Abrupt.evalAll call' env es)
  | [] => pure rfl
  | e :: rest =>
      onValue (evalExpr hc env e) (fun _ => rfl) fun _ _ =>
        onValues (evalAll hc env rest) (fun _ => rfl) fun _ => pure rfl

end

end Expressions

theorem repeatWhile {condition : Eval Value} {condition' : Abrupt Value} {body : Eval Completion}
    {body' : Abrupt (Option Value)} (hx : Follows Value.Settles condition condition')
    (hb : Follows Completion.Settles body body') (n : Nat) :
    Follows Completion.Settles (repeatWhile condition body n)
      (Abrupt.repeatWhile condition' body' n) := by
  induction n with
  | zero => exact halted _
  | succ n ih =>
      refine onValue hx .aborted fun value _ => ?_
      split
      · exact onNormal hb ih
      · exact pure .normal

theorem inBlock (env : Env) {f : Env → Eval Completion} {g : Env → Abrupt (Option Value)}
    (hf : ∀ env, Follows Completion.Settles (f env) (g env)) :
    Follows Completion.Settles (inBlock env f) (Abrupt.inBlock env g) :=
  step (Primitive.newScope _ _ _).alike hf

section Statements
variable {call : Caller} {call' : CallerIn Abrupt} {rounds : Nat}

mutual

theorem execStmt
    (hc : ∀ id vs position, Follows Value.Settles (call id vs position) (call' id vs position))
    (env : Env) : ∀ s,
    Follows Completion.Settles (execStmt call rounds env s) (Abrupt.execStmt call' rounds env s)
  | .block body => inBlock env fun env => execBody hc env body
  | .declare name value =>
      onValue (evalExpr hc env value) .aborted fun value _ =>
        step (Primitive.define env name value).alike fun _ => pure .normal
  | .assign name value position => by
      refine onValue (evalExpr hc env value) .aborted fun value _ => ?_
      refine step (Primitive.assign env name value).alike fun bound => ?_
      split
      · exact pure .normal
      · exact failed (.aborted _)
  | .eval value => onValue (evalExpr hc env value) .aborted fun _ _ => pure .normal
  | .branch condition body otherwise => by
      refine onValue (evalExpr hc env condition) .aborted fun value _ => ?_
      split
      · exact execStmt hc env body
      · exact execOtherwise hc env otherwise
  | .loop condition body =>
      repeatWhile (evalExpr hc env condition) (execStmt hc env body) rounds
  | .return_ none => pure (.returned (.value nofun))
  | .return_ (some value) =>
      onValue (evalExpr hc env value) .aborted fun value h => pure (.returned h)

theorem execOtherwise
    (hc : ∀ id vs position, Follows Value.Settles (call id vs position) (call' id vs position))
    (env : Env) : ∀ e,
    Follows Completion.Settles (execOtherwise call rounds env e)
      (Abrupt.execOtherwise call' rounds env e)
  | .nothing => pure .normal
  | .stmt s => execStmt hc env s

theorem execDecl
    (hc : ∀ id vs position, Follows Value.Settles (call id vs position) (call' id vs position))
    (env : Env) : ∀ d,
    Follows Completion.Settles (execDecl call rounds env d) (Abrupt.execDecl call' rounds env d)
  | .function name _ _ =>
      step (Primitive.newFunction _ _ _ _).alike fun value =>
        step (Primitive.define env name value).alike fun _ => pure .normal
  | .stmt s => execStmt hc env s

theorem execBody
    (hc : ∀ id vs position, Follows Value.Settles (call id vs position) (call' id vs position))
    (env : Env) : ∀ body,
    Follows Completion.Settles (execBody call rounds env body)
      (Abrupt.execBody call' rounds env body)
  | [] => pure .normal
  | d :: rest => onNormal (execDecl hc env d) (execBody hc env rest)

end

end Statements

theorem callFunction (rounds depth : Nat) (id : FunctionId) (arguments : List Value)
    (position : Position) :
    Follows Value.Settles (callFunction rounds depth id arguments position)
      (Abrupt.callFunction rounds depth id arguments position) := by
  induction depth generalizing id arguments position with
  | zero => exact halted _
  | succ depth ih =>
      refine step (Primitive.closure id).alike fun f => ?_
      cases f with
      | none => exact pure (.value nofun)
      | some f =>
          dsimp only
          split
          · refine step (Primitive.newScope _ _ _).alike fun env => ?_
            have body : Follows Completion.Settles
                (Script.execBody (Script.callFunction rounds depth) rounds env f.body)
                (Abrupt.execBody (Abrupt.callFunction rounds depth) rounds env f.body) :=
              execBody ih env f.body
            refine bind (indented body) (fun c r hc => ?_) fun c failure hc => ?_
            · cases hc with
              | normal => exact pure (.value nofun)
              | returned hv => exact pure hv
            · cases hc
              exact failed (.failure failure)
          · exact failed (.failure _)

/-- The failure that aborts a run, if there is one, is what stops the abrupt run. -/
theorem run (budget : Budget) (program : Program) :
    Follows (fun failure r => r = failure.elim (.ok ()) .error) (program.run budget)
      (Abrupt.run budget program) := by
  refine bind (execBody (callFunction _ _) _ program) (fun c r hc => ?_) fun c failure hc => ?_
  · cases hc with
    | normal => exact pure rfl
    | returned _ => exact halted _
  · cases hc
    exact traced (x := Pure.pure (some failure)) (failed rfl) fun _ => Traces.line _

end Follows

/-- The end of an abrupt run with a failure or with none. -/
def Abrupt.ended (failure : Option Failure) (m : Machine) : EStateM.Result Stop Machine Unit :=
  match failure with
  | none => .ok () m
  | some failure => .error (.failure failure) m

theorem Program.run_abrupt (budget : Budget) (program : Program) (m : Machine) :
    match program.run budget m with
    | .ok failure m' =>
        ∃ t, Abrupt.run budget program m = Abrupt.ended failure { m' with trace := t }
    | .error reason m' =>
        reason.IsUnreadable ∨
          ∃ t, Abrupt.run budget program m = .error (.halt reason) { m' with trace := t } := by
  have h := Follows.run budget program m m.trace
  change Mirrors _ (program.run budget m) (Abrupt.run budget program m) at h
  generalize program.run budget m = r, Abrupt.run budget program m = r' at h
  cases h with
  | @ok failure _ n t hfailure =>
      cases failure <;> cases hfailure
      exact ⟨t, rfl⟩
  | @failed failure _ n t hfailure =>
      cases failure <;> cases hfailure
      exact ⟨t, rfl⟩
  | halted reason n t => exact .inr ⟨t, rfl⟩
  | unreadable n hreason => exact .inl hreason

/-- A failure in a loop of a called function: what stands behind the call is not done. -/
example : ∃ m,
    Abrupt.run .standard
      [.function (text "f") [text "x"] [.stmt (.loop (.literal (.boolean true)) (.block
          [.stmt (.eval (.call (text "print") [.name (text "x") ⟨2, 9⟩] ⟨2, 3⟩)),
            .stmt (.return_ (some
              (.array [.unary .negate (.name (text "f") ⟨3, 12⟩) ⟨3, 11⟩])))]))],
        .stmt (.eval (.call (text "f") [.literal (.integer 1)] ⟨5, 1⟩)),
        .stmt (.eval (.call (text "print") [.literal (.integer 2)] ⟨6, 1⟩))]
      (.initial ⟨[], none⟩ (.empty true 3)) =
        .error (.failure ⟨.notNegatable .function, ⟨3, 11⟩⟩) m ∧ m.output.toList = text "1" :=
  ⟨_, rfl, rfl⟩

end Script
