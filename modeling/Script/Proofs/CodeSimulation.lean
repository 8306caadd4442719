import Script.Proofs.Simulation
import Script.Session

/-!
# Code side by side

A mode of a simulation says how code may differ by its names alone, and in which pairs of
environments it then runs alike. Bodies of one mode agree by an induction over statements. Other
differences between bodies are left to the relation of closures: calls agree if functions are made
of related closures and if entering related closures agrees.
-/

namespace Script

/-- What is done by an assignment once its value is known. -/
def assignValue (env : Env) (value : Value) (position : Position) (name : Name) :
    Eval Completion := do
  if ← Eval.assign env name value then return .normal
  else return .aborted ⟨.unboundName name, position⟩

theorem Eval.newScope_of_size {m : Machine} {size : Nat} (h : m.scopes.size = size) (name : Name)
    (b : Bindings) (env : Env) : Eval.newScope name b env m =
      .ok (size :: env) { m with scopes := (m.scopes.make name b).2 } := by
  rw [← h]
  rfl

namespace Simulation
variable {W : Type} {S : Simulation W}

namespace Agree
variable {w : W}

theorem branch {x x' : Eval Value} {y y' z z' : Eval Completion} (hx : S.Agree w x x')
    (hy : S.Agree w y y') (hz : S.Agree w z z') :
    S.Agree w (Script.onValue x .aborted fun value => if value.isTruthy then y else z)
      (Script.onValue x' .aborted fun value => if value.isTruthy then y' else z') := by
  refine hx.onValue fun value => ?_
  split
  · exact hy
  · exact hz

end Agree

variable (S) in
/-- A kind of code that runs alike where its names are replaced. `occurs` are the names that it may
contain, `signs` those that its functions and their parameters may have, and `opens` relates the
environments in which it runs. -/
structure Mode where
  rename : Name → Name
  occurs : Name → Prop
  signs : Name → Prop
  opens : W → Env → Env → Prop
  opens_later {w w' : W} {env env' : Env} : S.later w w' → opens w env env' → opens w' env env'
  resolve {w : W} {env env' : Env} : opens w env env' → ∀ position,
    S.NameAgrees w rename occurs (Script.resolve env · position) (Script.resolve env' · position)
  traced (w : W) (arguments : List Value) (value : Value) :
    S.NameAgrees w rename occurs (traceCall · arguments value) (traceCall · arguments value)
  define {w : W} {env env' : Env} : opens w env env' → ∀ value,
    S.NameAgrees w rename occurs (Eval.define env · value) (Eval.define env' · value)
  assign {w : W} {env env' : Env} : opens w env env' → ∀ value position,
    S.NameAgrees w rename occurs (assignValue env value position) (assignValue env' value position)
  newFunction {w : W} {env env' : Env} {name : Name} {parameters : List Name} {body : List Decl} :
    opens w env env' → (∀ n ∈ (Decl.function name parameters body).names, occurs n) →
    (∀ n ∈ (Decl.function name parameters body).signatures, signs n) →
    S.Agree w (Eval.newFunction name parameters body env)
      (Eval.newFunction (rename name) (parameters.map rename) (renameBody rename body) env')
  enter {w : W} {env env' : Env} {f g : Env → Eval Completion} {bindings : Bindings} (name : Name) :
    opens w env env' → (∀ binding ∈ bindings, occurs binding.1 ∧ signs binding.1) →
    (∀ w' e e', S.later w w' → opens w' e e' → S.Agree w' (f e) (g e')) →
    S.Agree w (Eval.newScope name bindings env >>= f) (Eval.newScope name bindings env' >>= g)

namespace Mode
variable (μ : S.Mode) {call call' : Caller} {rounds : Nat} {w : W} {env env' : Env}

theorem inBlock (opens : μ.opens w env env') {f g : Env → Eval Completion}
    (h : ∀ w' e e', S.later w w' → μ.opens w' e e' → S.Agree w' (f e) (g e')) :
    S.Agree w (Script.inBlock env f) (Script.inBlock env' g) :=
  μ.enter _ opens (fun _ mem => absurd mem List.not_mem_nil) h

theorem evalExpr (calls : S.CallsAgree call call') (opens : μ.opens w env env') {e : Expr}
    (names : ∀ n ∈ e.names, μ.occurs n) :
    S.Agree w (Script.evalExpr call env e) (Script.evalExpr call' env' (e.rename μ.rename)) :=
  Simulation.evalExpr calls (μ.resolve opens) (μ.traced w) names

mutual

theorem execStmt (calls : S.CallsAgree call call') {w : W} {env env' : Env}
    (opens : μ.opens w env env') :
    ∀ {s : Stmt}, (∀ n ∈ s.names, μ.occurs n) → (∀ n ∈ s.signatures, μ.signs n) →
      S.Agree w (Script.execStmt call rounds env s)
        (Script.execStmt call' rounds env' (s.rename μ.rename))
  | .block _, names, signed => μ.inBlock opens fun _ _ _ _ opens =>
      execBody calls opens names signed
  | .declare name value, names, _ => by
      obtain ⟨first, names⟩ := List.forall_mem_cons.mp names
      refine (μ.evalExpr calls opens names).onValue fun v => ?_
      exact (μ.define opens v name first).bind fun _ => .pure _
  | .assign name value position, names, _ => by
      obtain ⟨first, names⟩ := List.forall_mem_cons.mp names
      refine (μ.evalExpr calls opens names).onValue fun v => ?_
      exact μ.assign opens v position name first
  | .eval value, names, _ => (μ.evalExpr (e := value) calls opens names).onValue fun _ => .pure _
  | .branch _ _ _, names, signed => by
      obtain ⟨names, names₃⟩ := List.forall_mem_append.mp names
      obtain ⟨names₁, names₂⟩ := List.forall_mem_append.mp names
      obtain ⟨signed₁, signed₂⟩ := List.forall_mem_append.mp signed
      exact .branch (μ.evalExpr calls opens names₁) (execStmt calls opens names₂ signed₁)
        (execOtherwise calls opens names₃ signed₂)
  | .loop _ _, names, signed => by
      obtain ⟨names₁, names₂⟩ := List.forall_mem_append.mp names
      exact .repeatWhile (μ.evalExpr calls opens names₁) (execStmt calls opens names₂ signed) rounds
  | .return_ none, _, _ => .pure _
  | .return_ (some value), names, _ =>
      (μ.evalExpr (e := value) calls opens names).onValue fun _ => .pure _

theorem execOtherwise (calls : S.CallsAgree call call') {w : W} {env env' : Env}
    (opens : μ.opens w env env') :
    ∀ {o : Otherwise}, (∀ n ∈ o.names, μ.occurs n) → (∀ n ∈ o.signatures, μ.signs n) →
      S.Agree w (Script.execOtherwise call rounds env o)
        (Script.execOtherwise call' rounds env' (o.rename μ.rename))
  | .nothing, _, _ => .pure _
  | .stmt s, names, signed => execStmt (s := s) calls opens names signed

theorem execDecl (calls : S.CallsAgree call call') {w : W} {env env' : Env}
    (opens : μ.opens w env env') :
    ∀ {d : Decl}, (∀ n ∈ d.names, μ.occurs n) → (∀ n ∈ d.signatures, μ.signs n) →
      S.Agree w (Script.execDecl call rounds env d)
        (Script.execDecl call' rounds env' (d.rename μ.rename))
  | .function name parameters body, names, signed => by
      refine (μ.newFunction opens names signed).bind fun value => ?_
      exact (μ.define opens value name (names name List.mem_cons_self)).bind fun _ => .pure _
  | .stmt s, names, signed => execStmt (s := s) calls opens names signed

theorem execBody (calls : S.CallsAgree call call') {w : W} {env env' : Env}
    (opens : μ.opens w env env') :
    ∀ {body : List Decl}, (∀ n ∈ bodyNames body, μ.occurs n) →
      (∀ n ∈ bodySignatures body, μ.signs n) →
      S.Agree w (Script.execBody call rounds env body)
        (Script.execBody call' rounds env' (renameBody μ.rename body))
  | [], _, _ => .pure _
  | _ :: _, names, signed => by
      obtain ⟨names₁, names₂⟩ := List.forall_mem_append.mp names
      obtain ⟨signed₁, signed₂⟩ := List.forall_mem_append.mp signed
      exact (execDecl calls opens names₁ signed₁).onNormal (execBody calls opens names₂ signed₂)

end

end Mode

end Simulation

/-! ### Calls and runs -/

/-- What is done in a call before its value is made: the body is executed in a new scope with the
arguments. -/
def Closure.enter (call : Caller) (rounds : Nat) (arguments : List Value) (f : Closure) :
    Eval Completion :=
  Eval.newScope f.name (Bindings.ofList (f.parameters.zip arguments)) f.env >>= fun env =>
    execBody call rounds env f.body

theorem Closure.indented_enter (call : Caller) (rounds : Nat) (arguments : List Value)
    (f : Closure) : Eval.indented (f.enter call rounds arguments) =
      Eval.newScope f.name (Bindings.ofList (f.parameters.zip arguments)) f.env >>= fun env =>
        Eval.indented (execBody call rounds env f.body) :=
  rfl

theorem callFunction_succ (rounds depth : Nat) (id : FunctionId) (arguments : List Value)
    (position : Position) : callFunction rounds (depth + 1) id arguments position = do
      match ← Eval.closure? id with
      | none => return .nil
      | some f =>
        if arguments.length = f.parameters.length then
          match ← Eval.indented (f.enter (callFunction rounds depth) rounds arguments) with
          | .normal => return .nil
          | .returned value => return value
          | .aborted failure => return .error failure
        else
          return .error ⟨.functionArity f.name f.parameters.length arguments.length, position⟩ := by
  refine congrArg (Eval.closure? id >>= ·) (funext fun f? => ?_)
  cases f? with
  | none => rfl
  | some f =>
      dsimp only
      rewrite [Closure.indented_enter, bind_assoc]
      rfl

namespace Simulation
variable {W : Type} {S : Simulation W}

/-- Calls agree if functions have related closures, and if entering related closures agrees. -/
theorem callsAgree (related : W → Closure → Closure → Prop) (rounds : Nat)
    (closure : ∀ w id, S.Tracks w (Eval.closure? id) (Eval.closure? id) fun w' =>
      Option.Rel (related w'))
    (heads : ∀ {w f g}, related w f g → g.name = f.name ∧ g.parameters = f.parameters)
    (enter : ∀ {call call'}, S.CallsAgree call call' → ∀ {w f g}, related w f g → ∀ arguments,
      S.Agree w (f.enter call rounds arguments) (g.enter call' rounds arguments)) (depth : Nat) :
    S.CallsAgree (callFunction rounds depth) (callFunction rounds depth) := by
  induction depth with
  | zero => exact fun _ _ _ _ => .of_nameless (.halt _)
  | succ depth ih =>
      intro _ id arguments position w _
      rw [callFunction_succ]
      refine (closure w id).bind fun w' f? g? _ same => ?_
      cases same with
      | none => exact (Agree.pure _).now
      | @some f g same =>
          obtain ⟨name, parameters⟩ := heads same
          dsimp only
          rw [name, parameters]
          split
          · refine (enter ih same arguments).now.indented.bind fun w'' completion _ _ eq => ?_
            rw [eq]
            cases completion <;> exact (Agree.pure _).now
          · exact (Agree.pure _).now

theorem run {budget : Budget} {program program' : Program} {w : W}
    (h : S.Agree w (execBody budget.caller budget.rounds Machine.globalEnv program)
      (execBody budget.caller budget.rounds Machine.globalEnv program')) :
    S.Agree w (program.run budget) (program'.run budget) := by
  refine h.bind fun completion => ?_
  cases completion with
  | normal => exact .pure _
  | returned value => exact .of_nameless (.halt _)
  | aborted failure => exact .of_nameless (.bind (.traceLine _) fun _ => .pure _)

end Simulation

/-! ### What is visible of a run -/

/-- Machines that cannot be told apart from outside: all but their scopes and functions is the same,
and so are the readable forms of their functions and the global bindings. -/
structure Machine.LooksLike (m m' : Machine) : Prop extends m.Twin m' where
  globals : m'.scopes.bindings globalScope = m.scopes.bindings globalScope
  described : m'.describeEnv globalEnv = m.describeEnv globalEnv

/-- Runs that cannot be told apart from outside. -/
inductive SameOutcome :
    EStateM.Result Halt Machine (Option Failure) → EStateM.Result Halt Machine (Option Failure) →
    Prop
  | ended (failure? : Option Failure) {m m' : Machine} : m.LooksLike m' →
      SameOutcome (.ok failure? m) (.ok failure? m')
  | halted (reason : Halt) {m m' : Machine} : m.LooksLike m' →
      SameOutcome (.error reason m) (.error reason m')

end Script
