import Script.Session

/-!
# Observed evaluation

The evaluator of programs once more, over an arbitrary monad and with an observer that stands at
every point where something ends: an expression, a statement, a call, an operator, the body of a
function, a program that a failure aborts. The observer also carries out the primitive steps. With
the observer `plain`, which only traces, it is the evaluator that runs programs.

Two observers can be compared step by step. `Related` lists what has to be checked of a relation
between their computations, and from that the relation holds of all evaluations of one program, by
one induction over expressions, statements, loops and calls.
-/

namespace Script

theorem bind_of_ok {ε σ α β : Type} {x : EStateM ε σ α} {f : α → EStateM ε σ β} {s t : σ} {a : α}
    (h : x s = .ok a t) : (x >>= f) s = f a t := by
  change EStateM.bind x f s = _
  rw [EStateM.bind, h]

theorem bind_of_error {ε σ α β : Type} {x : EStateM ε σ α} {f : α → EStateM ε σ β} {s t : σ}
    {reason : ε} (h : x s = .error reason t) : (x >>= f) s = .error reason t := by
  change EStateM.bind x f s = _
  rw [EStateM.bind, h]

def Eval.final {α : Type} : EStateM.Result Halt Machine α → Machine
  | .ok _ m => m
  | .error _ m => m

@[simp] theorem Value.kind_eq_error_iff {v : Value} :
    v.kind = .error ↔ ∃ failure, v = .error failure := by
  cases v <;> simp [kind]

section
variable {α : Type} {x : Eval Value} {fail : Failure → α} {next : Value → Eval α} {m m' : Machine}

theorem onValue_of_ok {v : Value} (h : x m = .ok v m') (settled : v.kind ≠ .error) :
    onValue x fail next m = next v m' := by
  refine (bind_of_ok h).trans ?_
  cases v with
  | error failure => exact absurd rfl settled
  | _ => rfl

theorem onValue_of_failure {failure : Failure} (h : x m = .ok (.error failure) m') :
    onValue x fail next m = .ok (fail failure) m' :=
  bind_of_ok h

theorem onValue_of_error {reason : Halt} (h : x m = .error reason m') :
    onValue x fail next m = .error reason m' :=
  bind_of_error h

end

/-- The steps of which evaluation consists, but for the points at which an observer stands. -/
inductive Primitive : {α : Type} → Eval α → Prop
  | resolve (env : Env) (name : Name) (position : Position) :
      Primitive (resolve env name position)
  | newArray (elements : Array Value) : Primitive (Eval.newArray elements)
  | index (target index : Value) (position : Position) :
      Primitive (indexValue target index position)
  | builtin (b : Builtin) (arguments : List Value) : Primitive (b.call arguments)
  | newScope (name : Name) (bindings : Bindings) (env : Env) :
      Primitive (Eval.newScope name bindings env)
  | define (env : Env) (name : Name) (value : Value) : Primitive (Eval.define env name value)
  | assign (env : Env) (name : Name) (value : Value) : Primitive (Eval.assign env name value)
  | newFunction (name : Name) (parameters : List Name) (body : List Decl) (env : Env) :
      Primitive (Eval.newFunction name parameters body env)
  | closure (id : FunctionId) : Primitive (Eval.closure? id)
  | halt {α : Type} (reason : Halt) : Primitive (throw reason : Eval α)

/-- What is done at the points of an evaluation. Each of the first three gets the computation that
it stands around. -/
structure Observer (M : Type → Type) where
  onExpr : Env → Expr → M Value → M Value
  onDecl : Env → Decl → M Completion → M Completion
  onCall : Name → Value → List Value → M Value → M Value
  onUnary : UnaryOp → Value → Position → M Value
  onBinary : BinaryOp → Value → Value → Position → M Value
  inBody : M Completion → M Completion
  onAbort : Failure → M Unit
  step : {α : Type} → Eval α → M α

abbrev CallerIn (M : Type → Type) := FunctionId → List Value → Position → M Value

namespace Observer

section Evaluation
variable {M : Type → Type} [Monad M] (o : Observer M)

mutual

def evalExpr (call : CallerIn M) (env : Env) : Expr → M Value
  | .literal l => o.onExpr env (.literal l) <| pure l.value
  | .name name position => o.onExpr env (.name name position) <| o.step (resolve env name position)
  | .array elements =>
    o.onExpr env (.array elements) <|
    onValues (evalAll call env elements) .error fun values => o.step (Eval.newArray values.toArray)
  | .call callee arguments position =>
    o.onExpr env (.call callee arguments position) <|
    onValue (o.step (resolve env callee position)) .error fun function =>
    onValues (evalAll call env arguments) .error fun values =>
    match function with
    | .builtin b => o.onCall callee (.builtin b) values <| o.step (b.call values)
    | .function id => o.onCall callee (.function id) values <| call id values position
    | other => pure (.error ⟨.notAFunction other.kind, position⟩)
  | .index target index position =>
    o.onExpr env (.index target index position) <|
    onValue (evalExpr call env target) .error fun target =>
    onValue (evalExpr call env index) .error fun index => o.step (indexValue target index position)
  | .unary op operand position =>
    o.onExpr env (.unary op operand position) <|
    onValue (evalExpr call env operand) .error fun operand => o.onUnary op operand position
  | .binary op left right position =>
    o.onExpr env (.binary op left right position) <|
    onValue (evalExpr call env left) .error fun left =>
    onValue (evalExpr call env right) .error fun right => o.onBinary op left right position
termination_by structural e => e

def evalAll (call : CallerIn M) (env : Env) : List Expr → M (Except Failure (List Value))
  | [] => pure (.ok [])
  | e :: rest =>
    onValue (evalExpr call env e) .error fun value =>
    onValues (evalAll call env rest) .error fun values => pure (.ok (value :: values))
termination_by structural es => es

end

def repeatWhile (condition : M Value) (body : M Completion) : Nat → M Completion
  | 0 => o.step (throw .exhausted)
  | rounds + 1 =>
    onValue condition .aborted fun value =>
      if value.isTruthy then do
        match ← body with
        | .normal => repeatWhile condition body rounds
        | completion => return completion
      else return .normal

def inBlock (env : Env) (run : Env → M Completion) : M Completion := do
  run (← o.step (Eval.newScope (text "block") [] env))

mutual

def execStmt (call : CallerIn M) (rounds : Nat) (env : Env) : Stmt → M Completion
  | .block body =>
    o.onDecl env (.stmt (.block body)) <| o.inBlock env fun env => execBody call rounds env body
  | .declare name value =>
    o.onDecl env (.stmt (.declare name value)) <|
    onValue (o.evalExpr call env value) .aborted fun value => do
      o.step (Eval.define env name value)
      return .normal
  | .assign name value position =>
    o.onDecl env (.stmt (.assign name value position)) <|
    onValue (o.evalExpr call env value) .aborted fun value => do
      if ← o.step (Eval.assign env name value) then return .normal
      else return .aborted ⟨.unboundName name, position⟩
  | .eval value =>
    o.onDecl env (.stmt (.eval value)) <|
    onValue (o.evalExpr call env value) .aborted fun _ => return .normal
  | .branch condition body otherwise =>
    o.onDecl env (.stmt (.branch condition body otherwise)) <|
    onValue (o.evalExpr call env condition) .aborted fun value =>
      if value.isTruthy then execStmt call rounds env body
      else execOtherwise call rounds env otherwise
  | .loop condition body =>
    o.onDecl env (.stmt (.loop condition body)) <|
    o.repeatWhile (o.evalExpr call env condition) (execStmt call rounds env body) rounds
  | .return_ none => o.onDecl env (.stmt (.return_ none)) <| return .returned .nil
  | .return_ (some value) =>
    o.onDecl env (.stmt (.return_ (some value))) <|
    onValue (o.evalExpr call env value) .aborted fun value => return .returned value
termination_by structural s => s

def execOtherwise (call : CallerIn M) (rounds : Nat) (env : Env) : Otherwise → M Completion
  | .nothing => return .normal
  | .stmt s => execStmt call rounds env s
termination_by structural e => e

def execDecl (call : CallerIn M) (rounds : Nat) (env : Env) : Decl → M Completion
  | .function name parameters body =>
    o.onDecl env (.function name parameters body) do
      o.step (Eval.define env name (← o.step (Eval.newFunction name parameters body env)))
      return .normal
  | .stmt s => execStmt call rounds env s
termination_by structural d => d

def execBody (call : CallerIn M) (rounds : Nat) (env : Env) : List Decl → M Completion
  | [] => return .normal
  | d :: rest => do
    match ← execDecl call rounds env d with
    | .normal => execBody call rounds env rest
    | completion => return completion
termination_by structural body => body

end

def callFunction (rounds : Nat) : Nat → CallerIn M
  | 0 => fun _ _ _ => o.step (throw .recursion)
  | depth + 1 => fun id arguments position => do
    match ← o.step (Eval.closure? id) with
    | none => return .nil
    | some f =>
      if arguments.length = f.parameters.length then
        let bindings := Bindings.ofList (f.parameters.zip arguments)
        let env ← o.step (Eval.newScope f.name bindings f.env)
        match ← o.inBody (execBody o (callFunction rounds depth) rounds env f.body) with
        | .normal => return .nil
        | .returned value => return value
        | .aborted failure => return .error failure
      else return .error ⟨.functionArity f.name f.parameters.length arguments.length, position⟩

def run (budget : Budget) (program : Program) : M (Option Failure) := do
  match ← o.execBody (o.callFunction budget.rounds budget.depth) budget.rounds
      Machine.globalEnv program with
  | .normal => return none
  | .returned _ => o.step (throw .strayReturn)
  | .aborted failure =>
    o.onAbort failure
    return some failure

end Evaluation

/-- The observer that traces, as programs are run. -/
def plain : Observer Eval where
  onExpr _ _ x := x
  onDecl _ _ x := x
  onCall callee _ arguments x := tracedCall callee arguments x
  onUnary := tracedUnary
  onBinary := tracedBinary
  inBody := Eval.indented
  onAbort := traceAbort
  step x := x

section Plain
variable {call : Caller} {rounds : Nat}

mutual

theorem evalExpr_plain (env : Env) : ∀ e, plain.evalExpr call env e = Script.evalExpr call env e
  | .literal _ => rfl
  | .name _ _ => rfl
  | .array elements => by
      simp only [evalExpr, evalAll_plain env elements]
      rfl
  | .call callee arguments position => by
      simp only [evalExpr, evalAll_plain env arguments]
      rfl
  | .index target index position => by
      simp only [evalExpr, evalExpr_plain env target, evalExpr_plain env index]
      rfl
  | .unary op operand position => by
      simp only [evalExpr, evalExpr_plain env operand]
      rfl
  | .binary op left right position => by
      simp only [evalExpr, evalExpr_plain env left, evalExpr_plain env right]
      rfl

theorem evalAll_plain (env : Env) : ∀ es, plain.evalAll call env es = Script.evalAll call env es
  | [] => rfl
  | e :: rest => by
      simp only [evalAll, evalExpr_plain env e, evalAll_plain env rest]
      rfl

end

theorem repeatWhile_plain (condition : Eval Value) (body : Eval Completion) (n : Nat) :
    plain.repeatWhile condition body n = Script.repeatWhile condition body n := by
  induction n with
  | zero => rfl
  | succ n ih =>
      simp only [repeatWhile, ih]
      rfl

mutual

theorem execStmt_plain (env : Env) :
    ∀ s, plain.execStmt call rounds env s = Script.execStmt call rounds env s
  | .block body => by
      simp only [execStmt, inBlock, execBody_plain _ body]
      rfl
  | .declare _ value => by
      simp only [execStmt, evalExpr_plain]
      rfl
  | .assign _ value _ => by
      simp only [execStmt, evalExpr_plain]
      rfl
  | .eval value => by
      simp only [execStmt, evalExpr_plain]
      rfl
  | .branch condition body otherwise => by
      simp only [execStmt, evalExpr_plain, execStmt_plain env body,
        execOtherwise_plain env otherwise]
      rfl
  | .loop condition body => by
      simp only [execStmt, evalExpr_plain, execStmt_plain env body, repeatWhile_plain]
      rfl
  | .return_ none => rfl
  | .return_ (some value) => by
      simp only [execStmt, evalExpr_plain]
      rfl

theorem execOtherwise_plain (env : Env) :
    ∀ e, plain.execOtherwise call rounds env e = Script.execOtherwise call rounds env e
  | .nothing => rfl
  | .stmt s => execStmt_plain env s

theorem execDecl_plain (env : Env) :
    ∀ d, plain.execDecl call rounds env d = Script.execDecl call rounds env d
  | .function _ _ _ => rfl
  | .stmt s => execStmt_plain env s

theorem execBody_plain (env : Env) :
    ∀ body, plain.execBody call rounds env body = Script.execBody call rounds env body
  | [] => rfl
  | d :: rest => by
      simp only [execBody, execDecl_plain env d, execBody_plain env rest]
      rfl

end

theorem callFunction_plain (depth : Nat) :
    plain.callFunction rounds depth = Script.callFunction rounds depth := by
  induction depth with
  | zero => rfl
  | succ depth ih =>
      simp only [callFunction, ih, execBody_plain]
      rfl

/-- Programs are run under the observer `plain`. -/
theorem run_plain (budget : Budget) (program : Program) :
    plain.run budget program = program.run budget := by
  simp only [run, Program.run, Budget.caller, callFunction_plain, execBody_plain]
  rfl

end Plain

section Related
variable {M N : Type → Type} [Monad M] [Monad N]

/-- What has to be checked of a relation between computations so that it holds between all
evaluations under two observers. -/
structure Related (R : {α : Type} → M α → N α → Prop) (o : Observer M) (p : Observer N) : Prop where
  pure {α : Type} (a : α) : R (pure a) (pure a)
  bind {α β : Type} {x : M α} {y : N α} {f : α → M β} {g : α → N β} :
    R x y → (∀ a, R (f a) (g a)) → R (x >>= f) (y >>= g)
  step {α : Type} {x : Eval α} : Primitive x → R (o.step x) (p.step x)
  onExpr (env : Env) (e : Expr) {x : M Value} {y : N Value} :
    R x y → R (o.onExpr env e x) (p.onExpr env e y)
  onDecl (env : Env) (d : Decl) {x : M Completion} {y : N Completion} :
    R x y → R (o.onDecl env d x) (p.onDecl env d y)
  onCall (callee : Name) (function : Value) (arguments : List Value) {x : M Value} {y : N Value} :
    R x y → R (o.onCall callee function arguments x) (p.onCall callee function arguments y)
  onUnary (op : UnaryOp) (operand : Value) (position : Position) :
    R (o.onUnary op operand position) (p.onUnary op operand position)
  onBinary (op : BinaryOp) (left right : Value) (position : Position) :
    R (o.onBinary op left right position) (p.onBinary op left right position)
  inBody {x : M Completion} {y : N Completion} : R x y → R (o.inBody x) (p.inBody y)
  onAbort (failure : Failure) : R (o.onAbort failure) (p.onAbort failure)

namespace Related
variable {R : {α : Type} → M α → N α → Prop} {o : Observer M} {p : Observer N}
variable (h : Related R o p)
include h

theorem onValue {α : Type} {x : M Value} {y : N Value} {f : Value → M α} {g : Value → N α}
    (fail : Failure → α) (hx : R x y) (hf : ∀ v, R (f v) (g v)) :
    R (onValue x fail f) (onValue y fail g) := by
  refine h.bind hx fun v => ?_
  cases v with
  | error failure => exact h.pure _
  | _ => exact hf _

theorem onValues {α : Type} {x : M (Except Failure (List Value))}
    {y : N (Except Failure (List Value))} {f : List Value → M α} {g : List Value → N α}
    (fail : Failure → α) (hx : R x y) (hf : ∀ vs, R (f vs) (g vs)) :
    R (onValues x fail f) (onValues y fail g) := by
  refine h.bind hx fun r => ?_
  cases r with
  | error failure => exact h.pure _
  | ok values => exact hf values

theorem onNormal {x x' : M Completion} {y y' : N Completion} (hx : R x y) (hx' : R x' y') :
    R (do match ← x with | .normal => x' | completion => Pure.pure completion)
      (do match ← y with | .normal => y' | completion => Pure.pure completion) := by
  refine h.bind hx fun completion => ?_
  cases completion with
  | normal => exact hx'
  | _ => exact h.pure _

section Expressions
variable {call : CallerIn M} {call' : CallerIn N}

mutual

theorem evalExpr (hc : ∀ id vs position, R (call id vs position) (call' id vs position))
    (env : Env) : ∀ e, R (o.evalExpr call env e) (p.evalExpr call' env e)
  | .literal _ => h.onExpr _ _ (h.pure _)
  | .name _ _ => h.onExpr _ _ (h.step (.resolve _ _ _))
  | .array elements => by
      refine h.onExpr _ _ (h.onValues _ (evalAll hc env elements) fun values => ?_)
      exact h.step (.newArray _)
  | .call callee arguments position => by
      refine h.onExpr _ _ (h.onValue _ (h.step (.resolve _ _ _)) fun function => ?_)
      refine h.onValues _ (evalAll hc env arguments) fun values => ?_
      cases function with
      | builtin b => exact h.onCall _ _ _ (h.step (.builtin _ _))
      | function id => exact h.onCall _ _ _ (hc _ _ _)
      | _ => exact h.pure _
  | .index target index position => by
      refine h.onExpr _ _ (h.onValue _ (evalExpr hc env target) fun target => ?_)
      exact h.onValue _ (evalExpr hc env index) fun index => h.step (.index _ _ _)
  | .unary op operand position => by
      refine h.onExpr _ _ (h.onValue _ (evalExpr hc env operand) fun operand => ?_)
      exact h.onUnary _ _ _
  | .binary op left right position => by
      refine h.onExpr _ _ (h.onValue _ (evalExpr hc env left) fun left => ?_)
      exact h.onValue _ (evalExpr hc env right) fun right => h.onBinary _ _ _ _

theorem evalAll (hc : ∀ id vs position, R (call id vs position) (call' id vs position))
    (env : Env) : ∀ es, R (o.evalAll call env es) (p.evalAll call' env es)
  | [] => h.pure _
  | e :: rest => by
      refine h.onValue _ (evalExpr hc env e) fun value => ?_
      exact h.onValues _ (evalAll hc env rest) fun values => h.pure _

end

end Expressions

theorem repeatWhile {condition : M Value} {condition' : N Value} {body : M Completion}
    {body' : N Completion} (hx : R condition condition') (hb : R body body') (n : Nat) :
    R (o.repeatWhile condition body n) (p.repeatWhile condition' body' n) := by
  induction n with
  | zero => exact h.step (.halt _)
  | succ n ih =>
      refine h.onValue _ hx fun value => ?_
      split
      · exact h.onNormal hb ih
      · exact h.pure _

theorem inBlock (env : Env) {f : Env → M Completion} {g : Env → N Completion}
    (hf : ∀ env, R (f env) (g env)) : R (o.inBlock env f) (p.inBlock env g) :=
  h.bind (h.step (.newScope _ _ _)) hf

section Statements
variable {call : CallerIn M} {call' : CallerIn N} {rounds : Nat}

mutual

theorem execStmt (hc : ∀ id vs position, R (call id vs position) (call' id vs position))
    (env : Env) : ∀ s, R (o.execStmt call rounds env s) (p.execStmt call' rounds env s)
  | .block body => h.onDecl _ _ (h.inBlock _ fun env => execBody hc env body)
  | .declare _ value => by
      refine h.onDecl _ _ (h.onValue _ (h.evalExpr hc env value) fun value => ?_)
      exact h.bind (h.step (.define _ _ _)) fun _ => h.pure _
  | .assign _ value _ => by
      refine h.onDecl _ _ (h.onValue _ (h.evalExpr hc env value) fun value => ?_)
      refine h.bind (h.step (.assign _ _ _)) fun bound => ?_
      split <;> exact h.pure _
  | .eval value => h.onDecl _ _ (h.onValue _ (h.evalExpr hc env value) fun _ => h.pure _)
  | .branch condition body otherwise => by
      refine h.onDecl _ _ (h.onValue _ (h.evalExpr hc env condition) fun value => ?_)
      split
      · exact execStmt hc env body
      · exact execOtherwise hc env otherwise
  | .loop condition body =>
      h.onDecl _ _ (h.repeatWhile (h.evalExpr hc env condition) (execStmt hc env body) _)
  | .return_ none => h.onDecl _ _ (h.pure _)
  | .return_ (some value) =>
      h.onDecl _ _ (h.onValue _ (h.evalExpr hc env value) fun _ => h.pure _)

theorem execOtherwise (hc : ∀ id vs position, R (call id vs position) (call' id vs position))
    (env : Env) : ∀ e, R (o.execOtherwise call rounds env e) (p.execOtherwise call' rounds env e)
  | .nothing => h.pure _
  | .stmt s => execStmt hc env s

theorem execDecl (hc : ∀ id vs position, R (call id vs position) (call' id vs position))
    (env : Env) : ∀ d, R (o.execDecl call rounds env d) (p.execDecl call' rounds env d)
  | .function _ _ _ => by
      refine h.onDecl _ _ (h.bind (h.step (.newFunction _ _ _ _)) fun value => ?_)
      exact h.bind (h.step (.define _ _ _)) fun _ => h.pure _
  | .stmt s => execStmt hc env s

theorem execBody (hc : ∀ id vs position, R (call id vs position) (call' id vs position))
    (env : Env) : ∀ body, R (o.execBody call rounds env body) (p.execBody call' rounds env body)
  | [] => h.pure _
  | d :: rest => h.onNormal (execDecl hc env d) (execBody hc env rest)

end

end Statements

theorem callFunction (rounds depth : Nat) (id : FunctionId) (arguments : List Value)
    (position : Position) :
    R (o.callFunction rounds depth id arguments position)
      (p.callFunction rounds depth id arguments position) := by
  induction depth generalizing id arguments position with
  | zero => exact h.step (.halt _)
  | succ depth ih =>
      refine h.bind (h.step (.closure id)) fun f => ?_
      cases f with
      | none => exact h.pure _
      | some f =>
          dsimp only
          split
          · refine h.bind (h.step (.newScope _ _ _)) fun env => ?_
            refine h.bind (h.inBody (h.execBody ih env f.body)) fun completion => ?_
            cases completion <;> exact h.pure _
          · exact h.pure _

theorem run (budget : Budget) (program : Program) :
    R (o.run budget program) (p.run budget program) := by
  refine h.bind (h.execBody (h.callFunction _ _) _ program) fun completion => ?_
  cases completion with
  | normal => exact h.pure _
  | returned _ => exact h.step (.halt _)
  | aborted failure => exact h.bind (h.onAbort failure) fun _ => h.pure _

end Related

end Related

end Observer

end Script
