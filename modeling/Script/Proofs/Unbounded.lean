import Mathlib.Data.PFun
import Script.Proofs.Logged
import Script.Proofs.ReaderLoops

/-!
# Evaluation without budgets

The evaluator once more, as it would run if nothing bounded it: a loop takes as many rounds as it
needs, and so do the loops inside the readers. A computation is a partial function, and where it is
not defined it runs for ever. Calls of functions are a parameter, since they are the only other way
to go on without end.

The expressions of a program are numbered in the order of the source, where an expression comes
before those in it. Evaluation logs each expression that it begins to evaluate, with its number.

The loops of the readers always end; `while true {}` does not.
-/

namespace Script

/-! ### The expressions of a program -/

mutual

/-- An expression and all expressions in it, in the order of the source. -/
def Expr.parts : Expr → List Expr
  | .literal l => [.literal l]
  | .name name position => [.name name position]
  | .array elements => .array elements :: listedParts elements
  | .call callee arguments position => .call callee arguments position :: listedParts arguments
  | .index target index position => .index target index position :: (target.parts ++ index.parts)
  | .unary op operand position => .unary op operand position :: operand.parts
  | .binary op left right position => .binary op left right position :: (left.parts ++ right.parts)
termination_by structural e => e

def listedParts : List Expr → List Expr
  | [] => []
  | e :: rest => e.parts ++ listedParts rest
termination_by structural es => es

end

mutual

/-- All expressions in a statement, those in the bodies of its functions included. -/
def Stmt.parts : Stmt → List Expr
  | .block body => bodyParts body
  | .declare _ value => value.parts
  | .assign _ value _ => value.parts
  | .eval value => value.parts
  | .branch condition body otherwise => condition.parts ++ (body.parts ++ otherwise.parts)
  | .loop condition body => condition.parts ++ body.parts
  | .return_ none => []
  | .return_ (some value) => value.parts
termination_by structural s => s

def Otherwise.parts : Otherwise → List Expr
  | .nothing => []
  | .stmt s => s.parts
termination_by structural o => o

def Decl.parts : Decl → List Expr
  | .function _ _ body => bodyParts body
  | .stmt s => s.parts
termination_by structural d => d

def bodyParts : List Decl → List Expr
  | [] => []
  | d :: rest => d.parts ++ bodyParts rest
termination_by structural body => body

end

def Program.expressions (program : Program) : List Expr :=
  bodyParts program

abbrev Visit := Expr × Nat

/-! ### Computations that may run for ever -/

/-- A computation on machines that logs visits and need not come to an end. -/
def Unbounded (α : Type) : Type :=
  Logged Visit →. EStateM.Result Halt (Logged Visit) α

namespace Unbounded
variable {α β : Type}

instance : Monad Unbounded where
  pure a := fun s => Part.some (.ok a s)
  bind x f := fun s => (x s).bind fun
    | .ok a t => f a t
    | .error reason t => Part.some (.error reason t)

def step (x : Eval α) : Unbounded α := fun s =>
  Part.some (Logged.lift id x s)

def visit (e : Expr) (number : Nat) : Unbounded Unit := fun s =>
  Part.some (.ok () { s with log := s.log ++ [(e, number)] })

/-- Repeats rounds until one has a result. -/
def loop (round : Unbounded (Option α)) : Unbounded α :=
  PFun.fix fun s => (round s).map fun
    | .ok none t => .inr t
    | .ok (some a) t => .inl (.ok a t)
    | .error reason t => .inl (.error reason t)

section Laws
variable {x : Unbounded α} {f : α → Unbounded β} {s t : Logged Visit}

theorem bind_of_ok {a : α} (h : x s = Part.some (.ok a t)) : (x >>= f) s = f a t := by
  change (x s).bind _ = _
  rw [h, Part.bind_some]

theorem bind_of_error {reason : Halt} (h : x s = Part.some (.error reason t)) :
    (x >>= f) s = Part.some (.error reason t) := by
  change (x s).bind _ = _
  rw [h, Part.bind_some]

theorem bind_of_none (h : x s = Part.none) : (x >>= f) s = Part.none := by
  change (x s).bind _ = _
  rw [h, Part.bind_none]

theorem visit_bind (e : Expr) (number : Nat) (x : Unbounded α) (s : Logged Visit) :
    (do visit e number; x) s = x { s with log := s.log ++ [(e, number)] } :=
  bind_of_ok rfl

theorem step_bind (x : Eval α) (f : α → Eval β) :
    step (x >>= f) = step x >>= fun a => step (f a) := by
  funext s
  cases hx : x s.machine with
  | ok a m =>
      have first : step x s = Part.some (.ok a { s with machine := m }) := by
        rw [step, Logged.lift, hx]
      rw [bind_of_ok first, step, Logged.lift, Script.bind_of_ok hx]
      rfl
  | error reason m =>
      have first : step x s = Part.some (.error reason { s with machine := m }) := by
        rw [step, Logged.lift, hx]
        rfl
      rw [bind_of_error first, step, Logged.lift, Script.bind_of_error hx]
      rfl

variable {round : Unbounded (Option α)}

/-- A loop of which no round has a result runs for ever. -/
theorem loop_eq_none {P : Logged Visit → Prop}
    (goes : ∀ s, P s → ∃ t, round s = Part.some (.ok none t) ∧ P t) (start : P s) :
    loop round s = Part.none := by
  refine Part.eq_none_iff.mpr fun result mem => ?_
  refine PFun.fixInduction (C := fun s => ¬P s) mem (fun s _ later here => ?_) start
  obtain ⟨t, same, there⟩ := goes s here
  refine later t ?_ there
  rw [same, Part.map_some]
  exact Part.mem_some _

end Laws

end Unbounded

/-! ### Readers -/

namespace Turn
variable {σ : Type} {turn : σ → Turn σ}

/-- The reading that a loop ends with, if it ends. -/
def run (turn : σ → Turn σ) : σ →. Reading :=
  PFun.fix fun s => Part.some <| match turn s with
    | again s' => .inr s'
    | ended r => .inl r

theorem Ends.run_eq {s : σ} {r : Reading} {n : Nat} (ends : Ends turn s r n) :
    run turn s = Part.some r := by
  induction ends with
  | last leads =>
      refine Part.eq_some_iff.mpr (PFun.fix_stop ?_)
      rw [leads]
      exact Part.mem_some _
  | next leads _ ih =>
      refine Eq.trans (PFun.fix_fwd_eq ?_) ih
      rw [leads]
      exact Part.mem_some _

end Turn

namespace Unbounded

/-- Takes from the input what a loop reads. -/
def takeInput {σ : Type} (b : Builtin) (turn : σ → Turn σ) (start : Input → σ) : Unbounded Value :=
  fun s => (Turn.run turn (start s.machine.input)).bind fun reading =>
    step (b.takeInput fun _ => reading) s

/-- A call of a built-in function, where the reader of words and that of everything loop. -/
def builtin : Builtin → List Value → Unbounded Value
  | .read, [] => takeInput .read Input.Spelling.spell fun input => ⟨[], none, input⟩
  | .readall, [] => takeInput .readall (Input.gather 4096) fun input => ⟨[], input⟩
  | b, arguments => step (b.call arguments)

/-- A reader whose loop always ends, with a certain reading, is a step. -/
theorem takeInput_eq {σ : Type} (b : Builtin) {turn : σ → Turn σ} {start : Input → σ}
    (read : Input → Reading) (ends : ∀ input, ∃ n, Turn.Ends turn (start input) (read input) n) :
    takeInput b turn start = step (b.takeInput read) := by
  funext s
  obtain ⟨n, here⟩ := ends s.machine.input
  rw [takeInput, here.run_eq, Part.bind_some]
  rfl

/-- The readers come to an end, so that all calls of built-in functions do. -/
theorem builtin_eq (b : Builtin) (arguments : List Value) :
    builtin b arguments = step (b.call arguments) := by
  unfold builtin
  split
  · refine takeInput_eq _ Input.readWord fun input => ?_
    obtain ⟨n, -, ends⟩ := Turn.exists_ends Input.Spelling.spell_advances ⟨[], none, input⟩
    exact ⟨n, ends⟩
  · refine takeInput_eq _ Input.readAll fun input => ?_
    obtain ⟨n, -, ends⟩ :=
      Turn.exists_ends (Input.gather_advances (n := 4096) (by decide)) ⟨[], input⟩
    exact ⟨n, ends⟩
  · rfl

/-! ### Evaluation -/

def tracedCall (callee : Name) (arguments : List Value) (x : Unbounded Value) :
    Unbounded Value := do
  let value ← x
  step (traceCall callee arguments value)
  return value

theorem tracedCall_step (callee : Name) (arguments : List Value) (x : Eval Value) :
    tracedCall callee arguments (step x) = step (Script.tracedCall callee arguments x) := by
  simp only [tracedCall, Script.tracedCall, step_bind]
  rfl

mutual

/-- Evaluates an expression that has this number. -/
def evalExpr (call : CallerIn Unbounded) (env : Env) : Nat → Expr → Unbounded Value
  | n, .literal l => do
    visit (.literal l) n
    return l.value
  | n, .name name position => do
    visit (.name name position) n
    step (resolve env name position)
  | n, .array elements => do
    visit (.array elements) n
    onValues (evalAll call env (n + 1) elements) .error fun values =>
    step (Eval.newArray values.toArray)
  | n, .call callee arguments position => do
    visit (.call callee arguments position) n
    onValue (step (resolve env callee position)) .error fun function =>
    onValues (evalAll call env (n + 1) arguments) .error fun values =>
    match function with
    | .builtin b => tracedCall callee values (builtin b values)
    | .function id => tracedCall callee values (call id values position)
    | other => return .error ⟨.notAFunction other.kind, position⟩
  | n, .index target index position => do
    visit (.index target index position) n
    onValue (evalExpr call env (n + 1) target) .error fun value =>
    onValue (evalExpr call env (n + 1 + target.parts.length) index) .error fun i =>
    step (indexValue value i position)
  | n, .unary op operand position => do
    visit (.unary op operand position) n
    onValue (evalExpr call env (n + 1) operand) .error fun value =>
    step (tracedUnary op value position)
  | n, .binary op left right position => do
    visit (.binary op left right position) n
    onValue (evalExpr call env (n + 1) left) .error fun first =>
    onValue (evalExpr call env (n + 1 + left.parts.length) right) .error fun second =>
    step (tracedBinary op first second position)
termination_by structural _ e => e

def evalAll (call : CallerIn Unbounded) (env : Env) :
    Nat → List Expr → Unbounded (Except Failure (List Value))
  | _, [] => return .ok []
  | n, e :: rest =>
    onValue (evalExpr call env n e) .error fun value =>
    onValues (evalAll call env (n + e.parts.length) rest) .error fun values =>
    return .ok (value :: values)
termination_by structural _ es => es

end

/-- One round of a loop, with what the loop ends with if this is the last. -/
def loopRound {M : Type → Type} [Monad M] (condition : M Value) (body : M Completion) :
    M (Option Completion) :=
  onValue condition (fun failure => some (.aborted failure)) fun value => do
    if value.isTruthy then
      match ← body with
      | .normal => return none
      | completion => return some completion
    else return some .normal

def repeatWhile (condition : Unbounded Value) (body : Unbounded Completion) :
    Unbounded Completion :=
  loop (loopRound condition body)

def inBlock (env : Env) (run : Env → Unbounded α) : Unbounded α := do
  run (← step (Eval.newScope (text "block") [] env))

mutual

/-- Executes a statement of which the first expression has this number. -/
def execStmt (call : CallerIn Unbounded) (env : Env) : Nat → Stmt → Unbounded Completion
  | n, .block body => inBlock env fun env => execBody call env n body
  | n, .declare name value =>
    onValue (evalExpr call env n value) .aborted fun value => do
      step (Eval.define env name value)
      return .normal
  | n, .assign name value position =>
    onValue (evalExpr call env n value) .aborted fun value => do
      if ← step (Eval.assign env name value) then return .normal
      else return .aborted ⟨.unboundName name, position⟩
  | n, .eval value => onValue (evalExpr call env n value) .aborted fun _ => return .normal
  | n, .branch condition body otherwise =>
    onValue (evalExpr call env n condition) .aborted fun value =>
      if value.isTruthy then execStmt call env (n + condition.parts.length) body
      else execOtherwise call env (n + condition.parts.length + body.parts.length) otherwise
  | n, .loop condition body =>
    repeatWhile (evalExpr call env n condition)
      (execStmt call env (n + condition.parts.length) body)
  | _, .return_ none => return .returned .nil
  | n, .return_ (some value) =>
    onValue (evalExpr call env n value) .aborted fun value => return .returned value
termination_by structural _ s => s

def execOtherwise (call : CallerIn Unbounded) (env : Env) :
    Nat → Otherwise → Unbounded Completion
  | _, .nothing => return .normal
  | n, .stmt s => execStmt call env n s
termination_by structural _ o => o

def execDecl (call : CallerIn Unbounded) (env : Env) : Nat → Decl → Unbounded Completion
  | _, .function name parameters body => do
    step (Eval.define env name (← step (Eval.newFunction name parameters body env)))
    return .normal
  | n, .stmt s => execStmt call env n s
termination_by structural _ d => d

def execBody (call : CallerIn Unbounded) (env : Env) : Nat → List Decl → Unbounded Completion
  | _, [] => return .normal
  | n, d :: rest => do
    match ← execDecl call env n d with
    | .normal => execBody call env (n + d.parts.length) rest
    | completion => return completion
termination_by structural _ body => body

end

/-- Runs a program for as long as it takes. -/
def run (call : CallerIn Unbounded) (program : Program) : Unbounded (Option Failure) := do
  match ← execBody call Machine.globalEnv 0 program with
  | .normal => return none
  | .returned _ => step (throw .strayReturn)
  | .aborted failure =>
    step (traceAbort failure)
    return some failure

/-! ### Running for ever -/

section Forever
variable {s : Logged Visit}

/-- A loop whose condition always holds and whose body always ends normally runs for ever. -/
theorem repeatWhile_eq_none {condition : Unbounded Value} {body : Unbounded Completion}
    {P : Logged Visit → Prop}
    (goes : ∀ s, P s → ∃ v t u, condition s = Part.some (.ok v t) ∧ v.kind ≠ .error ∧ v.isTruthy ∧
      body t = Part.some (.ok .normal u) ∧ P u) (start : P s) :
    repeatWhile condition body s = Part.none := by
  refine loop_eq_none (fun s here => ?_) start
  obtain ⟨v, t, u, tested, settled, holds, done, there⟩ := goes s here
  refine ⟨u, ?_, there⟩
  rw [loopRound, onValue, bind_of_ok tested]
  cases v with
  | error failure => exact absurd rfl settled
  | _ =>
      dsimp only
      rw [if_pos holds, bind_of_ok done]
      rfl

/-- The loop `while true {}` runs for ever. -/
theorem run_whileTrue_eq_none (call : CallerIn Unbounded) (s : Logged Visit) :
    run call [.stmt (.loop (.literal (.boolean true)) (.block []))] s = Part.none := by
  refine bind_of_none (bind_of_none ?_)
  refine repeatWhile_eq_none (P := fun _ => True) (fun s _ => ?_) trivial
  exact ⟨.boolean true, _, _, visit_bind _ _ _ s, by simp, rfl, bind_of_ok rfl, trivial⟩

end Forever

end Unbounded

end Script
