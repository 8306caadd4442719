import Script.Evaluation
import Script.Program.Check
import Script.Program.OfSource

/-!
# Sessions

A source is loaded by reading its program and checking the rules on programs, and a loaded program
is run from its first statement to its last or to the first that a failure aborts. What the program
has defined stays in the machine, where its functions can be called afterwards.
-/

namespace Script

inductive Rejection where
  | source (error : SourceError)
  | rule (error : RuleError)
  deriving Repr, DecidableEq

def Program.load [CharacterNames] (source : Text) : Except Rejection Program :=
  match Program.parse source with
  | .error error => .error (.source error)
  | .ok program =>
    match program.check with
    | .error error => .error (.rule error)
    | .ok () => .ok program

/-- What a run may spend: the number of calls that are nested in each other, and the number of
rounds of one loop. -/
structure Budget where
  depth : Nat
  rounds : Nat
  deriving Repr, DecidableEq

namespace Budget

/-- Enough for programs that end, within the memory that a run has. -/
def standard : Budget := ⟨1000, 0x4000000000000000⟩

def caller (budget : Budget) : Caller :=
  callFunction budget.rounds budget.depth

end Budget

def abortLine (failure : Failure) : Text :=
  text "[aborted: " ++ failure.display ++ text "]"

def traceAbort (failure : Failure) : Eval Unit :=
  Eval.traceLine (abortLine failure)

/-- Runs a program in the global scope. The result is the failure that aborts it, if one does, which
is also written to the trace. -/
def Program.run (budget : Budget) (program : Program) : Eval (Option Failure) := do
  match ← execBody budget.caller budget.rounds Machine.globalEnv program with
  | .normal => return none
  | .returned _ => throw .strayReturn
  | .aborted failure =>
    traceAbort failure
    return some failure

/-- Calls a value from outside the program. No line is traced for the call itself, and a failure is
a result like any other. -/
def Value.invoke (budget : Budget) (callee : Value) (arguments : List Value)
    (position : Position) : Eval Value :=
  match callee with
  | .builtin b => b.call arguments
  | .function id => budget.caller id arguments position
  | other => return .error ⟨.notAFunction other.kind, position⟩

end Script
