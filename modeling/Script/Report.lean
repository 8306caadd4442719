import Script.Session

/-!
# Reports

What is said to the user of the command line when a source cannot be run or its run does not end
well. Of a source that is not in order the report names the first line only.
-/

namespace Script

namespace SourceError

/-- The first line about a source that is not in order. -/
def message : SourceError → Text
  | unexpectedToken token =>
    text "Unexpected token Token(" ++ token.terminal.label.quoted ++ text ", " ++
      token.lexeme.quoted ++ text ") at line " ++ Text.ofNat token.position.line ++
      text ", column " ++ Text.ofNat token.position.column ++ text "."
  | unexpectedCharacter c position =>
    text "No terminal matches '" ++ [c] ++ text "' in the current parser context, at line " ++
      Text.ofNat position.line ++ text " col " ++ Text.ofNat position.column
  | badLiteral .longNumber => text "Error trying to process rule \"number\":"
  | badLiteral (.string _) => text "Error trying to process rule \"string\":"

end SourceError

def Rejection.message : Rejection → Text
  | source error => error.message
  | rule error => error.message

def Halt.message : Halt → Text
  | unencodable reason => reason.message
  | recursion => text "maximum recursion"
  | memory => []
  | brokenInput message => message
  | strayReturn => []
  | exhausted => text "too many rounds"

/-- What comes of a source: it is rejected, its run halts, or its run ends, with a failure or
without one. -/
inductive Verdict where
  | rejected (reason : Rejection)
  | halted (reason : Halt)
  | failed (failure : Failure)
  | finished
  deriving Repr, DecidableEq

namespace Verdict

/-- The report on a verdict. A report on a run is one line; of a report on a source this is the
start of the first line. Nothing is said about a run that ends without a failure. -/
def report : Verdict → Text
  | rejected reason => text "Syntax error: " ++ reason.message
  | halted reason => text "Runtime error (host): " ++ reason.message ++ [.lineFeed]
  | failed failure => text "Runtime error: " ++ failure.display ++ [.lineFeed]
  | finished => []

def isFinished : Verdict → Bool
  | finished => true
  | _ => false

end Verdict

def Machine.runSource [CharacterNames] (budget : Budget) (m : Machine) (source : Text) :
    Verdict × Machine :=
  match Program.load source with
  | .error reason => (.rejected reason, m)
  | .ok program =>
    match program.run budget m with
    | .ok none m => (.finished, m)
    | .ok (some failure) m => (.failed failure, m)
    | .error reason m => (.halted reason, m)

end Script
