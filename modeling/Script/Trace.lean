import Script.Text.Blank

/-!
# Traces

A trace is a text about a run that grows while the run goes on, indented by one step for each
function body that is being executed. A trace that is off stays empty and keeps no indentation.
-/

namespace Script

structure Trace where
  enabled : Bool
  indentSize : Nat
  level : Nat
  written : Array CodePoint
  deriving Repr

namespace Trace

def empty (enabled : Bool) (indentSize : Nat) : Trace :=
  ⟨enabled, indentSize, 0, #[]⟩

/-- The number of spaces of one step of indentation, if nothing else is said. -/
def defaultIndent : Nat := 3

/-- Whether a setting asks for a trace: one of four words, in upper or lower case, with blanks
around it or not. -/
def isRequested (setting : Text) : Bool :=
  [text "1", text "true", text "yes", text "on"].contains
    (setting.trimBlanks.map CodePoint.toLowerAscii)

/-- Appends indented text. -/
def write (t : Trace) (message : Text) : Trace :=
  if t.enabled then
    let indentation := List.replicate (t.indentSize * t.level) (CodePoint.ofChar ' ')
    { t with written := t.written ++ indentation ++ message }
  else t

def writeLine (t : Trace) (message : Text) : Trace :=
  t.write (message ++ [.lineFeed])

def indent (t : Trace) : Trace :=
  if t.enabled then { t with level := t.level + 1 } else t

def dedent (t : Trace) : Trace :=
  if t.enabled then { t with level := t.level - 1 } else t

end Trace

end Script
