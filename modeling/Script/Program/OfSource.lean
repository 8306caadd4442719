import Script.Program.Unfinished
import Script.Source.Lexeme

/-!
# Reading programs

A source is read token by token into an unfinished program, which in turn says how the next token
is to be looked up. The first place where the source cannot go on is reported. Literals are judged
last: the first bad one is reported only if everything else is in order.
-/

namespace Script

/-- What is wrong with the form of a source. -/
inductive SourceError where
  | unexpectedToken (token : Token)
  | unexpectedCharacter (c : CodePoint) (position : Position)
  | badLiteral (fault : LiteralFault)
  deriving Repr, DecidableEq

/-- The program of an unfinished one at the end of a source whose last token starts at `last`. -/
def Unfinished.finish (s : Unfinished) (last : Position) : Except SourceError Program :=
  match s.program?, s.fault with
  | some program, none => .ok program
  | some _, some fault => .error (.badLiteral fault)
  | none, _ => .error (.unexpectedToken ⟨.endOfInput, [], last⟩)

variable [CharacterNames]

/-- Reads the rest of a source into an unfinished program. -/
def Unfinished.read (s : Unfinished) (last : Position) (place : Cursor) :
    Except SourceError Program :=
  match _ : place.next s.mayCome with
  | .finished => s.finish last
  | .stuck c position => .error (.unexpectedCharacter c position)
  | .token token next =>
    match s.feed token with
    | some s => s.read token.position next
    | none => .error (.unexpectedToken token)
termination_by place.rest.length
decreasing_by exact Cursor.next_lt ‹_›

def Program.parse (source : Text) : Except SourceError Program :=
  Unfinished.empty.read .start ⟨source, .start⟩

end Script
