import Script.Text.CodePoint

/-!
# Positions in a source

Lines and columns are counted from one. Only a line feed ends a line, and a column is one code
point wide. Line zero, column zero is no place in any source; it belongs to errors that no
expression caused.
-/

namespace Script

structure Position where
  line : Nat
  column : Nat
  deriving Repr, DecidableEq, Inhabited

namespace Position

def start : Position := ⟨1, 1⟩

/-- The position of what stands in no source. -/
def nowhere : Position := ⟨0, 0⟩

def after (p : Position) (c : CodePoint) : Position :=
  if c = .lineFeed then ⟨p.line + 1, 1⟩ else ⟨p.line, p.column + 1⟩

/-- The position behind a text that starts at `p`. -/
def afterText (p : Position) (t : Text) : Position :=
  t.foldl after p

def display (p : Position) : Text :=
  Text.ofNat p.line ++ text ":" ++ Text.ofNat p.column

end Position

end Script
