import Script.Source.Position

/-!
# String literals

The text between the quotation marks of a string literal stands for itself, except that a backslash
starts an escape. An escape is a letter or mark for one code point, up to three octal digits, or
`x`, `u` or `U` with exactly two, four or eight digits of base sixteen. A backslash before a
carriage return disappears with it, and before any other character it stands for itself. Numbers
may name surrogates, and two halves of a pair stay two code points. Behind `N` a text in braces
stands for the character of that name, where the table of names may be any.
-/

namespace Script

/-- The characters that have names. -/
class CharacterNames where
  lookup : Text → Option CodePoint

abbrev CharacterNames.ofList (table : List (Text × CodePoint)) : CharacterNames where
  lookup name := table.findSome? fun (known, c) => if known = name then some c else none

namespace StringLiteral

/-- Why the text of a literal cannot be read. The first two are checked on the whole text before
its escapes. -/
inductive Fault where
  | surrogate
  | nul
  | malformed
  deriving Repr, DecidableEq

/-- Where a reader of a literal stands: outside an escape, directly behind a backslash, before the
brace of a name, behind the first letters of a name, before the last `missing + 1` digits of base
sixteen, or where up to `missing + 1` octal digits may follow. -/
inductive Mode where
  | plain
  | escape
  | brace
  | name (letters : Text)
  | hex (missing value : Nat)
  | octal (missing value : Nat)
  deriving Repr, DecidableEq

/-- The code point of a number, if it is in range. -/
def point? (n : Nat) : Option CodePoint :=
  if h : n < 0x110000 then some ⟨n, h⟩ else none

/-- The code point of an escape that is a single character behind the backslash. -/
def named? (c : CodePoint) : Option CodePoint :=
  if c = CodePoint.ofChar 'a' then some 0x07
  else if c = CodePoint.ofChar 'b' then some 0x08
  else if c = CodePoint.ofChar 't' then some 0x09
  else if c = CodePoint.ofChar 'n' then some 0x0A
  else if c = CodePoint.ofChar 'v' then some 0x0B
  else if c = CodePoint.ofChar 'f' then some 0x0C
  else if c = CodePoint.ofChar 'r' then some 0x0D
  else if c = .backslash || c = .quotationMark || c = .apostrophe then some c
  else none

def octalValue? (c : CodePoint) : Option Nat :=
  if c.isBetween '0' '7' then some (c.val - '0'.toNat) else none

/-- Reads a code point outside an escape. A bare carriage return is not allowed. -/
def plainStep (c : CodePoint) : Option (Text × Mode) :=
  if c = .backslash then some ([], .escape)
  else if c = .carriageReturn then none
  else some ([c], .plain)

/-- Reads the code point behind a backslash. -/
def escapeStep (c : CodePoint) : Option (Text × Mode) :=
  match named? c, octalValue? c with
  | some d, _ => some ([d], .plain)
  | none, some n => some ([], .octal 1 n)
  | none, none =>
    if c = .carriageReturn then some ([], .plain)
    else if c = CodePoint.ofChar 'x' then some ([], .hex 1 0)
    else if c = CodePoint.ofChar 'u' then some ([], .hex 3 0)
    else if c = CodePoint.ofChar 'U' then some ([], .hex 7 0)
    else if c = CodePoint.ofChar 'N' then some ([], .brace)
    else some ([.backslash, c], .plain)

section Reader
variable [CharacterNames]

/-- Reads a code point of a name or behind it. There is no empty name. -/
def nameStep (letters : Text) (c : CodePoint) : Option (Text × Mode) :=
  if c = CodePoint.ofChar '\x7d' then
    if letters.isEmpty then none
    else (CharacterNames.lookup letters).map fun named => ([named], .plain)
  else if c = .carriageReturn then none
  else some ([], .name (letters ++ [c]))

/-- Reads one code point: what it adds to the string, and where the reader stands then. -/
def step : Mode → CodePoint → Option (Text × Mode)
  | .plain, c => plainStep c
  | .escape, c => escapeStep c
  | .brace, c => if c = CodePoint.ofChar '\x7b' then some ([], .name []) else none
  | .name letters, c => nameStep letters c
  | .hex missing value, c => do
    let value := 16 * value + (← c.hexValue?)
    match missing with
    | 0 => return ([← point? value], .plain)
    | n + 1 => return ([], .hex n value)
  | .octal missing value, c =>
    match octalValue? c, missing with
    | some digit, 0 => (point? (8 * value + digit)).map fun p => ([p], .plain)
    | some digit, n + 1 => some ([], .octal n (8 * value + digit))
    | none, _ => do
      let (added, mode) ← plainStep c
      return ((← point? value) :: added, mode)

/-- What the end of the literal adds to the string. -/
def finish? : Mode → Option Text
  | .plain => some []
  | .escape | .brace | .name _ | .hex _ _ => none
  | .octal _ value => (point? value).map ([·])

def decodeFrom : Mode → Text → Option Text
  | mode, [] => finish? mode
  | mode, c :: rest =>
    match step mode c with
    | some (added, mode) => (decodeFrom mode rest).map (added ++ ·)
    | none => none

/-- The string that stands between the quotation marks of a literal. -/
def decode (body : Text) : Except Fault Text :=
  if body.hasSurrogate then .error .surrogate
  else if body.contains 0 then .error .nul
  else
    match decodeFrom .plain body with
    | some t => .ok t
    | none => .error .malformed

end Reader

example : letI : CharacterNames := .ofList [(text "BULLET", 0x2022)]
    decode (text "\\N\x7bBULLET\x7d.") = .ok [0x2022, 0x2E] :=
  rfl

end StringLiteral

end Script
