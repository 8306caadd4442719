/-!
# Code points and texts

A text is a list of code points in the full range up to `10FFFF`. Unlike `Char`, a code point may
be a surrogate: a string value may hold halves of a pair, and the 128 surrogates from `DC80` to
`DCFF` stand for bytes that belong to no character. Nothing in a text is ever combined or
normalised, so two texts are equal exactly when their code points are.
-/

namespace Script

/-- A number from `0` to `10FFFF`, surrogates included. -/
abbrev CodePoint := Fin 0x110000

abbrev Text := List CodePoint

namespace CodePoint

instance : @NeZero Nat Zero.ofOfNat0 0x110000 := ⟨by decide⟩

/-- The code point of a character, which is never a surrogate. -/
def ofChar (c : Char) : CodePoint :=
  ⟨c.toNat, by
    have h := c.valid
    unfold Char.toNat
    rcases h with h | ⟨_, h⟩
    · exact Nat.lt_trans h (by decide)
    · exact h⟩

@[simp] theorem val_ofChar (c : Char) : (ofChar c).val = c.toNat := rfl

def quotationMark : CodePoint := 0x22

def apostrophe : CodePoint := 0x27

def backslash : CodePoint := 0x5C

def lineFeed : CodePoint := 0x0A

def carriageReturn : CodePoint := 0x0D

/-- Halves of a pair, which are no characters of their own. -/
def isSurrogate (c : CodePoint) : Bool :=
  0xD800 ≤ c.val && c.val ≤ 0xDFFF

/-- The surrogates that stand for the bytes `80` to `FF`. -/
def isEscapedByte (c : CodePoint) : Bool :=
  0xDC80 ≤ c.val && c.val ≤ 0xDCFF

def isBetween (low high : Char) (c : CodePoint) : Bool :=
  low.toNat ≤ c.val && c.val ≤ high.toNat

def isDigit (c : CodePoint) : Bool :=
  c.isBetween '0' '9'

/-- A letter of the ASCII alphabet or a low line. -/
def isNameStart (c : CodePoint) : Bool :=
  c.isBetween 'a' 'z' || c.isBetween 'A' 'Z' || c == ofChar '_'

/-- Names go on with the characters that start them and with digits. -/
def isNamePart (c : CodePoint) : Bool :=
  c.isNameStart || c.isDigit

/-- The value of a digit of base sixteen, in either case. -/
def hexValue? (c : CodePoint) : Option Nat :=
  if c.isDigit then some (c.val - '0'.toNat)
  else if c.isBetween 'a' 'f' then some (c.val - 'a'.toNat + 10)
  else if c.isBetween 'A' 'F' then some (c.val - 'A'.toNat + 10)
  else none

/-- Upper case letters of ASCII become lower case; everything else stays. -/
def toLowerAscii (c : CodePoint) : CodePoint :=
  if c.isBetween 'A' 'Z' then Fin.ofNat _ (c.val + 32) else c

end CodePoint

def text (s : String) : Text :=
  s.toList.map CodePoint.ofChar

namespace Text

/-- The decimal digits of a number, without leading zeros. -/
def ofNat (n : Nat) : Text :=
  (Nat.toDigits 10 n).map CodePoint.ofChar

/-- The decimal digits of an integer, behind a hyphen when it is negative. -/
def ofInt : Int → Text
  | .ofNat n => ofNat n
  | .negSucc n => CodePoint.ofChar '-' :: ofNat (n + 1)

/-- The number that a run of digits spells, most significant digit first. -/
def digitsValue (t : Text) : Nat :=
  t.foldl (fun n c => 10 * n + (c.val - '0'.toNat)) 0

/-- The digits of a number in base sixteen, in lower case, filled up with zeros to `width`. -/
def hex (width n : Nat) : Text :=
  let digits := (Nat.toDigits 16 n).map CodePoint.ofChar
  List.replicate (width - digits.length) (CodePoint.ofChar '0') ++ digits

def join (separator : Text) : List Text → Text
  | [] => []
  | [t] => t
  | t :: rest => t ++ separator ++ join separator rest

def hasSurrogate (t : Text) : Bool :=
  t.any CodePoint.isSurrogate

/-- The text without `ending` at its end, if it ends so. -/
def dropEnding (ending : CodePoint) (t : Text) : Text :=
  if t.getLast? = some ending then t.dropLast else t

end Text

end Script
