import Script.Text.CodePoint

/-!
# Texts as bytes

A text is turned into bytes by UTF-8, except that the surrogates `DC80` to `DCFF` become the single
bytes `80` to `FF`; a text with any other surrogate has no bytes. In the other direction bytes are
cut into well-formed characters and broken pieces, where a broken piece is a maximal subpart: the
longest start of a character that goes no further, or one byte that starts none. `ofBytes` writes a
broken piece as the surrogates of its bytes, so that no byte is lost, and `display` writes it as one
replacement character.
-/

namespace Script.Utf8

/-- Where a text stops having bytes: the first code point in the way, its index, and the index
behind the run of surrogates that it starts. -/
structure Unencodable where
  first : CodePoint
  start : Nat
  stop : Nat
  deriving Repr, DecidableEq

/-- What is said about a text without bytes. A single code point is named, a run is not. -/
def Unencodable.message (e : Unencodable) : Text :=
  text "'utf-8' codec can't encode character" ++
    (if e.stop = e.start + 1 then
      text " '\\u" ++ Text.hex 4 e.first.val ++ text "' in position " ++ Text.ofNat e.start
    else
      text "s in position " ++ Text.ofNat e.start ++ text "-" ++ Text.ofNat (e.stop - 1)) ++
    text ": surrogates not allowed"

/-- The one to four bytes of a code point by its size. -/
def scalarBytes (c : CodePoint) : List UInt8 :=
  let n := c.val
  if n < 0x80 then [.ofNat n]
  else if n < 0x800 then [.ofNat (0xC0 + n / 0x40), .ofNat (0x80 + n % 0x40)]
  else if n < 0x10000 then
    [.ofNat (0xE0 + n / 0x1000), .ofNat (0x80 + n / 0x40 % 0x40), .ofNat (0x80 + n % 0x40)]
  else
    [.ofNat (0xF0 + n / 0x40000), .ofNat (0x80 + n / 0x1000 % 0x40),
      .ofNat (0x80 + n / 0x40 % 0x40), .ofNat (0x80 + n % 0x40)]

/-- The bytes of a code point: a surrogate that stands for a byte has that byte, and any other
surrogate has none. -/
def pointBytes? (c : CodePoint) : Option (List UInt8) :=
  if c.isEscapedByte then some [.ofNat (c.val - 0xDC00)]
  else if c.isSurrogate then none
  else some (scalarBytes c)

/-- The bytes of a text whose first code point has index `i`. -/
def toBytesFrom (i : Nat) : Text → Except Unencodable (List UInt8)
  | [] => .ok []
  | c :: rest =>
    match pointBytes? c with
    | some bytes => (toBytesFrom (i + 1) rest).map (bytes ++ ·)
    | none => .error ⟨c, i, i + 1 + (rest.takeWhile CodePoint.isSurrogate).length⟩

def toBytes (t : Text) : Except Unencodable (List UInt8) :=
  toBytesFrom 0 t

/-- What bytes are made of: characters, and pieces that belong to no character. -/
inductive Piece where
  | scalar (c : CodePoint)
  | broken (bytes : List UInt8)
  deriving Repr, DecidableEq

/-- A character of which the first bytes have been read. The next byte has to lie between `low` and
`high`, and `missing` more have to follow that one. -/
structure Incomplete where
  bytes : List UInt8
  value : Nat
  low : UInt8
  high : UInt8
  missing : Nat
  deriving Repr, DecidableEq

/-- What one byte leads to: a finished piece or a character that has only started. -/
inductive Progress where
  | done (piece : Piece)
  | more (start : Incomplete)
  deriving Repr, DecidableEq

/-- Reads a byte at the start of a piece. The bounds on the second byte rule out surrogates,
numbers beyond `10FFFF` and forms that are longer than needed. -/
def Progress.ofFirst (b : UInt8) : Progress :=
  let lead (value : Nat) (low high : UInt8) (missing : Nat) := more ⟨[b], value, low, high, missing⟩
  if b < 0x80 then .done (.scalar (Fin.ofNat _ b.toNat))
  else if b < 0xC2 then .done (.broken [b])
  else if b < 0xE0 then lead (b.toNat - 0xC0) 0x80 0xBF 0
  else if b = 0xE0 then lead 0 0xA0 0xBF 1
  else if b = 0xED then lead 0xD 0x80 0x9F 1
  else if b < 0xF0 then lead (b.toNat - 0xE0) 0x80 0xBF 1
  else if b = 0xF0 then lead 0 0x90 0xBF 2
  else if b < 0xF4 then lead (b.toNat - 0xF0) 0x80 0xBF 2
  else if b = 0xF4 then lead 4 0x80 0x8F 2
  else .done (.broken [b])

def Incomplete.accepts (p : Incomplete) (b : UInt8) : Bool :=
  p.low ≤ b && b ≤ p.high

/-- Reads a byte that goes on with a character. -/
def Incomplete.push (p : Incomplete) (b : UInt8) : Progress :=
  let value := p.value * 0x40 + (b.toNat - 0x80)
  match p.missing with
  | 0 => .done (.scalar (Fin.ofNat _ value))
  | n + 1 => .more ⟨p.bytes ++ [b], value, 0x80, 0xBF, n⟩

/-- Cuts bytes into pieces, behind the first bytes of a character or between two pieces. -/
def piecesFrom : Option Incomplete → List UInt8 → List Piece
  | none, [] => []
  | some p, [] => [.broken p.bytes]
  | none, b :: rest =>
    match Progress.ofFirst b with
    | .done piece => piece :: piecesFrom none rest
    | .more p => piecesFrom (some p) rest
  | some p, b :: rest =>
    if p.accepts b then
      match p.push b with
      | .done piece => piece :: piecesFrom none rest
      | .more p => piecesFrom (some p) rest
    else
      .broken p.bytes ::
        match Progress.ofFirst b with
        | .done piece => piece :: piecesFrom none rest
        | .more p => piecesFrom (some p) rest

def pieces (bytes : List UInt8) : List Piece :=
  piecesFrom none bytes

/-- The surrogate that stands for a byte. -/
def escapedByte (b : UInt8) : CodePoint :=
  Fin.ofNat _ (0xDC00 + b.toNat)

/-- A broken piece as one surrogate for each byte. -/
def Piece.escaped : Piece → Text
  | .scalar c => [c]
  | .broken bytes => bytes.map escapedByte

/-- A broken piece as one replacement character. -/
def Piece.replaced : Piece → CodePoint
  | .scalar c => c
  | .broken _ => 0xFFFD

def ofBytes (bytes : List UInt8) : Text :=
  (pieces bytes).flatMap Piece.escaped

/-- The readable form of a text: the characters that its bytes spell, with a replacement character
for every piece that spells none. -/
def display (t : Text) : Except Unencodable Text :=
  (toBytes t).map fun bytes => (pieces bytes).map Piece.replaced

end Script.Utf8
