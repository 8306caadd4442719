import Script.Text.Printable

/-!
# Quoted texts

A text between quotes, on one line and in printable characters only. Single quotes are used unless
the text holds one and no double quote.
-/

namespace Script.Text

def quoteFor (t : Text) : CodePoint :=
  if t.contains .apostrophe && !t.contains .quotationMark then .quotationMark else .apostrophe

/-- A code point inside `quote`: the quote and the backslash are escaped by a backslash, three
controls by a letter, and what cannot be printed by its number in the shortest of three widths. -/
def quotedPoint (quote c : CodePoint) : Text :=
  if c = quote ∨ c = .backslash then [.backslash, c]
  else if c = 0x09 then text "\\t"
  else if c = .lineFeed then text "\\n"
  else if c = .carriageReturn then text "\\r"
  else if c.isPrintable then [c]
  else if c.val ≤ 0xFF then text "\\x" ++ hex 2 c.val
  else if c.val ≤ 0xFFFF then text "\\u" ++ hex 4 c.val
  else text "\\U" ++ hex 8 c.val

def quoted (t : Text) : Text :=
  let quote := t.quoteFor
  quote :: t.flatMap (quotedPoint quote) ++ [quote]

end Script.Text
