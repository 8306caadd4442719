import Script.Proofs.TokenReading
import Script.Proofs.WrittenLiterals

/-!
# String literals in every encoding

A code point of a string can be written as itself, by the character that names it in an escape, or
by its number in base eight or sixteen. Whatever is chosen for each code point, what stands between
the quotation marks is one string token, and its literal is the string. Both the reader of tokens
and the reader of literals take the choices one by one and agree on where each of them ends: nothing
behind a backslash can close the string, and every number has a fixed count of digits, so a digit
that follows is not taken for one of them.
-/

namespace Script.StringLiteral

/-- The characters that stand for one code point behind a backslash. -/
def namedEscapes : List (CodePoint × CodePoint) :=
  [(.backslash, .backslash), (.apostrophe, .apostrophe), (.quotationMark, .quotationMark),
    (.ofChar 'a', 0x07), (.ofChar 'b', 0x08), (.ofChar 't', 0x09), (.ofChar 'n', 0x0A),
    (.ofChar 'v', 0x0B), (.ofChar 'f', 0x0C), (.ofChar 'r', 0x0D)]

/-- The letters that stand in front of digits of base sixteen, with the count of the digits. -/
def hexLetters : List (CodePoint × Nat) :=
  [(.ofChar 'x', 2), (.ofChar 'u', 4), (.ofChar 'U', 8)]

/-- The ways to write a code point between quotation marks. -/
inductive IsForm : Text → CodePoint → Prop
  | raw {c : CodePoint} :
      c ∉ [.quotationMark, .backslash, .lineFeed, .carriageReturn, 0] → c.isSurrogate = false →
      IsForm [c] c
  | named {d c : CodePoint} : (d, c) ∈ namedEscapes → IsForm [.backslash, d] c
  | octal {w : Text} {c : CodePoint} : Numeral 8 3 c.val w → IsForm (.backslash :: w) c
  | hex {letter : CodePoint} {width : Nat} {w : Text} {c : CodePoint} :
      (letter, width) ∈ hexLetters → Numeral 16 width c.val w →
      IsForm (.backslash :: letter :: w) c

/-- Every string can be written, whatever its code points are. -/
theorem exists_body (s : Text) : ∃ body, Body IsForm body s := by
  induction s with
  | nil => exact ⟨[], .nil⟩
  | cons c s ih =>
    obtain ⟨body, written⟩ := ih
    have letter : (CodePoint.ofChar 'U', 8) ∈ hexLetters := by decide
    have fits : c.val < 16 ^ 8 := by omega
    exact ⟨_, .point (.hex letter (numeral_hexDigits fits)) written⟩

section Forms
variable {w : Text} {c : CodePoint}

/-- A digit of base eight behind a backslash starts a number. -/
theorem escapeStep_octal {d : Nat} (h : IsDigit 8 d c) : escapeStep c = some ([], .octal 1 d) :=
  h.elim (P := fun d c => escapeStep c = some ([], .octal 1 d)) (by decide)

theorem octalValue?_eq {d : Nat} (h : IsDigit 8 d c) : octalValue? c = some d :=
  h.elim (P := fun d c => octalValue? c = some d) (by decide)

/-- A code point up to `777` can be written by its number in base eight. -/
theorem isEncoding_octal [CharacterNames] (numeral : Numeral 8 3 c.val w) :
    IsEncoding (.backslash :: w) c := by
  generalize value : c.val = n at numeral
  obtain - | @⟨_, _, units, _, third, numeral, hthird⟩ := numeral
  obtain - | @⟨_, _, eights, _, second, numeral, hsecond⟩ := numeral
  obtain - | @⟨_, _, most, _, first, numeral, hfirst⟩ := numeral
  cases numeral
  obtain ⟨-, -, line, surrogate, nul⟩ := (hfirst.mono (by decide : 8 ≤ 16)).isInert
  refine isEncoding_escape line nul surrogate (List.forall_mem_cons.mpr
    ⟨(hsecond.mono (by decide)).isInert, List.forall_mem_singleton.mpr
      (hthird.mono (by decide)).isInert⟩) fun rest => ?_
  have same : 8 * (8 * most + eights) + units = c.val := by omega
  simp [decodeFrom, step, escapeStep_octal hfirst, octalValue?_eq hsecond, octalValue?_eq hthird,
    same, point?, Function.comp_def]

/-- Whatever way is chosen, the code point is decoded whatever stands behind it. -/
theorem IsForm.isEncoding [CharacterNames] (h : IsForm w c) : IsEncoding w c := by
  cases h with
  | raw other surrogate =>
    simp only [List.mem_cons, List.not_mem_nil, or_false, not_or] at other
    obtain ⟨quote, escape, line, carriage, nul⟩ := other
    exact isEncoding_self escape quote line carriage nul surrogate
  | @named d c mem =>
    have table : namedEscapes.all fun e => named? e.1 = some e.2 ∧ e.1 ≠ .lineFeed ∧ e.1 ≠ 0 ∧
        e.1.isSurrogate = false := by decide
    obtain ⟨named, line, nul, surrogate⟩ := of_decide_eq_true (List.all_eq_true.mp table (d, c) mem)
    exact isEncoding_named named line nul surrogate
  | octal numeral => exact isEncoding_octal numeral
  | @hex letter width w c mem numeral =>
    have table : ∀ e ∈ hexLetters, ∃ missing < 8, e.2 = missing + 1 ∧
        escapeStep e.1 = some ([], .hex missing 0) ∧ e.1 ≠ .lineFeed ∧ e.1 ≠ 0 ∧
        e.1.isSurrogate = false := by decide
    obtain ⟨missing, -, rfl, opens, line, nul, surrogate⟩ := table (letter, width) mem
    exact isEncoding_hex letter missing opens line nul surrogate numeral

end Forms

/-! ### Reading the token -/

def quoted (body : Text) : Text :=
  .quotationMark :: (body ++ [.quotationMark])

section Reading
variable {body s : Text}

/-- A string that is closed is found whatever may come, and whatever stands behind it. -/
theorem lookup?_string (h : isStringBody body) (mayCome : Terminal → Bool) (rest : Text) :
    lookup? mayCome (quoted body ++ rest) = some (.string, quoted body) := by
  have closed : closeString? (body ++ .quotationMark :: rest) = some (body ++ [.quotationMark]) :=
    closeString?_append h rest
  have fixed : ∀ f ∈ fixedTerminals, f.2.head? ≠ some .quotationMark := by decide
  have none (mayCome : Terminal → Bool) (u : Text) :
      fixedTerminals.find? (fun f => mayCome f.1 && f.2.isPrefixOf (.quotationMark :: u)) =
        none := by
    refine List.find?_eq_none.mpr fun f mem front => ?_
    rw [Bool.and_eq_true, List.isPrefixOf_iff_prefix] at front
    obtain ⟨c, spelling, same⟩ := List.exists_cons_of_ne_nil (fixedTerminals_ne_nil (t := f.1) mem)
    rw [same, List.cons_prefix_cons] at front
    refine fixed f mem ?_
    rw [same, front.2.1]
    rfl
  have start : CodePoint.isNameStart .quotationMark = false := by decide
  have digit : CodePoint.isDigit .quotationMark = false := by decide
  rw [quoted, List.cons_append, List.append_assoc, List.singleton_append]
  by_cases comes : mayCome .string
  · simp [lookup?, lexeme?, start, digit, comes, closed]
  · simp [lookup?, lexeme?, start, digit, comes, closed, none]

theorem next_string (h : isStringBody body) (mayCome : Terminal → Bool) (rest : Text)
    (p : Position) : Cursor.next mayCome ⟨quoted body ++ rest, p⟩ =
      .token ⟨.string, quoted body, p⟩ ⟨rest, p.afterText (quoted body)⟩ := by
  refine Cursor.next_eq_token_iff.mpr ⟨[], .nil, rfl, ?_, rfl, lookup?_string h mayCome rest, rfl⟩
  exact ⟨by decide, fun slash => absurd slash (by decide)⟩

theorem feedOperand_quoted [CharacterNames]
    (literal : stringLiteral (quoted body) = .ok (.string s)) (u : Unfinished)
    (goal : Unfinished.Goal) (frames : List Unfinished.Frame) (p : Position) :
    u.feedOperand goal frames ⟨.string, quoted body, p⟩ =
      some (u.goTo (.afterOperand goal frames ⟨.literal (.string s), p⟩)) := by
  simp [Unfinished.feedOperand, literal]

/-- A literal and a semicolon are a program. -/
theorem parse_quoted [CharacterNames] (h : isStringBody body)
    (literal : stringLiteral (quoted body) = .ok (.string s)) :
    Program.parse (quoted body ++ text ";") = .ok [.stmt (.eval (.literal (.string s)))] := by
  let u := Unfinished.empty.goTo (.afterOperand .eval [] ⟨.literal (.string s), .start⟩)
  have first : Unfinished.empty.feed ⟨.string, quoted body, .start⟩ = some u :=
    feedOperand_quoted literal .empty .eval [] .start
  have last : Program.parse (quoted body ++ text ";") =
      u.read .start ⟨text ";", Position.start.afterText (quoted body)⟩ := by
    rw [Program.parse, Unfinished.read_eq]
    simp only [next_string h, first]
  have semicolon : Word.IsProper ⟨.mark .semicolon, text ";"⟩ := by decide
  have ends (p : Position) : u.feed ⟨.mark .semicolon, text ";", p⟩ =
      some (u.add (.stmt (.eval (.literal (.string s)))) false) := rfl
  have read := Unfinished.read_word semicolon .nil (show IsApart [] from trivial)
    (Position.start.afterText (quoted body)) .start (ends _)
  rw [List.nil_append, List.append_nil] at read
  rw [last, read, Unfinished.read_gap .nil]
  rfl

end Reading

/-- Every string can be written in every mixture of the ways to write its code points, with a
backslash and a carriage return wherever one code point ends and the next one starts: it is one
token, and its literal is the string. -/
theorem reads_every_encoding [CharacterNames] {body s : Text} (h : Body IsForm body s) :
    (∀ (mayCome : Terminal → Bool) (rest : Text) (p : Position),
      Cursor.next mayCome ⟨quoted body ++ rest, p⟩ =
        .token ⟨.string, quoted body, p⟩ ⟨rest, p.afterText (quoted body)⟩) ∧
    (∀ (u : Unfinished) (goal : Unfinished.Goal) (frames : List Unfinished.Frame) (p : Position),
      (u.goTo (.operand goal frames)).feed ⟨.string, quoted body, p⟩ =
        some (u.goTo (.afterOperand goal frames ⟨.literal (.string s), p⟩))) ∧
    Program.parse (quoted body ++ text ";") = .ok [.stmt (.eval (.literal (.string s)))] := by
  have encoded : Body IsEncoding body s := h.mono fun _ _ => IsForm.isEncoding
  have closed := encoded.isStringBody_eq
  have literal : stringLiteral (quoted body) = .ok (.string s) := encoded.stringLiteral_eq
  refine ⟨next_string closed, fun u goal frames => ?_, parse_quoted closed literal⟩
  exact feedOperand_quoted literal (u.goTo (.operand goal frames)) goal frames

/-- A backslash next to a quotation mark, a number in base eight before a digit, and two halves of
a pair that a backslash and a carriage return keep apart. -/
theorem reads_every_encoding_halves :
    letI : CharacterNames := .ofList []
    Program.parse (quoted (text "\\\\" ++ (text "\\\"" ++ (text "\\101" ++ (text "7" ++
      (text "\\ud83d" ++ (.backslash :: .carriageReturn :: (text "\\uDE00" ++ []))))))) ++
        text ";") =
      .ok [.stmt (.eval (.literal (.string [0x5C, 0x22, 0x41, 0x37, 0xD83D, 0xDE00])))] := by
  let _ : CharacterNames := .ofList []
  have octal : Numeral 8 3 0x41 (text "101") :=
    .concat (d := 1) (.concat (d := 0) (.concat (d := 1) .nil ⟨by decide, .inl rfl⟩)
      ⟨by decide, .inl rfl⟩) ⟨by decide, .inl rfl⟩
  have high : Numeral 16 4 0xD83D (text "d83d") := numeral_hexDigits (by decide)
  have low : Numeral 16 4 0xDE00 (text "DE00") :=
    .concat (d := 0) (.concat (d := 0) (.concat (d := 0xE) (.concat (d := 0xD) .nil
      ⟨by decide, .inr rfl⟩) ⟨by decide, .inr rfl⟩) ⟨by decide, .inl rfl⟩) ⟨by decide, .inl rfl⟩
  have letter : (CodePoint.ofChar 'u', 4) ∈ hexLetters := by decide
  have body : Body IsForm _ [0x5C, 0x22, 0x41, 0x37, 0xD83D, 0xDE00] :=
    .point (.named (d := .backslash) (by decide)) (.point (.named (d := .quotationMark) (by decide))
      (.point (.octal octal) (.point (.raw (by decide) (by decide)) (.point (.hex letter high)
        (.joined (.point (.hex letter low) .nil))))))
  exact (reads_every_encoding body).2.2

end Script.StringLiteral
