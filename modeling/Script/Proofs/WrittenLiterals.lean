import Mathlib.Algebra.Group.Nat.Defs
import Script.Program.Unfinished
import Script.Proofs.Lexing
import Script.Text.Quoted

/-!
# Written literals

The digits of a number are a lexeme that reads back as the number, and a text between quotation
marks, with the quotation marks, backslashes and unprintable code points in it escaped, is one that
reads back as the text. The latter holds for any way to write the code points one by one that
decodes each of them.
-/

namespace Script

section Numbers
variable (n : Nat)

theorem Text.digitsValue_ofNat : Text.digitsValue (Text.ofNat n) = n := by
  have same : Text.digitsValue (Text.ofNat n) = Nat.ofDigitChars 10 (Nat.toDigits 10 n) 0 := by
    rw [Text.digitsValue, Text.ofNat, List.foldl_map, Nat.ofDigitChars_eq_foldl]
    rfl
  rw [same, Nat.ofDigitChars_ten_toDigits]

theorem CodePoint.isDigit_ofChar (c : Char) : (ofChar c).isDigit = c.isDigit := by
  rw [Bool.eq_iff_iff, isDigit_iff, val_ofChar, Char.isDigit, Bool.and_eq_true,
    decide_eq_true_iff, decide_eq_true_iff]
  rfl

theorem spells_ofNat : Terminal.number.spells (Text.ofNat n) := by
  have digits : ∀ c ∈ Nat.toDigits 10 n, c.isDigit := fun c =>
    Nat.isDigit_of_mem_toDigits (by decide) (by decide)
  simpa [Terminal.spells, Text.ofNat, CodePoint.isDigit_ofChar] using digits

theorem numberLiteral_ofNat (h : (Text.ofNat n).length ≤ maxDigits) :
    numberLiteral (Text.ofNat n) = .ok (.integer n) := by
  rw [numberLiteral, if_pos h, Text.digitsValue_ofNat]

end Numbers

namespace StringLiteral

/-- A text that a string literal can hold for a code point, whatever follows it. -/
structure IsEncoding [CharacterNames] (w : Text) (c : CodePoint) : Prop where
  decodes : ∀ rest, decodeFrom .plain (w ++ rest) = (decodeFrom .plain rest).map (c :: ·)
  clean : ∀ d ∈ w, d.isSurrogate = false ∧ d ≠ 0
  closed : ∀ rest, isStringBody (w ++ rest) = isStringBody rest

/-- What stands between the quotation marks of a literal for a text: one of the forms of each code
point, one behind the other. A backslash disappears with a carriage return behind it. -/
inductive Body (form : Text → CodePoint → Prop) : Text → Text → Prop
  | nil : Body form [] []
  | point {w body t : Text} {c : CodePoint} :
      form w c → Body form body t → Body form (w ++ body) (c :: t)
  | joined {body t : Text} : Body form body t → Body form (.backslash :: .carriageReturn :: body) t

theorem isStringBody_escape {d : CodePoint} (line : d ≠ .lineFeed) (rest : Text) :
    isStringBody (.backslash :: d :: rest) = isStringBody rest := by
  rw [isStringBody.eq_def]
  simp [line]

namespace Body
variable {form other : Text → CodePoint → Prop} {body t : Text}

theorem mono (h : Body form body t) (weaker : ∀ w c, form w c → other w c) : Body other body t := by
  induction h with
  | nil => exact .nil
  | point first _ ih => exact .point (weaker _ _ first) ih
  | joined _ ih => exact .joined ih

variable [CharacterNames]

theorem decodeFrom_eq (h : Body IsEncoding body t) : decodeFrom .plain body = some t := by
  induction h with
  | nil => rfl
  | point first _ ih =>
    rw [first.decodes, ih]
    rfl
  | @joined body t _ ih =>
    have skipped : decodeFrom .plain (.backslash :: .carriageReturn :: body) =
        ((decodeFrom .plain body).map ([] ++ ·)).map ([] ++ ·) := rfl
    rw [skipped, ih]
    rfl

theorem isStringBody_eq (h : Body IsEncoding body t) : isStringBody body := by
  induction h with
  | nil => rfl
  | point first _ ih =>
    rw [first.closed]
    exact ih
  | joined _ ih =>
    rw [isStringBody_escape (by decide)]
    exact ih

theorem clean (h : Body IsEncoding body t) : ∀ d ∈ body, d.isSurrogate = false ∧ d ≠ 0 := by
  induction h with
  | nil => exact fun _ hd => absurd hd List.not_mem_nil
  | point first _ ih => exact List.forall_mem_append.mpr ⟨first.clean, ih⟩
  | joined _ ih =>
    exact List.forall_mem_cons.mpr ⟨by decide, List.forall_mem_cons.mpr ⟨by decide, ih⟩⟩

theorem decode_eq (h : Body IsEncoding body t) : decode body = .ok t := by
  have surrogate : body.hasSurrogate = false :=
    List.any_eq_false.mpr fun d hd => by simp [(h.clean d hd).1]
  have nul : body.contains 0 = false := by
    rw [List.contains_eq_any_beq, List.any_eq_false]
    intro d hd
    simpa using (h.clean d hd).2.symm
  rw [decode, surrogate, nul, h.decodeFrom_eq]
  rfl

/-- Encodings between quotation marks are a string token. -/
theorem spells (h : Body IsEncoding body t) :
    Terminal.string.spells (.quotationMark :: (body ++ [.quotationMark])) := by
  simp [Terminal.spells, h.isStringBody_eq]

/-- Encodings between quotation marks read back as what they encode. -/
theorem stringLiteral_eq (h : Body IsEncoding body t) :
    stringLiteral (.quotationMark :: (body ++ [.quotationMark])) = .ok (.string t) := by
  rw [stringLiteral, List.drop_one, List.tail_cons, List.dropLast_concat, h.decode_eq]

end Body

/-! Numbers in escapes. -/

/-- The digits of a base, with the number that each stands for. Letters may have either case. -/
def IsDigit (base d : Nat) (c : CodePoint) : Prop :=
  d < base ∧ (c = .ofChar (Nat.digitChar d) ∨ c = .ofChar (Nat.digitChar d).toUpper)

/-- Exactly `width` digits of a base that spell a number, most significant digit first. -/
inductive Numeral (base : Nat) : (width n : Nat) → Text → Prop
  | nil : Numeral base 0 0 []
  | concat {width n d : Nat} {w : Text} {c : CodePoint} : Numeral base width n w →
      IsDigit base d c → Numeral base (width + 1) (base * n + d) (w ++ [c])

/-- Exactly `width` digits of base sixteen, most significant digit first. -/
def hexDigits : Nat → Nat → Text
  | 0, _ => []
  | width + 1, n => hexDigits width (n / 16) ++ [CodePoint.ofChar (Nat.digitChar (n % 16))]

theorem numeral_hexDigits {width n : Nat} (h : n < 16 ^ width) :
    Numeral 16 width n (hexDigits width n) := by
  induction width generalizing n with
  | zero =>
    obtain rfl : n = 0 := by simpa using h
    exact .nil
  | succ width ih =>
    have high : n / 16 < 16 ^ width := by
      rw [Nat.pow_succ] at h
      omega
    have digit : IsDigit 16 (n % 16) (.ofChar (Nat.digitChar (n % 16))) :=
      ⟨Nat.mod_lt _ (by decide), .inl rfl⟩
    have written := Numeral.concat (ih high) digit
    rwa [Nat.div_add_mod] at written

theorem hex_eq_hexDigits {width n : Nat} (h : n < 16 ^ (width + 1)) :
    Text.hex (width + 1) n = hexDigits (width + 1) n := by
  induction width generalizing n with
  | zero =>
    have small : n < 16 := by simpa using h
    simp [Text.hex, hexDigits, Nat.toDigits_of_lt_base small, Nat.mod_eq_of_lt small]
  | succ width ih =>
    have high : n / 16 < 16 ^ (width + 1) := by
      rw [Nat.pow_succ] at h
      omega
    rw [hexDigits, ← ih high]
    by_cases small : n < 16
    · simp [Text.hex, Nat.toDigits_of_lt_base small, Nat.mod_eq_of_lt small,
        Nat.div_eq_of_lt small, List.replicate_succ']
    · simp [Text.hex, Nat.toDigits_of_base_le (b := 16) (n := n) (by decide) (by omega)]

theorem numeral_hex {width n : Nat} (h : n < 16 ^ (width + 1)) :
    Numeral 16 (width + 1) n (Text.hex (width + 1) n) := by
  rw [hex_eq_hexDigits h]
  exact numeral_hexDigits h

section Digits
variable {base width n d : Nat} {w : Text} {c : CodePoint}

theorem IsDigit.mono {other : Nat} (h : IsDigit base d c) (le : base ≤ other) :
    IsDigit other d c :=
  ⟨Nat.lt_of_lt_of_le h.1 le, h.2⟩

/-- What holds of the digits of either case holds of each digit. -/
theorem IsDigit.elim {P : Nat → CodePoint → Prop} (h : IsDigit base d c)
    (all : ∀ d < base, P d (.ofChar (Nat.digitChar d)) ∧ P d (.ofChar (Nat.digitChar d).toUpper)) :
    P d c := by
  obtain ⟨bound, rfl | rfl⟩ := h
  · exact (all d bound).1
  · exact (all d bound).2

theorem IsDigit.hexValue? (h : IsDigit 16 d c) : c.hexValue? = some d :=
  h.elim (P := fun d c => c.hexValue? = some d) (by decide)

/-- A code point that can stand in an escape, and neither closes a string nor starts an escape. -/
def IsInert (c : CodePoint) : Prop :=
  c ≠ .backslash ∧ c ≠ .quotationMark ∧ c ≠ .lineFeed ∧ c.isSurrogate = false ∧ c ≠ 0

instance : DecidablePred IsInert := fun _ => inferInstanceAs (Decidable (_ ∧ _))

theorem IsDigit.isInert (h : IsDigit 16 d c) : IsInert c :=
  h.elim (P := fun _ c => IsInert c) (by decide)

theorem Numeral.isInert (h : Numeral base width n w) (le : base ≤ 16) : ∀ c ∈ w, IsInert c := by
  induction h with
  | nil => exact fun _ hc => absurd hc List.not_mem_nil
  | concat _ digit ih =>
    exact List.forall_mem_append.mpr ⟨ih, List.forall_mem_singleton.mpr (digit.mono le).isInert⟩

theorem isStringBody_inert (h : ∀ c ∈ w, IsInert c) (rest : Text) :
    isStringBody (w ++ rest) = isStringBody rest := by
  induction w with
  | nil => rfl
  | cons d w ih =>
    obtain ⟨⟨escape, quote, line, -⟩, others⟩ := List.forall_mem_cons.mp h
    rw [List.cons_append, isStringBody.eq_def]
    simp [escape, quote, line, ih others]

/-- All digits but the last are collected. -/
theorem Numeral.decodeFrom_hex [CharacterNames] (h : Numeral 16 width n w) (missing value : Nat)
    (rest : Text) :
    decodeFrom (.hex (missing + width) value) (w ++ rest) =
      decodeFrom (.hex missing (16 ^ width * value + n)) rest := by
  induction h generalizing missing rest with
  | nil => simp
  | @concat width n d w c _ digit ih =>
    have same : 16 * (16 ^ width * value + n) + d = 16 ^ (width + 1) * value + (16 * n + d) := by
      rw [Nat.pow_succ, Nat.mul_add, Nat.mul_comm (16 ^ width) 16, Nat.mul_assoc]
      omega
    have wider : missing + (width + 1) = missing + 1 + width := by omega
    rw [List.append_assoc, wider, ih]
    simp [decodeFrom, step, digit.hexValue?, same]

end Digits

/-! The ways to write a code point. -/

/-- What is printable is neither a control nor a surrogate. -/
theorem not_isPrintable {c : CodePoint} (h : c.val ≤ 0x1F ∨ c.isSurrogate) :
    c.isPrintable = false := by
  have controls : CodePoint.unprintableRanges[0]? = some (0x0, 0x1F) := by decide +kernel
  have surrogates : CodePoint.unprintableRanges[318]? = some (0xD7FC, 0xF8FF) := by decide +kernel
  rw [CodePoint.isPrintable, Bool.not_eq_false', Array.any_eq_true']
  rcases h with low | surrogate
  · exact ⟨_, Array.mem_of_getElem? controls, by simpa using low⟩
  · simp only [CodePoint.isSurrogate, Bool.and_eq_true, decide_eq_true_eq] at surrogate
    refine ⟨_, Array.mem_of_getElem? surrogates, ?_⟩
    simp only [Bool.and_eq_true, decide_eq_true_eq]
    omega

section Encodings
variable [CharacterNames] {c : CodePoint}

/-- A code point can stand for itself unless that would end the literal or start an escape. -/
theorem isEncoding_self (escape : c ≠ .backslash) (quote : c ≠ .quotationMark)
    (line : c ≠ .lineFeed) (carriage : c ≠ .carriageReturn) (nul : c ≠ 0)
    (surrogate : c.isSurrogate = false) : IsEncoding [c] c where
  decodes rest := by
    simp [decodeFrom, step, plainStep, escape, carriage]
  clean := List.forall_mem_singleton.mpr ⟨surrogate, nul⟩
  closed :=
    isStringBody_inert (List.forall_mem_singleton.mpr ⟨escape, quote, line, surrogate, nul⟩)

/-- A backslash with what stands behind it is an encoding if it is decoded to the code point, as
long as only the first character of it could close a string or start an escape. -/
theorem isEncoding_escape {letter : CodePoint} {w : Text} (line : letter ≠ .lineFeed)
    (nul : letter ≠ 0) (surrogate : letter.isSurrogate = false) (inert : ∀ d ∈ w, IsInert d)
    (decodes : ∀ rest, decodeFrom .escape (letter :: (w ++ rest)) =
      (decodeFrom .plain rest).map (c :: ·)) :
    IsEncoding (.backslash :: letter :: w) c where
  decodes rest := by
    have opened : decodeFrom .plain (.backslash :: letter :: (w ++ rest)) =
        (decodeFrom .escape (letter :: (w ++ rest))).map ([] ++ ·) := rfl
    rw [List.cons_append, List.cons_append, opened, decodes]
    exact Option.map_id_apply
  clean := List.forall_mem_cons.mpr ⟨by decide, List.forall_mem_cons.mpr
    ⟨⟨surrogate, nul⟩, fun d hd => (inert d hd).2.2.2⟩⟩
  closed rest := by
    rw [List.cons_append, List.cons_append, isStringBody_escape line, isStringBody_inert inert]

theorem isEncoding_named {d : CodePoint} (h : named? d = some c) (line : d ≠ .lineFeed)
    (nul : d ≠ 0) (surrogate : d.isSurrogate = false) : IsEncoding [.backslash, d] c :=
  isEncoding_escape line nul surrogate (List.forall_mem_nil _) fun rest => by
    simp [decodeFrom, step, escapeStep, h]

theorem isEncoding_hex (letter : CodePoint) (width : Nat) {w : Text}
    (h : escapeStep letter = some ([], .hex width 0)) (line : letter ≠ .lineFeed)
    (nul : letter ≠ 0) (surrogate : letter.isSurrogate = false)
    (numeral : Numeral 16 (width + 1) c.val w) : IsEncoding (.backslash :: letter :: w) c := by
  refine isEncoding_escape line nul surrogate (numeral.isInert (Nat.le_refl 16)) fun rest => ?_
  have opened : decodeFrom .escape (letter :: (w ++ rest)) =
      decodeFrom (.hex width 0) (w ++ rest) := by
    simp [decodeFrom, step, h]
  rw [opened]
  generalize value : c.val = n at numeral
  obtain - | @⟨_, n, d, w, last, numeral, digit⟩ := numeral
  have collected := numeral.decodeFrom_hex 0 0 (last :: rest)
  rw [Nat.zero_add, Nat.mul_zero, Nat.zero_add] at collected
  rw [List.append_assoc, List.singleton_append, collected]
  simp [decodeFrom, step, digit.hexValue?, ← value, point?]

/-- Every code point is written by one that decodes to it. -/
theorem isEncoding_quotedPoint (c : CodePoint) :
    IsEncoding (Text.quotedPoint .quotationMark c) c := by
  unfold Text.quotedPoint
  split
  · next mark =>
    rcases mark with rfl | rfl
    · exact isEncoding_named (by decide) (by decide) (by decide) (by decide)
    · exact isEncoding_named (by decide) (by decide) (by decide) (by decide)
  next mark =>
  obtain ⟨quote, escape⟩ := not_or.mp mark
  split
  · next tab =>
    rw [tab]
    exact isEncoding_named (d := CodePoint.ofChar 't') rfl (by decide) (by decide) (by decide)
  split
  · next feed =>
    rw [feed]
    exact isEncoding_named (d := CodePoint.ofChar 'n') rfl (by decide) (by decide) (by decide)
  next line =>
  split
  · next carriage =>
    rw [carriage]
    exact isEncoding_named (d := CodePoint.ofChar 'r') rfl (by decide) (by decide) (by decide)
  next carriage =>
  split
  · next printable =>
    have nul : c ≠ 0 := by
      rintro rfl
      rw [not_isPrintable (.inl (by decide))] at printable
      cases printable
    have surrogate : c.isSurrogate = false := by
      by_contra surrogate
      rw [not_isPrintable (.inr (by simpa using surrogate))] at printable
      cases printable
    exact isEncoding_self escape quote line carriage nul surrogate
  split
  · next fits =>
    exact isEncoding_hex (CodePoint.ofChar 'x') 1 rfl (by decide) (by decide) (by decide)
      (numeral_hex (by omega))
  split
  · next fits =>
    exact isEncoding_hex (CodePoint.ofChar 'u') 3 rfl (by decide) (by decide) (by decide)
      (numeral_hex (by omega))
  · exact isEncoding_hex (CodePoint.ofChar 'U') 7 rfl (by decide) (by decide) (by decide)
      (numeral_hex (by omega))

end Encodings

/-- The literal for a text, with one way to write each code point. -/
def written (t : Text) : Text :=
  .quotationMark :: (t.flatMap (Text.quotedPoint .quotationMark) ++ [.quotationMark])

section Written
variable [CharacterNames] (t : Text)

theorem body_written : Body IsEncoding (t.flatMap (Text.quotedPoint .quotationMark)) t := by
  induction t with
  | nil => exact .nil
  | cons c t ih => exact .point (isEncoding_quotedPoint c) ih

omit [CharacterNames] in
theorem spells_written : Terminal.string.spells (written t) :=
  -- the names of characters are of no account
  let _ : CharacterNames := .ofList []
  (body_written t).spells

theorem stringLiteral_written : stringLiteral (written t) = .ok (.string t) :=
  (body_written t).stringLiteral_eq

end Written

end StringLiteral

end Script
