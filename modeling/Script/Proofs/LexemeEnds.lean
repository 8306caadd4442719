import Mathlib.Data.List.Find
import Script.Proofs.TokenReading

/-!
# Where lexemes end

A lexeme that is found at the front of a text does not depend on what stands far behind it: it is
found as well if the text is cut off somewhere behind it, and if white space and anything else is
written behind the text. So a token that is read of a source is read of every source that starts in
the same way and goes on with white space.
-/

namespace Script

section Lookups
variable {mayCome : Terminal → Bool} {terminal : Terminal} {t rest w : Text}

/-! ### Texts that are cut off -/

theorem takeWhile_of_append {p : CodePoint → Bool} (h : (w ++ t ++ rest).takeWhile p = w) :
    (w ++ t).takeWhile p = w := by
  induction w with
  | nil =>
      cases t with
      | nil => rfl
      | cons c t => simpa [List.takeWhile_cons] using h
  | cons c w ih =>
      rw [List.cons_append, List.cons_append, List.takeWhile_cons] at h
      rw [List.cons_append, List.takeWhile_cons]
      split at h
      · next some =>
          rw [if_pos some, ih (List.cons.inj h).2]
      · cases h

theorem closeString?_append_right {closed : Text} (h : closeString? t = some closed)
    (rest : Text) : closeString? (t ++ rest) = some closed := by
  obtain ⟨body, more, rfl, form, rfl⟩ := exists_of_closeString? h
  rw [List.append_assoc, List.append_assoc]
  exact closeString?_append form _

theorem closeString?_of_append (h : closeString? (w ++ t ++ rest) = some w) :
    closeString? (w ++ t) = some w := by
  obtain ⟨body, -, rfl, form, -⟩ := exists_of_closeString? h
  rw [List.append_assoc]
  exact closeString?_append form _

theorem find?_fixedTerminals_of_append
    (h : fixedTerminals.find? (fun f => mayCome f.1 && f.2.isPrefixOf (w ++ t ++ rest)) =
      some (terminal, w)) :
    fixedTerminals.find? (fun f => mayCome f.1 && f.2.isPrefixOf (w ++ t)) =
      some (terminal, w) := by
  obtain ⟨found, front, back, split, before⟩ := List.find?_eq_some_iff_append.mp h
  refine List.find?_eq_some_iff_append.mpr ⟨?_, front, back, split, fun f mem => ?_⟩
  · simp only [Bool.and_eq_true, List.isPrefixOf_iff_prefix] at found ⊢
    exact ⟨found.1, List.prefix_append w t⟩
  · -- a spelling at the front of the shorter text would be at the front of the longer one
    have missed := before f mem
    simp only [Bool.not_eq_true', Bool.and_eq_false_imp] at missed ⊢
    intro comes
    by_contra short
    rw [Bool.not_eq_false, List.isPrefixOf_iff_prefix] at short
    have longer := List.isPrefixOf_iff_prefix.mpr (short.trans (List.prefix_append _ rest))
    rw [missed comes] at longer
    cases longer

/-- What is found at the front of a text is found if the text is cut off behind it. -/
theorem lexeme?_of_append (h : lexeme? mayCome (w ++ t ++ rest) = some (terminal, w)) :
    lexeme? mayCome (w ++ t) = some (terminal, w) := by
  obtain ⟨c, more, rfl⟩ := List.exists_cons_of_ne_nil (lexeme?_ne_nil h)
  rw [List.cons_append, List.cons_append] at h
  rw [List.cons_append]
  obtain ⟨-, found⟩ | ⟨-, found⟩ | ⟨-, found⟩ | found := lexeme?_cons_cases mayCome c
  · rw [found] at h ⊢
    obtain ⟨rfl, same⟩ := Prod.mk.inj (Option.some.inj h)
    have word := (List.cons.inj same).2
    rw [word, takeWhile_of_append word]
  · rw [found] at h ⊢
    obtain ⟨rfl, same⟩ := Prod.mk.inj (Option.some.inj h)
    rw [takeWhile_of_append (List.cons.inj same).2]
  · rw [found] at h ⊢
    obtain ⟨closed, closes, same⟩ := Option.map_eq_some_iff.mp h
    obtain ⟨rfl, word⟩ := Prod.mk.inj same
    obtain rfl : closed = more := (List.cons.inj word).2
    rw [closeString?_of_append closes]
    rfl
  · rw [found] at h ⊢
    exact @find?_fixedTerminals_of_append _ _ t rest (c :: more) h

/-- If something is found at the front of a text, something is found whatever follows the text. -/
theorem isSome_lexeme?_append (h : (lexeme? mayCome t).isSome) (rest : Text) :
    (lexeme? mayCome (t ++ rest)).isSome := by
  cases t with
  | nil => cases h
  | cons c t =>
      rw [List.cons_append]
      obtain ⟨-, found⟩ | ⟨-, found⟩ | ⟨-, found⟩ | found := lexeme?_cons_cases mayCome c
      · rw [found]
        rfl
      · rw [found]
        rfl
      · rw [found, Option.isSome_map] at h ⊢
        obtain ⟨closed, closes⟩ := Option.isSome_iff_exists.mp h
        rw [closeString?_append_right closes]
        rfl
      · rw [found, List.find?_isSome] at h ⊢
        obtain ⟨f, mem, front⟩ := h
        refine ⟨f, mem, ?_⟩
        simp only [Bool.and_eq_true, List.isPrefixOf_iff_prefix] at front ⊢
        exact ⟨front.1, front.2.trans (List.prefix_append (c :: t) rest)⟩

theorem lookup?_of_append (h : lookup? mayCome (w ++ t ++ rest) = some (terminal, w)) :
    lookup? mayCome (w ++ t) = some (terminal, w) := by
  obtain found | ⟨none, found⟩ := Option.or_eq_some_iff.mp h
  · rw [lookup?, lexeme?_of_append found, Option.some_or]
  · have none : lexeme? mayCome (w ++ t) = .none := by
      by_contra some
      have found := isSome_lexeme?_append (Option.isSome_iff_ne_none.mpr some) rest
      rw [none] at found
      cases found
    rw [lookup?, none, Option.none_or, lexeme?_of_append found]

/-! ### White space behind a text -/

theorem takeWhile_append_of_ends {p : CodePoint → Bool} (ends : ∀ c, c.isSpace → p c = false)
    (apart : IsApart rest) : (t ++ rest).takeWhile p = t.takeWhile p := by
  induction t with
  | nil =>
      cases rest with
      | nil => rfl
      | cons c rest => rw [List.nil_append, List.takeWhile_cons, ends c apart]; rfl
  | cons c t ih => rw [List.cons_append, List.takeWhile_cons, List.takeWhile_cons, ih]

theorem isPrefixOf_append_of_isApart {f : Terminal × Text} (mem : f ∈ fixedTerminals)
    (apart : IsApart rest) : f.2.isPrefixOf (t ++ rest) = f.2.isPrefixOf t := by
  rw [Bool.eq_iff_iff, List.isPrefixOf_iff_prefix, List.isPrefixOf_iff_prefix]
  constructor
  · exact fun h => @isPrefixOf_of_append (.name, t) f mem _ apart h
  · exact fun h => h.trans (List.prefix_append _ _)

/-- A text does not begin with a string that is left open. -/
def IsClosed (t : Text) : Prop :=
  ∀ body, t = .quotationMark :: body → (closeString? body).isSome

/-- Every lexeme at the front of a text ends before white space that follows the text. -/
theorem lexeme?_append_of_isClosed (some : t ≠ []) (closed : IsClosed t) (apart : IsApart rest) :
    lexeme? mayCome (t ++ rest) = lexeme? mayCome t := by
  obtain ⟨c, t, rfl⟩ := List.exists_cons_of_ne_nil some
  have string : c = .quotationMark → closeString? (t ++ rest) = closeString? t := by
    rintro rfl
    obtain ⟨closed, found⟩ := Option.isSome_iff_exists.mp (closed t rfl)
    rw [found, closeString?_append_right found]
  rw [List.cons_append, lexeme?, lexeme?,
    takeWhile_append_of_ends (fun _ => isSpace_not_isNamePart) apart,
    takeWhile_append_of_ends (fun _ => isSpace_not_isDigit) apart, List.find?_congr fun f mem => ?_]
  · by_cases quote : c = .quotationMark
    · rw [string quote]
    · rw [beq_eq_false_iff_ne.mpr quote]
      rfl
  · exact congrArg (mayCome f.1 && ·) (@isPrefixOf_append_of_isApart (c :: t) rest f mem apart)

/-- Only strings begin with a quotation mark, and those are closed. -/
theorem isClosed_of_spells (h : terminal.spells w) (rest : Text) : IsClosed (w ++ rest) := by
  intro body same
  cases terminal with
  | name =>
      cases w with
      | nil => cases h
      | cons c more =>
          obtain ⟨rfl, -⟩ := List.cons.inj same
          simp [Terminal.spells, show CodePoint.isNameStart .quotationMark = false by decide] at h
  | number =>
      cases w with
      | nil => cases h
      | cons c more =>
          obtain ⟨rfl, -⟩ := List.cons.inj same
          simp [Terminal.spells, show CodePoint.isDigit .quotationMark = false by decide] at h
  | string =>
      cases w with
      | nil => cases h
      | cons c more =>
          obtain ⟨rfl, behind⟩ := List.cons.inj same
          simp only [Terminal.spells, Bool.and_eq_true, beq_iff_eq] at h
          rw [← behind, List.append_eq, ← List.dropLast_append_getLast? _ h.1.2, List.append_assoc]
          exact Option.isSome_of_eq_some (closeString?_append h.2 rest)
  | keyword k =>
      obtain rfl := beq_iff_eq.mp h
      cases k <;> cases same
  | mark m =>
      obtain rfl := beq_iff_eq.mp h
      cases m <;> cases same
  | endOfInput => cases h

/-- What is found at the front of a text is found if white space follows the text. -/
theorem lookup?_append_of_isApart (h : lookup? mayCome t = some (terminal, w))
    (apart : IsApart rest) : lookup? mayCome (t ++ rest) = some (terminal, w) := by
  obtain ⟨spells, more, rfl⟩ := spells_of_lookup? h
  have closed := isClosed_of_spells spells more
  have some : w ++ more ≠ [] := by
    obtain ⟨c, word, rfl, -, -⟩ := terminal.exists_of_spells spells
    exact List.cons_ne_nil c (word ++ more)
  rw [← h, lookup?, lookup?, lexeme?_append_of_isClosed some closed apart,
    lexeme?_append_of_isClosed some closed apart]

end Lookups

/-! ### Tokens -/

section Solid
variable {t rest : Text}

theorem IsSolid.of_append (h : IsSolid (t ++ rest)) : IsSolid t := by
  cases t with
  | nil => trivial
  | cons c t =>
      refine ⟨h.1, fun slash again => h.2 slash ?_⟩
      rw [List.append_eq, List.head?_append, again, Option.some_or]

theorem IsSolid.append (h : IsSolid t) (some : t ≠ []) (apart : IsApart rest) :
    IsSolid (t ++ rest) := by
  obtain ⟨c, t, rfl⟩ := List.exists_cons_of_ne_nil some
  refine ⟨h.1, fun slash => ?_⟩
  cases t with
  | cons d t => exact h.2 slash
  | nil =>
      cases rest with
      | nil => exact h.2 slash
      | cons d rest =>
          rintro same
          obtain rfl := Option.some.inj same
          cases apart

end Solid

namespace Cursor
variable {mayCome : Terminal → Bool} {token : Token}

/-- A token is read as well if the source is cut off somewhere behind it. -/
theorem next_of_append {t u rest : Text} {p q : Position}
    (h : Cursor.next mayCome ⟨t ++ rest, p⟩ = .token token ⟨u ++ rest, q⟩) :
    Cursor.next mayCome ⟨t, p⟩ = .token token ⟨u, q⟩ := by
  obtain ⟨gap, form, same, solid, here, found, behind⟩ := next_eq_token_iff.mp h
  rw [← List.append_assoc] at solid found
  refine next_eq_token_iff.mpr
    ⟨gap, form, ?_, solid.of_append, here, lookup?_of_append found, behind⟩
  rw [← List.append_assoc, ← List.append_assoc] at same
  rw [← List.append_assoc]
  exact List.append_cancel_right same

/-- A token is read as well if white space and anything else is written behind the source. -/
theorem next_append_of_isApart {place next : Cursor} (h : place.next mayCome = .token token next)
    {rest : Text} (apart : IsApart rest) :
    Cursor.next mayCome ⟨place.rest ++ rest, place.position⟩ =
      .token token ⟨next.rest ++ rest, next.position⟩ := by
  obtain ⟨gap, form, same, solid, here, found, behind⟩ := next_eq_token_iff.mp h
  have some : token.lexeme ++ next.rest ≠ [] := by
    obtain ⟨c, more, lexeme, -, -⟩ := token.terminal.exists_of_spells (spells_of_lookup? found).1
    rw [lexeme]
    exact List.cons_ne_nil c (more ++ next.rest)
  refine next_eq_token_iff.mpr ⟨gap, form, ?_, ?_, here, ?_, behind⟩
  · rw [same, List.append_assoc, List.append_assoc]
  · rw [← List.append_assoc]
    exact solid.append some apart
  · rw [← List.append_assoc]
    exact lookup?_append_of_isApart found apart

end Cursor

end Script
