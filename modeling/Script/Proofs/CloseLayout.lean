import Mathlib.Data.List.TakeWhile
import Script.Proofs.LexemeEnds
import Script.Proofs.RoundTrip

/-!
# Words without spaces

Words need no space between them as long as the first character of the second one cannot belong to
the first. A source that consists of words and gaps in this way is read as these words.
-/

namespace Script

/-- Whether a character directly behind a lexeme may belong to the same token, or make it one of
another kind. -/
def joins (w : Text) (c : CodePoint) : Bool :=
  (w.getLast?.any CodePoint.isNamePart && c.isNamePart) ||
    (fixedTerminals.any fun f => (w ++ [c]).isPrefixOf f.2) || w ++ [c] == text "//"

/-- Text that ends the lexeme in front of it. -/
def IsFree (w rest : Text) : Prop :=
  ∀ c, rest.head? = some c → joins w c = false

section Lexemes
variable {mayCome : Terminal → Bool} {terminal : Terminal} {w rest : Text} {c : CodePoint}

theorem joins_eq_false_iff : joins w c = false ↔
    (w.getLast?.any CodePoint.isNamePart → c.isNamePart = false) ∧
      (∀ f ∈ fixedTerminals, ¬w ++ [c] <+: f.2) ∧ w ++ [c] ≠ text "//" := by
  simp only [joins, Bool.or_eq_false_iff, Bool.and_eq_false_imp, List.any_eq_false,
    List.isPrefixOf_iff_prefix, beq_eq_false_iff_ne, and_assoc]

theorem joins_of_isSpace (w : Text) (space : c.isSpace) : joins w c = false := by
  refine joins_eq_false_iff.mpr ⟨fun _ => isSpace_not_isNamePart space, ?_, ?_⟩
  · intro f mem front
    have none := List.all_eq_true.mp (List.all_eq_true.mp all_fixedTerminals_not_isSpace f mem) c
      (front.subset (by simp))
    rw [space] at none
    cases none
  · intro same
    have same : w ++ [c] = text "/" ++ [CodePoint.ofChar '/'] := same
    obtain rfl := List.singleton_inj.mp (List.append_inj_right' same rfl)
    cases space

theorem isFree_of_isApart (w : Text) (apart : IsApart rest) : IsFree w rest := by
  intro c head
  cases rest with
  | nil => cases head
  | cons d rest =>
      obtain rfl := Option.some.inj head
      exact joins_of_isSpace w apart

/-- A mark that no other one begins with ends everywhere. -/
theorem isFree_of_single (plain : w.getLast?.any CodePoint.isNamePart = false)
    (single : ∀ f ∈ fixedTerminals, w <+: f.2 → f.2 = w) (other : w ≠ text "/") (rest : Text) :
    IsFree w rest := by
  intro c _
  refine joins_eq_false_iff.mpr ⟨fun part => ?_, fun f mem front => ?_, fun same => other ?_⟩
  · rw [plain] at part
    cases part
  · have longer := front.length_le
    rw [single f mem ((List.prefix_append w [c]).trans front), List.length_append] at longer
    exact absurd longer (Nat.not_succ_le_self _)
  · have same : w ++ [c] = text "/" ++ [CodePoint.ofChar '/'] := same
    exact List.append_inj_left' same rfl

theorem takeWhile_append_of_head {p : CodePoint → Bool} (all : w.takeWhile p = w)
    (ends : ∀ c, rest.head? = some c → p c = false) : (w ++ rest).takeWhile p = w := by
  rw [List.takeWhile_append_of_pos (List.takeWhile_eq_self_iff.mp all)]
  cases rest with
  | nil => simp
  | cons c rest => rw [List.takeWhile_cons_of_neg (by simp [ends c rfl]), List.append_nil]

/-- In text that begins with a word or a number, the last character is part of a name. -/
theorem isNamePart_getLast {p : CodePoint → Bool} (part : ∀ c, p c → c.isNamePart)
    (first : c.isNamePart) (all : w.takeWhile p = w) :
    (c :: w).getLast?.any CodePoint.isNamePart := by
  rw [List.getLast?_eq_getLast_of_ne_nil (List.cons_ne_nil c w), Option.any_some]
  rcases List.mem_cons.mp (List.getLast_mem (List.cons_ne_nil c w)) with same | mem
  · rw [same]
    exact first
  · exact part _ (List.takeWhile_eq_self_iff.mp all _ mem)

theorem find?_fixedTerminals_of_isFree
    (h : fixedTerminals.find? (fun f => mayCome f.1 && f.2.isPrefixOf w) = some (terminal, w))
    (free : IsFree w rest) :
    fixedTerminals.find? (fun f => mayCome f.1 && f.2.isPrefixOf (w ++ rest)) =
      some (terminal, w) := by
  obtain ⟨found, front, back, split, before⟩ := List.find?_eq_some_iff_append.mp h
  refine List.find?_eq_some_iff_append.mpr ⟨?_, front, back, split, fun f mem => ?_⟩
  · simp only [Bool.and_eq_true, List.isPrefixOf_iff_prefix] at found ⊢
    exact ⟨found.1, List.prefix_append w rest⟩
  · -- a spelling that reaches beyond the lexeme takes the next character
    have missed := before f mem
    simp only [Bool.not_eq_true', Bool.and_eq_false_imp] at missed ⊢
    intro comes
    by_contra longer
    rw [Bool.not_eq_false, List.isPrefixOf_iff_prefix] at longer
    have short : f.2 <+: w := by
      rcases List.prefix_or_prefix_of_prefix longer (List.prefix_append w rest) with short | front
      · exact short
      · obtain ⟨_ | ⟨c, u⟩, same⟩ := front
        · rw [← same, List.append_nil]
        · rw [← same, List.prefix_append_right_inj] at longer
          obtain ⟨behind, rfl⟩ := longer
          refine absurd ⟨u, ?_⟩ ((joins_eq_false_iff.mp (free c rfl)).2.1 f
            (split ▸ List.mem_append_left _ mem))
          rw [List.append_assoc, List.singleton_append, same]
    have missed := missed comes
    rw [List.isPrefixOf_iff_prefix.mpr short] at missed
    cases missed

theorem lexeme?_append_of_isFree (h : lexeme? mayCome w = some (terminal, w))
    (free : IsFree w rest) : lexeme? mayCome (w ++ rest) = some (terminal, w) := by
  obtain ⟨c, more, rfl⟩ := List.exists_cons_of_ne_nil (lexeme?_ne_nil h)
  have ends {p : CodePoint → Bool} (part : ∀ c, p c → c.isNamePart) (first : c.isNamePart)
      (all : more.takeWhile p = more) : (more ++ rest).takeWhile p = more := by
    refine takeWhile_append_of_head all fun d head => Bool.eq_false_iff.mpr fun again => ?_
    have joined := (joins_eq_false_iff.mp (free d head)).1 (isNamePart_getLast part first all)
    rw [part d again] at joined
    cases joined
  rw [List.cons_append]
  obtain ⟨start, found⟩ | ⟨digit, found⟩ | ⟨-, found⟩ | found := lexeme?_cons_cases mayCome c
  · rw [found] at h ⊢
    obtain ⟨rfl, same⟩ := Prod.mk.inj (Option.some.inj h)
    have word := (List.cons.inj same).2
    have first : c.isNamePart := by
      rw [CodePoint.isNamePart, start, Bool.true_or]
    rw [word, ends (fun _ => id) first word]
  · rw [found] at h ⊢
    obtain ⟨rfl, same⟩ := Prod.mk.inj (Option.some.inj h)
    have part (c : CodePoint) (digit : c.isDigit) : c.isNamePart := by
      rw [CodePoint.isNamePart, digit, Bool.or_true]
    rw [ends part (part c digit) (List.cons.inj same).2]
  · rw [found] at h ⊢
    obtain ⟨closed, closes, same⟩ := Option.map_eq_some_iff.mp h
    obtain ⟨rfl, word⟩ := Prod.mk.inj same
    obtain rfl : closed = more := (List.cons.inj word).2
    rw [closeString?_append_right closes]
    rfl
  · rw [found] at h ⊢
    exact find?_fixedTerminals_of_isFree h free

theorem isSolid_of_isFree (h : terminal.spells w) (free : IsFree w rest) :
    IsSolid (w ++ rest) := by
  obtain ⟨c, more, rfl, other, slash⟩ := terminal.exists_of_spells h
  refine ⟨other, fun same again => ?_⟩
  obtain rfl := slash same
  refine (joins_eq_false_iff.mp (free _ again)).2.2 ?_
  rw [same]
  rfl

end Lexemes

/-- A lexeme that is free of what follows is read behind a gap. -/
theorem Cursor.next_append_of_isFree {mayCome : Terminal → Bool} {terminal : Terminal}
    {gap w rest : Text} (hgap : Gap gap) (h : terminal.spells w) (comes : mayCome terminal)
    (name : terminal = .name → ∀ k, mayCome (.keyword k) → k.spelling ≠ w) (free : IsFree w rest)
    (p : Position) : Cursor.next mayCome ⟨gap ++ (w ++ rest), p⟩ =
      .token ⟨terminal, w, p.afterText gap⟩ ⟨rest, (p.afterText gap).afterText w⟩ := by
  have alone : lexeme? mayCome w = some (terminal, w) := by
    have found := lexeme?_append h comes name (show IsApart [] from trivial)
    rwa [List.append_nil] at found
  have found : lookup? mayCome (w ++ rest) = some (terminal, w) := by
    rw [lookup?, lexeme?_append_of_isFree alone free, Option.some_or]
  exact next_eq_token_iff.mpr ⟨gap, hgap, rfl, isSolid_of_isFree h free, rfl, found, rfl⟩

/-- A source that consists of words and gaps, where no gap is needed between two words if the first
one ends without it. -/
inductive Close : Text → List Word → Prop
  | done {gap : Text} : Gap gap → Close gap []
  | word {gap rest : Text} {word : Word} {words : List Word} :
      Gap gap → word.IsProper → IsFree word.lexeme rest → Close rest words →
      Close (gap ++ (word.lexeme ++ rest)) (word :: words)

namespace Close
variable {source gap : Text} {words : List Word}

theorem gap_append (h : Close source words) (between : Gap gap) : Close (gap ++ source) words := by
  cases h with
  | done last => exact .done (between.append last)
  | word first proper free rest =>
      rw [← List.append_assoc]
      exact .word (between.append first) proper free rest

theorem read_eq_ok [CharacterNames] (h : Close source words) {s : Unfinished} {program : Program}
    (becomes : (s.relocate .forget).Becomes words program) (p last : Position) :
    ∃ read, s.read last ⟨source, p⟩ = .ok read ∧ read.unplaced = program := by
  induction h generalizing s p last with
  | done gap =>
      obtain ⟨_, ⟨⟩, ends, faultless⟩ := becomes
      rw [← Unfinished.relocate_program?] at ends
      obtain ⟨read, ends, same⟩ := Option.map_eq_some_iff.mp ends
      refine ⟨read, ?_, same⟩
      rw [Unfinished.read_gap gap]
      exact Unfinished.finish_eq_ok_iff.mpr ⟨ends, faultless⟩
  | @word gap rest word words between proper free _ ih =>
      obtain ⟨t, fed, becomes⟩ := Unfinished.becomes_cons.mp becomes
      -- the token is fed where it stands, which only adds its position
      have moved :=
        Unfinished.relocate_feed .forget s ⟨word.terminal, word.lexeme, p.afterText gap⟩
      have token : word.token =
          Token.relocate .forget ⟨word.terminal, word.lexeme, p.afterText gap⟩ := rfl
      rw [← token, fed] at moved
      obtain ⟨u, accepted, rfl⟩ := Option.map_eq_some_iff.mp moved
      have comes := Unfinished.mayCome_of_feed (Option.isSome_of_eq_some accepted)
      have here := Cursor.next_append_of_isFree between proper.1 comes
        (fun name k _ => proper.2 name k k.mem_all) free p
      obtain ⟨read, parsed, same⟩ :=
        ih becomes ((p.afterText gap).afterText word.lexeme) (p.afterText gap)
      refine ⟨read, ?_, same⟩
      rw [Unfinished.read_eq, here]
      simp only [accepted, parsed]

end Close

/-- A program is read back from its words, whatever gaps are left out between them. -/
theorem Program.parse_close [CharacterNames] {source : Text} {program : Program}
    (h : program.isWritable) (laid : Close source (bodyWords program)) :
    ∃ read, parse source = .ok read ∧ read.unplaced = program.unplaced :=
  laid.read_eq_ok (s := .empty) (becomes_unplaced h) .start .start

end Script
