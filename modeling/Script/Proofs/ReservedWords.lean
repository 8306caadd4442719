import Script.Proofs.Acceptance

/-!
# Reserved words

Whether a word is a name depends on the place where it stands. Where a name is declared, every word
is one. Where an operand may start, `true`, `false` and `nil` are literals, and where a statement
may start, the words that start other statements are keywords as well; `else` is one directly behind
a closing brace. These words can be declared as names there but cannot be used.
-/

namespace Script

/-- What ends a word before it: anything that a word does not go on with. -/
def IsWordEnd (rest : Text) : Prop :=
  ∀ c ∈ rest.head?, ¬c.isNamePart

theorem isWordEnd_of_gap {gap : Text} (h : Gap gap) {c : CodePoint} (other : ¬c.isNamePart)
    (rest : Text) : IsWordEnd (gap ++ c :: rest) := by
  cases h with
  | nil => exact fun d same => Option.some.inj same ▸ other
  | space space _ =>
      rintro d ⟨⟩
      simp [isSpace_not_isNamePart space]
  | comment _ _ =>
      rintro d ⟨⟩
      decide

section Words
variable {mayCome : Terminal → Bool} {w rest : Text}

theorem lexeme?_wordEnd (h : Terminal.name.spells w) (comes : mayCome .name)
    (ends : IsWordEnd rest) : lexeme? mayCome (w ++ rest) = some (wordTerminal mayCome w, w) := by
  rcases w with _ | ⟨c, more⟩
  · cases h
  · simp only [Terminal.spells, Bool.and_eq_true] at h
    have whole : (more ++ rest).takeWhile CodePoint.isNamePart = more := by
      rw [List.takeWhile_append_of_pos (List.all_eq_true.mp h.2)]
      rcases rest with _ | ⟨d, rest⟩
      · simp
      · rw [List.takeWhile_cons_of_neg (ends d rfl), List.append_nil]
    rw [List.cons_append, lexeme?]
    simp [h.1, comes, whole]

theorem Cursor.next_word {gap : Text} (hgap : Gap gap) (h : Terminal.name.spells w)
    (comes : mayCome .name) (ends : IsWordEnd rest) (p : Position) :
    Cursor.next mayCome ⟨gap ++ (w ++ rest), p⟩ =
      .token ⟨wordTerminal mayCome w, w, p.afterText gap⟩
        ⟨rest, (p.afterText gap).afterText w⟩ := by
  have found := lexeme?_wordEnd h comes ends
  obtain ⟨c, more, rfl, other, slash⟩ := Terminal.exists_of_spells h
  have skipped : skipGap p (gap ++ (c :: more ++ rest)) =
      ⟨c :: more ++ rest, p.afterText gap⟩ := by
    have start : c ≠ CodePoint.ofChar '/' := by
      rintro rfl
      cases h
    rw [skipGap_append hgap, List.cons_append, skipGap.eq_def]
    dsimp only
    rw [if_neg other, if_neg start]
  rw [List.cons_append] at found skipped
  unfold Cursor.next
  simp only [List.cons_append, skipped, found, Option.some_or]
  rw [← List.cons_append, List.drop_left]

/-- Of the fixed spellings, only one is at the front of an equality sign that stands alone. -/
theorem isPrefixOf_equal (single : rest.head? ≠ some (CodePoint.ofChar '=')) {f : Terminal × Text}
    (mem : f ∈ fixedTerminals) (front : f.2.isPrefixOf (CodePoint.ofChar '=' :: rest)) :
    f = (.mark .equal, text "=") := by
  have starts : ∀ f ∈ fixedTerminals, f = (.mark .equal, text "=") ∨
      f.2 = text "==" ∨ f.2.head? ≠ some (CodePoint.ofChar '=') := by decide
  rw [List.isPrefixOf_iff_prefix] at front
  rcases starts f mem with same | double | other
  · exact same
  · rw [double] at front
    obtain ⟨-, behind⟩ := List.cons_prefix_cons.mp front
    obtain ⟨more, rfl⟩ := behind
    exact absurd rfl single
  · cases spelling : f.2 with
    | nil => exact absurd spelling (fixedTerminals_ne_nil (t := f.1) mem)
    | cons c more =>
        rw [spelling] at front other
        exact absurd (congrArg some (List.cons_prefix_cons.mp front).1) other

theorem lexeme?_equal (single : rest.head? ≠ some (CodePoint.ofChar '=')) :
    lexeme? mayCome (CodePoint.ofChar '=' :: rest) =
      if mayCome (.mark .equal) then some (.mark .equal, text "=") else none := by
  have start : lexeme? mayCome (CodePoint.ofChar '=' :: rest) =
      fixedTerminals.find? fun f =>
        mayCome f.1 && f.2.isPrefixOf (CodePoint.ofChar '=' :: rest) := rfl
  rw [start]
  cases found : fixedTerminals.find? fun f =>
    mayCome f.1 && f.2.isPrefixOf (CodePoint.ofChar '=' :: rest) with
  | some f =>
      have fits := List.find?_some found
      rw [Bool.and_eq_true] at fits
      obtain rfl := isPrefixOf_equal single (List.mem_of_find?_eq_some found) fits.2
      rw [if_pos fits.1]
  | none =>
      have missed := List.find?_eq_none.mp found _ (mem_fixedTerminals_mark .equal)
      rw [if_neg]
      intro comes
      simp [comes, Mark.spelling, text] at missed

/-- An equality sign that stands alone is read wherever it is, even if it may not come. -/
theorem Cursor.next_equal {gap : Text} (hgap : Gap gap)
    (single : rest.head? ≠ some (CodePoint.ofChar '=')) (p : Position) :
    Cursor.next mayCome ⟨gap ++ CodePoint.ofChar '=' :: rest, p⟩ =
      .token ⟨.mark .equal, text "=", p.afterText gap⟩
        ⟨rest, (p.afterText gap).after (CodePoint.ofChar '=')⟩ := by
  have skipped : skipGap p (gap ++ CodePoint.ofChar '=' :: rest) =
      ⟨CodePoint.ofChar '=' :: rest, p.afterText gap⟩ := by
    rw [skipGap_append hgap, skipGap.eq_def]
    rfl
  have found : (lexeme? mayCome (CodePoint.ofChar '=' :: rest)).or
      (lexeme? (fun _ => true) (CodePoint.ofChar '=' :: rest)) =
        some (.mark .equal, text "=") := by
    rw [lexeme?_equal single, lexeme?_equal single]
    split <;> rfl
  unfold Cursor.next
  simp only [skipped, found]
  rfl

end Words

theorem Keyword.spelling_injective {k l : Keyword} (h : k.spelling = l.spelling) : k = l := by
  have all : ∀ k ∈ all, ∀ l ∈ all, k.spelling = l.spelling → k = l := by decide
  exact all k k.mem_all l l.mem_all h

namespace Unfinished
variable [CharacterNames] {s : Unfinished} {n : Text}

/-- A word stands for a keyword that may come. -/
def Reserves (s : Unfinished) (w : Text) : Prop :=
  ∃ k, s.mayCome (.keyword k) ∧ k.spelling = w

/-- Reading a word, whatever stands behind it, leads to what is made of its position. -/
def ReadsWord (s : Unfinished) (w : Text) (next : Position → Unfinished) : Prop :=
  ∀ (last p : Position) (gap rest : Text), Gap gap → IsWordEnd rest →
    s.read last ⟨gap ++ (w ++ rest), p⟩ =
      (next (p.afterText gap)).read (p.afterText gap) ⟨rest, (p.afterText gap).afterText w⟩

theorem wordTerminal_of_not_reserves (free : ¬s.Reserves n) : wordTerminal s.mayCome n = .name := by
  have none : Keyword.all.find? (fun k => s.mayCome (.keyword k) && k.spelling == n) = none := by
    refine List.find?_eq_none.mpr fun k _ found => free ⟨k, ?_⟩
    simpa using found
  rw [wordTerminal, none]

theorem wordTerminal_of_mayCome {k : Keyword} (comes : s.mayCome (.keyword k)) :
    wordTerminal s.mayCome k.spelling = .keyword k := by
  unfold wordTerminal
  split
  · next l found =>
    have same := List.find?_some found
    rw [Bool.and_eq_true, beq_iff_eq] at same
    rw [Keyword.spelling_injective same.2]
  · next none =>
    have missed := List.find?_eq_none.mp none k k.mem_all
    simp [comes] at missed

theorem readsWord_name {next : Position → Unfinished} (spelled : Terminal.name.spells n)
    (free : ¬s.Reserves n) (fed : ∀ p, s.feed ⟨.name, n, p⟩ = some (next p)) :
    s.ReadsWord n next := by
  intro last p gap rest hgap ends
  have comes : s.mayCome .name := mayCome_of_feed (Option.isSome_of_eq_some (fed p))
  rw [read_eq, Cursor.next_word hgap spelled comes ends, wordTerminal_of_not_reserves free]
  simp only [fed]

theorem readsWord_keyword {next : Position → Unfinished} {k : Keyword} (name : s.mayCome .name)
    (fed : ∀ p, s.feed ⟨.keyword k, k.spelling, p⟩ = some (next p)) :
    s.ReadsWord k.spelling next := by
  intro last p gap rest hgap ends
  have comes : s.mayCome (.keyword k) := mayCome_of_feed (Option.isSome_of_eq_some (fed p))
  rw [read_eq, Cursor.next_word hgap (keyword_spells_name k) name ends,
    wordTerminal_of_mayCome comes]
  simp only [fed]

/-! ### Declarations -/

/-- What is read where a name is declared, once its word has been read. -/
def Control.declared? (n : Name) : Control → Option Control
  | .functionName => some (.parametersOpen n)
  | .firstParameter function => some (.afterParameter function [n])
  | .nextParameter function parameters => some (.afterParameter function (parameters ++ [n]))
  | .variableName => some (.variableEqual n)
  | _ => none

/-- Nothing is reserved where a name is declared. -/
theorem readsWord_declared {control : Control} (spelled : Terminal.name.spells n)
    (declares : s.control.declared? n = some control) :
    s.ReadsWord n fun _ => s.goTo control := by
  obtain ⟨statements, levels, here, fault⟩ := s
  cases here <;> cases declares <;>
    exact readsWord_name spelled (fun ⟨k, comes, _⟩ => by cases k <;> cases comes) fun _ => rfl

/-! ### Operands -/

/-- The words that stand for literals where an operand may start. -/
def literalWords : List (Text × Literal) :=
  [(text "true", .boolean true), (text "false", .boolean false), (text "nil", .nil)]

/-- Where an operand may start, a word is a name unless it stands for a literal. -/
theorem readsWord_operand {goal : Goal} {frames : List Frame}
    (here : s.control = .operand goal frames) (spelled : Terminal.name.spells n)
    (free : ∀ l, (n, l) ∉ literalWords) :
    s.ReadsWord n fun p => s.goTo (.afterName goal frames n p) := by
  obtain ⟨statements, levels, control, fault⟩ := s
  obtain rfl : control = .operand goal frames := here
  refine readsWord_name spelled ?_ fun p => rfl
  rintro ⟨k, comes, rfl⟩
  cases k with
  | true_ => exact free (.boolean true) (by decide)
  | false_ => exact free (.boolean false) (by decide)
  | nil_ => exact free .nil (by decide)
  | _ => cases comes

theorem readsWord_literal {goal : Goal} {frames : List Frame}
    (here : s.control = .operand goal frames) {l : Literal} (word : (n, l) ∈ literalWords) :
    s.ReadsWord n fun p => s.goTo (.afterOperand goal frames ⟨.literal l, p⟩) := by
  obtain ⟨statements, levels, control, fault⟩ := s
  obtain rfl : control = .operand goal frames := here
  simp only [literalWords, List.mem_cons, List.not_mem_nil, or_false, Prod.mk.injEq] at word
  obtain ⟨rfl, rfl⟩ | ⟨rfl, rfl⟩ | ⟨rfl, rfl⟩ := word
  · exact readsWord_keyword (k := .true_) rfl fun _ => rfl
  · exact readsWord_keyword (k := .false_) rfl fun _ => rfl
  · exact readsWord_keyword (k := .nil_) rfl fun _ => rfl

theorem feed_afterName_of_ne {goal : Goal} {frames : List Frame} (p : Position) {token : Token}
    (paren : token.terminal ≠ .mark .leftParen) (equal : token.terminal ≠ .mark .equal) :
    (s.goTo (.afterName goal frames n p)).feed token =
      (s.goTo (.afterOperand goal frames ⟨.name n p, p⟩)).feed token := by
  change (s.goTo _).feedAfterName goal frames n p token = _
  rw [feedAfterName_of_ne _ _ _ n p paren equal]
  rfl

/-! ### Assignments -/

/-- A statement may start. -/
def StartsStatement (s : Unfinished) : Prop :=
  (∃ afterBrace, s.control = .statement afterBrace) ∨
    ∃ last earlier, s.control = .afterArm last earlier

/-- What has been read, where no `else` follows. -/
def settled (s : Unfinished) : Unfinished :=
  match s.control with
  | .afterArm last earlier => s.add (.stmt (branchOf last .nothing earlier)) true
  | _ => s

theorem mayCome_keyword (starts : s.StartsStatement) (k : Keyword) :
    s.mayCome (.keyword k) ↔ (k = .else_ → s.isAfterBrace) := by
  obtain ⟨statements, levels, control, fault⟩ := s
  obtain ⟨afterBrace, here⟩ | ⟨last, earlier, here⟩ := starts <;> obtain rfl := here
  · cases k with
    | else_ => exact ⟨fun comes _ => comes, fun behind => behind rfl⟩
    | _ => exact iff_of_true rfl nofun
  · exact iff_of_true (by cases k <;> rfl) fun _ => rfl

/-- Every keyword is reserved at the start of a statement, but `else` only behind a brace. -/
theorem reserves_iff_of_startsStatement (starts : s.StartsStatement) :
    s.Reserves n ↔ ∃ k : Keyword, k.spelling = n ∧ (k = .else_ → s.isAfterBrace) := by
  simp only [Reserves, mayCome_keyword starts, and_comm]

/-- At the start of a statement a word that is not reserved is the name that it is about. -/
theorem readsWord_statement (starts : s.StartsStatement) (spelled : Terminal.name.spells n)
    (free : ¬s.Reserves n) :
    s.ReadsWord n fun p => s.settled.goTo (.afterName .eval [] n p) := by
  refine readsWord_name spelled free fun p => ?_
  obtain ⟨statements, levels, control, fault⟩ := s
  obtain ⟨afterBrace, here⟩ | ⟨last, earlier, here⟩ := starts <;> obtain rfl := here <;> rfl

/-- Behind a keyword at the start of a statement there is no equality sign. -/
theorem feed_keyword_equal (starts : s.StartsStatement) (k : Keyword) (w v : Text)
    (p q : Position) : (s.feed ⟨.keyword k, w, p⟩).bind (·.feed ⟨.mark .equal, v, q⟩) = none := by
  obtain ⟨statements, levels, control, fault⟩ := s
  obtain ⟨afterBrace, here⟩ | ⟨last, earlier, here⟩ := starts <;> obtain rfl := here <;>
    cases k <;> rfl

theorem read_equal {gap rest : Text} (hgap : Gap gap)
    (single : rest.head? ≠ some (CodePoint.ofChar '=')) (s : Unfinished) (last p : Position) :
    s.read last ⟨gap ++ CodePoint.ofChar '=' :: rest, p⟩ =
      match s.feed ⟨.mark .equal, text "=", p.afterText gap⟩ with
      | some t => t.read (p.afterText gap)
          ⟨rest, (p.afterText gap).after (CodePoint.ofChar '=')⟩
      | none => .error (.unexpectedToken ⟨.mark .equal, text "=", p.afterText gap⟩) := by
  rewrite [read_eq, Cursor.next_equal hgap single]
  rfl

theorem mayCome_name_of_startsStatement (starts : s.StartsStatement) : s.mayCome .name := by
  obtain ⟨statements, levels, control, fault⟩ := s
  obtain ⟨afterBrace, here⟩ | ⟨last, earlier, here⟩ := starts <;> obtain rfl := here <;> rfl

section Equality
variable {gap between rest : Text} (hgap : Gap gap) (hbetween : Gap between)
variable (single : rest.head? ≠ some (CodePoint.ofChar '=')) (last p : Position)
include hgap hbetween single

/-- A word with an equality sign behind it at the start of a statement is the variable of an
assignment, if it is not reserved. -/
theorem read_assigned (starts : s.StartsStatement) (spelled : Terminal.name.spells n)
    (free : ¬s.Reserves n) :
    let here := p.afterText gap
    let equal := (here.afterText n).afterText between
    s.read last ⟨gap ++ (n ++ (between ++ CodePoint.ofChar '=' :: rest)), p⟩ =
      (s.settled.goTo (.operand (.assign n here) [])).read equal
        ⟨rest, equal.after (CodePoint.ofChar '=')⟩ := by
  intro here equal
  have ends : IsWordEnd (between ++ CodePoint.ofChar '=' :: rest) :=
    isWordEnd_of_gap hbetween (by decide) rest
  rw [readsWord_statement starts spelled free last p gap _ hgap ends, read_equal hbetween single]
  rfl

/-- A reserved word with an equality sign behind it is refused, or the equality sign is. -/
theorem read_reserved (starts : s.StartsStatement) (reserved : s.Reserves n) :
    ∃ token, s.read last ⟨gap ++ (n ++ (between ++ CodePoint.ofChar '=' :: rest)), p⟩ =
      .error (.unexpectedToken token) := by
  obtain ⟨k, comes, rfl⟩ := reserved
  have ends : IsWordEnd (between ++ CodePoint.ofChar '=' :: rest) :=
    isWordEnd_of_gap hbetween (by decide) rest
  rw [read_eq, Cursor.next_word hgap (keyword_spells_name k)
    (mayCome_name_of_startsStatement starts) ends, wordTerminal_of_mayCome comes]
  dsimp only
  cases fed : s.feed ⟨.keyword k, k.spelling, p.afterText gap⟩ with
  | none => exact ⟨_, rfl⟩
  | some t =>
      have refused (q : Position) : t.feed ⟨.mark .equal, text "=", q⟩ = none := by
        have refused := feed_keyword_equal starts k k.spelling (text "=") (p.afterText gap) q
        rwa [fed] at refused
      dsimp only
      rw [read_equal hbetween single, refused]
      exact ⟨_, rfl⟩

end Equality

end Unfinished

end Script
