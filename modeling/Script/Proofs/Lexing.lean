import Mathlib.Data.List.Basic
import Mathlib.Data.List.DropRight
import Script.Source.Lexeme

/-!
# Lexemes and gaps

Which texts stand for a terminal, which texts may stand between tokens, and that a source is read
accordingly: what is read is always a gap and a lexeme of the terminal that is found, and a lexeme
of a terminal that may come is found if white space or the end of the source follows.
-/

namespace Script

/-- Text that may stand between the quotation marks of a string on one line: a backslash takes
the next code point along. -/
def isStringBody : Text → Bool
  | [] => true
  | c :: rest =>
    if c = .backslash then
      match rest with
      | [] => false
      | d :: more => d != .lineFeed && isStringBody more
    else c != .quotationMark && c != .lineFeed && isStringBody rest

/-- Whether a text is a lexeme of a terminal. -/
def Terminal.spells : Terminal → Text → Bool
  | name, w =>
    match w with
    | [] => false
    | c :: rest => c.isNameStart && rest.all CodePoint.isNamePart
  | number, w => !w.isEmpty && w.all CodePoint.isDigit
  | string, w =>
    match w with
    | [] => false
    | c :: rest =>
      c == .quotationMark && rest.getLast? == some .quotationMark && isStringBody rest.dropLast
  | keyword k, w => w == k.spelling
  | mark m, w => w == m.spelling
  | endOfInput, _ => false

/-- White space and comments that end with their lines. -/
inductive Gap : Text → Prop
  | nil : Gap []
  | space {c : CodePoint} {t : Text} : c.isSpace → Gap t → Gap (c :: t)
  | comment {body t : Text} : (∀ c ∈ body, c ≠ .lineFeed) → Gap t →
      Gap (text "//" ++ body ++ .lineFeed :: t)

/-- What may stand behind the last token. A comment there may end with the source. -/
inductive LastGap : Text → Prop
  | gap {t : Text} : Gap t → LastGap t
  | comment {t body : Text} : Gap t → (∀ c ∈ body, c ≠ .lineFeed) →
      LastGap (t ++ (text "//" ++ body))

/-- What ends any lexeme before it: white space, or the end of the source. -/
def IsApart : Text → Prop
  | [] => True
  | c :: _ => c.isSpace

theorem Position.afterText_append (p : Position) (t u : Text) :
    p.afterText (t ++ u) = (p.afterText t).afterText u :=
  List.foldl_append

/-- The position behind a text: one line more than there are line feeds in it, and one column more
than there are code points in its last line. -/
theorem Position.start_afterText (t : Text) : Position.start.afterText t =
    ⟨t.count .lineFeed + 1, (t.rtakeWhile (· != .lineFeed)).length + 1⟩ := by
  induction t using List.reverseRecOn with
  | nil => rfl
  | append_singleton t c ih =>
      rw [Position.afterText_append, ih, List.rtakeWhile_concat, List.count_append]
      by_cases line : c = .lineFeed
      · subst line
        rfl
      · have other : (c != .lineFeed) = true := bne_iff_ne.mpr line
        have none : [c].count .lineFeed = 0 :=
          List.count_singleton.trans (if_neg (by simpa using line))
        rw [if_pos other, none, List.length_append]
        exact if_neg line

namespace CodePoint
variable {c : CodePoint}

theorem isSpace_iff :
    c.isSpace ↔ c.val = 9 ∨ c.val = 10 ∨ c.val = 12 ∨ c.val = 13 ∨ c.val = 32 := by
  simp only [isSpace, Bool.or_eq_true, decide_eq_true_eq, Fin.ext_iff, or_assoc]
  rfl

theorem isDigit_iff : c.isDigit ↔ 48 ≤ c.val ∧ c.val ≤ 57 := by
  simp [isDigit, isBetween]

theorem isNameStart_iff : c.isNameStart ↔
    (97 ≤ c.val ∧ c.val ≤ 122) ∨ (65 ≤ c.val ∧ c.val ≤ 90) ∨ c.val = 95 := by
  simp [isNameStart, isBetween, Fin.ext_iff, or_assoc]

end CodePoint

open CodePoint in
/-- A lexeme starts with no white space, nor with a slash unless it is one. -/
theorem Terminal.exists_of_spells {terminal : Terminal} {w : Text} (h : terminal.spells w) :
    ∃ c more, w = c :: more ∧ ¬ c.isSpace ∧ (c = CodePoint.ofChar '/' → more = []) := by
  cases terminal with
  | name =>
    rcases w with _ | ⟨c, more⟩
    · cases h
    · simp only [spells, Bool.and_eq_true, isNameStart_iff] at h
      refine ⟨c, more, rfl, ?_, ?_⟩
      · rw [isSpace_iff]
        omega
      · rintro rfl
        simp at h
  | number =>
    rcases w with _ | ⟨c, more⟩
    · cases h
    · simp only [spells, List.all_cons, Bool.and_eq_true, isDigit_iff] at h
      refine ⟨c, more, rfl, ?_, ?_⟩
      · rw [isSpace_iff]
        omega
      · rintro rfl
        simp at h
  | string =>
    rcases w with _ | ⟨c, more⟩
    · cases h
    · simp only [spells, Bool.and_eq_true, beq_iff_eq] at h
      obtain ⟨⟨rfl, -⟩, -⟩ := h
      exact ⟨_, more, rfl, by decide, fun slash => absurd slash (by decide)⟩
  | keyword k =>
    obtain rfl := beq_iff_eq.mp h
    cases k <;> exact ⟨_, _, rfl, by decide, by decide⟩
  | mark m =>
    obtain rfl := beq_iff_eq.mp h
    cases m <;> exact ⟨_, _, rfl, by decide, by decide⟩
  | endOfInput => cases h

section Gaps
variable {t u : Text}

theorem Gap.append (ht : Gap t) (hu : Gap u) : Gap (t ++ u) := by
  induction ht with
  | nil => exact hu
  | space space _ ih => exact .space space ih
  | comment body _ ih =>
    rw [List.append_assoc]
    exact .comment body ih

theorem LastGap.append (ht : Gap t) (hu : LastGap u) : LastGap (t ++ u) := by
  cases hu with
  | gap hu => exact .gap (ht.append hu)
  | comment hu body =>
    rw [← List.append_assoc]
    exact .comment (ht.append hu) body

mutual

/-- What is skipped is a gap, or the last gap of the source. -/
theorem skipGap_sound (p : Position) (t : Text) : ∃ gap,
    t = gap ++ (skipGap p t).rest ∧ (skipGap p t).position = p.afterText gap ∧
      (Gap gap ∨ (skipGap p t).rest = [] ∧ LastGap gap) := by
  match t with
  | [] => exact ⟨[], rfl, rfl, .inl .nil⟩
  | c :: rest =>
    rw [skipGap.eq_def]
    dsimp only
    split
    · next space =>
      obtain ⟨gap, same, position, form⟩ := skipGap_sound (p.after c) rest
      refine ⟨c :: gap, by rw [List.cons_append, ← same], position, ?_⟩
      rcases form with form | ⟨last, form⟩
      · exact .inl (.space space form)
      · exact .inr ⟨last, .append (.space space .nil) form⟩
    · split
      · next slash =>
        subst slash
        match rest with
        | [] => exact ⟨[], rfl, rfl, .inl .nil⟩
        | d :: more =>
          dsimp only
          split
          · next slash =>
            subst slash
            obtain ⟨body, line, ⟨gap, same, position, form⟩ | ⟨same, last, position⟩⟩ :=
              skipComment_sound ((p.after (CodePoint.ofChar '/')).after (CodePoint.ofChar '/')) more
            · refine ⟨text "//" ++ body ++ .lineFeed :: gap, ?_, ?_, ?_⟩
              · conv_lhs => rw [same]
                simp [text]
              · rw [position]
                simp [text, Position.afterText]
              · rcases form with form | ⟨last, form⟩
                · exact .inl (.comment line form)
                · refine .inr ⟨last, ?_⟩
                  have closed := LastGap.append (Gap.comment line .nil) form
                  rwa [List.append_assoc] at closed ⊢
            · refine ⟨text "//" ++ body, ?_, ?_, .inr ⟨last, .comment .nil line⟩⟩
              · rw [last, ← same]
                simp [text]
              · rw [position]
                simp [text, Position.afterText]
          · exact ⟨[], rfl, rfl, .inl .nil⟩
      · exact ⟨[], rfl, rfl, .inl .nil⟩

theorem skipComment_sound (p : Position) (t : Text) : ∃ body, (∀ c ∈ body, c ≠ .lineFeed) ∧
    ((∃ gap, t = body ++ .lineFeed :: (gap ++ (skipComment p t).rest) ∧
        (skipComment p t).position = p.afterText (body ++ .lineFeed :: gap) ∧
        (Gap gap ∨ (skipComment p t).rest = [] ∧ LastGap gap)) ∨
      t = body ∧ (skipComment p t).rest = [] ∧ (skipComment p t).position = p.afterText body) := by
  match t with
  | [] => exact ⟨[], nofun, .inr ⟨rfl, rfl, rfl⟩⟩
  | c :: rest =>
    rw [skipComment]
    split
    · next line =>
      subst line
      obtain ⟨gap, same, position, form⟩ := skipGap_sound (p.after .lineFeed) rest
      exact ⟨[], nofun, .inl ⟨gap, by rw [List.nil_append, ← same], position, form⟩⟩
    · next other =>
      obtain ⟨body, line, ⟨gap, same, position, form⟩ | ⟨same, last, position⟩⟩ :=
        skipComment_sound (p.after c) rest
      · exact ⟨c :: body, List.forall_mem_cons.mpr ⟨other, line⟩,
          .inl ⟨gap, by rw [List.cons_append, ← same], position, form⟩⟩
      · exact ⟨c :: body, List.forall_mem_cons.mpr ⟨other, line⟩,
          .inr ⟨by rw [← same], last, position⟩⟩

end

theorem skipComment_append {body : Text} (line : ∀ c ∈ body, c ≠ .lineFeed) (p : Position)
    (t : Text) : skipComment p (body ++ .lineFeed :: t) =
      skipGap (p.afterText (body ++ [.lineFeed])) t := by
  induction body generalizing p with
  | nil => simp [skipComment, Position.afterText]
  | cons c body ih =>
    obtain ⟨other, line⟩ := List.forall_mem_cons.mp line
    rw [List.cons_append, skipComment, if_neg other]
    exact ih line _

theorem skipGap_append {gap : Text} (h : Gap gap) (p : Position) (t : Text) :
    skipGap p (gap ++ t) = skipGap (p.afterText gap) t := by
  induction h generalizing p with
  | nil => rfl
  | @space c gap space _ ih =>
    rw [List.cons_append, skipGap.eq_def]
    simp only [space, if_true]
    exact ih _
  | @comment body gap line _ ih =>
    have open_ (u : Text) :
        skipGap p (text "//" ++ u) = skipComment (p.afterText (text "//")) u := by
      rw [text, skipGap.eq_def]
      rfl
    rw [List.append_assoc, List.append_assoc, open_, List.cons_append, skipComment_append line, ih,
      ← Position.afterText_append, ← Position.afterText_append]
    simp

theorem skipGap_of_spells {terminal : Terminal} {w rest : Text} (h : terminal.spells w)
    (apart : IsApart rest) (p : Position) : skipGap p (w ++ rest) = ⟨w ++ rest, p⟩ := by
  obtain ⟨c, more, rfl, other, slash⟩ := terminal.exists_of_spells h
  rw [List.cons_append, skipGap.eq_def]
  dsimp only
  rw [if_neg other]
  split
  · next same =>
    obtain rfl := slash same
    rcases rest with _ | ⟨d, rest⟩
    · rfl
    · have space : d.isSpace := apart
      have otherwise_ : d ≠ CodePoint.ofChar '/' := by
        rintro rfl
        cases space
      simp [otherwise_]
  · rfl

end Gaps

section Lexemes
variable {mayCome : Terminal → Bool}

theorem closeString?_cons (c : CodePoint) (rest : Text) : closeString? (c :: rest) =
    if c = .quotationMark then some [c]
    else if c = .lineFeed then none
    else if c = .backslash then
      match rest with
      | [] => none
      | d :: more => if d = .lineFeed then none else (closeString? more).map (c :: d :: ·)
    else (closeString? rest).map (c :: ·) :=
  closeString?.eq_def _

theorem closeString?_append {body : Text} (h : isStringBody body) (rest : Text) :
    closeString? (body ++ .quotationMark :: rest) = some (body ++ [.quotationMark]) := by
  fun_induction isStringBody body with
  | case1 => rw [List.nil_append, closeString?_cons, if_pos rfl, List.nil_append]
  | case2 => cases h
  | case3 d more ih =>
    simp only [Bool.and_eq_true, bne_iff_ne] at h
    rw [List.cons_append, closeString?_cons, if_neg (by decide), if_neg (by decide), if_pos rfl]
    simp [h.1, ih h.2]
  | case4 c more other ih =>
    simp only [Bool.and_eq_true, bne_iff_ne] at h
    rw [List.cons_append, closeString?_cons, if_neg h.1.1, if_neg h.1.2, if_neg other, ih h.2]
    rfl

theorem exists_of_closeString? {t closed : Text} (h : closeString? t = some closed) :
    ∃ body rest, closed = body ++ [.quotationMark] ∧ isStringBody body ∧ t = closed ++ rest := by
  fun_induction closeString? t generalizing closed with
  | case2 rest =>
    cases h
    exact ⟨[], rest, rfl, rfl, rfl⟩
  | case6 d more line _ _ ih =>
    obtain ⟨inner, hinner, rfl⟩ := Option.map_eq_some_iff.mp h
    obtain ⟨body, rest, rfl, form, rfl⟩ := ih hinner
    refine ⟨.backslash :: d :: body, rest, rfl, ?_, rfl⟩
    rw [isStringBody.eq_def]
    simp [line, form]
  | case7 c more quote line slash ih =>
    obtain ⟨inner, hinner, rfl⟩ := Option.map_eq_some_iff.mp h
    obtain ⟨body, rest, rfl, form, rfl⟩ := ih hinner
    refine ⟨c :: body, rest, rfl, ?_, rfl⟩
    rw [isStringBody.eq_def]
    simp [slash, quote, line, form]
  | _ => cases h

/-- Among the fixed spellings at the front of one of them, the first that is listed is itself. -/
theorem find?_isPrefixOf : ∀ f ∈ fixedTerminals,
    fixedTerminals.find? (fun g => g.2.isPrefixOf f.2) = some f := by
  decide +kernel

theorem all_fixedTerminals_not_isSpace :
    fixedTerminals.all fun f => f.2.all fun c => !c.isSpace := by
  decide +kernel

theorem mem_fixedTerminals_keyword (k : Keyword) :
    (Terminal.keyword k, k.spelling) ∈ fixedTerminals := by
  cases k <;> decide

theorem mem_fixedTerminals_mark (m : Mark) : (Terminal.mark m, m.spelling) ∈ fixedTerminals := by
  cases m <;> decide

/-- A fixed spelling that stands at the front of another one and what follows it stands at the front
of the other one. -/
theorem isPrefixOf_of_append {f g : Terminal × Text} (hg : g ∈ fixedTerminals) {rest : Text}
    (apart : IsApart rest) (h : g.2 <+: f.2 ++ rest) : g.2 <+: f.2 := by
  rcases List.prefix_or_prefix_of_prefix h (List.prefix_append f.2 rest) with short | ⟨more, same⟩
  · exact short
  · rw [← same, List.prefix_append_right_inj] at h
    rcases more with _ | ⟨c, more⟩
    · exact ⟨[], by simp [← same]⟩
    · obtain ⟨tail, rfl⟩ := h
      have space : c.isSpace := apart
      have none := List.all_eq_true.mp (List.all_eq_true.mp all_fixedTerminals_not_isSpace g hg) c
        (by simp [← same])
      simp [space] at none

theorem find?_fixedTerminals {f : Terminal × Text} (hf : f ∈ fixedTerminals)
    (comes : mayCome f.1) {rest : Text} (apart : IsApart rest) :
    fixedTerminals.find? (fun g => mayCome g.1 && g.2.isPrefixOf (f.2 ++ rest)) = some f := by
  obtain ⟨-, front, back, split, before⟩ :=
    List.find?_eq_some_iff_append.mp (find?_isPrefixOf f hf)
  refine List.find?_eq_some_iff_append.mpr ⟨?_, front, back, split, fun g hg => ?_⟩
  · simp [comes, List.isPrefixOf_iff_prefix]
  · have mem : g ∈ fixedTerminals := by
      rw [split]
      exact List.mem_append_left _ hg
    have long : ¬ g.2 <+: f.2 ++ rest := by
      intro h
      have short := List.isPrefixOf_iff_prefix.mpr (isPrefixOf_of_append mem apart h)
      have other := before g hg
      simp [short] at other
    simp only [← List.isPrefixOf_iff_prefix] at long
    simp [long]

theorem takeWhile_append_of_isApart {p : CodePoint → Bool} (ends : ∀ c, c.isSpace → p c = false)
    {w rest : Text} (all : w.all p) (apart : IsApart rest) : (w ++ rest).takeWhile p = w := by
  rw [List.takeWhile_append_of_pos (List.all_eq_true.mp all)]
  rcases rest with _ | ⟨c, rest⟩
  · simp
  · rw [List.takeWhile_cons_of_neg (by simp [ends c apart]), List.append_nil]

theorem isSpace_not_isNameStart {c : CodePoint} (h : c.isSpace) : c.isNameStart = false := by
  rw [← Bool.not_eq_true, CodePoint.isNameStart_iff]
  rw [CodePoint.isSpace_iff] at h
  omega

theorem isSpace_not_isDigit {c : CodePoint} (h : c.isSpace) : c.isDigit = false := by
  rw [← Bool.not_eq_true, CodePoint.isDigit_iff]
  rw [CodePoint.isSpace_iff] at h
  omega

theorem isSpace_not_isNamePart {c : CodePoint} (h : c.isSpace) : c.isNamePart = false := by
  simp [CodePoint.isNamePart, isSpace_not_isNameStart h, isSpace_not_isDigit h]

theorem isDigit_not_isNameStart {c : CodePoint} (h : c.isDigit) : c.isNameStart = false := by
  rw [← Bool.not_eq_true, CodePoint.isNameStart_iff]
  rw [CodePoint.isDigit_iff] at h
  omega

theorem keyword_spells_name (k : Keyword) : Terminal.name.spells k.spelling := by
  cases k <;> decide

/-- A word that may be a name is one, or a keyword that may come. -/
theorem lexeme?_word {w rest : Text} (h : Terminal.name.spells w) (comes : mayCome .name)
    (apart : IsApart rest) : lexeme? mayCome (w ++ rest) = some (wordTerminal mayCome w, w) := by
  rcases w with _ | ⟨c, more⟩
  · cases h
  · simp only [Terminal.spells, Bool.and_eq_true] at h
    rw [List.cons_append, lexeme?]
    simp [h.1, comes, takeWhile_append_of_isApart (fun c => isSpace_not_isNamePart) h.2 apart]

/-- Where no name may come, a keyword that may come is found like a mark. -/
theorem lexeme?_fixed {f : Terminal × Text} (hf : f ∈ fixedTerminals) (comes : mayCome f.1)
    {rest : Text} (apart : IsApart rest) (other : ∀ c more, f.2 = c :: more →
      (c.isNameStart && mayCome .name) = false ∧ c.isDigit = false ∧ c ≠ .quotationMark) :
    lexeme? mayCome (f.2 ++ rest) = some f := by
  have found := find?_fixedTerminals hf comes apart
  rcases same : f.2 with _ | ⟨c, more⟩
  · exact absurd same (fixedTerminals_ne_nil (t := f.1) hf)
  · obtain ⟨name, digit, quote⟩ := other c more same
    rw [same, List.cons_append] at found
    rw [List.cons_append, lexeme?, found]
    simp [name, digit, quote]

/-- A lexeme of a terminal that may come is found, unless it is a name that is spelled like a
keyword that may come. -/
theorem lexeme?_append {terminal : Terminal} {w rest : Text} (h : terminal.spells w)
    (comes : mayCome terminal)
    (free : terminal = .name → ∀ k, mayCome (.keyword k) → k.spelling ≠ w)
    (apart : IsApart rest) : lexeme? mayCome (w ++ rest) = some (terminal, w) := by
  cases terminal with
  | name =>
    have none : Keyword.all.find? (fun k => mayCome (.keyword k) && k.spelling == w) = none := by
      refine List.find?_eq_none.mpr fun k _ => ?_
      simpa using free rfl k
    rw [lexeme?_word h comes apart, wordTerminal, none]
  | number =>
    rcases w with _ | ⟨c, more⟩
    · cases h
    · simp only [Terminal.spells, List.all_cons, Bool.and_eq_true] at h
      rw [List.cons_append, lexeme?]
      simp [isDigit_not_isNameStart h.2.1, h.2.1, comes,
        takeWhile_append_of_isApart (fun c => isSpace_not_isDigit) h.2.2 apart]
  | string =>
    rcases w with _ | ⟨c, more⟩
    · cases h
    · simp only [Terminal.spells, Bool.and_eq_true, beq_iff_eq] at h
      obtain ⟨⟨rfl, last⟩, body⟩ := h
      have same : more = more.dropLast ++ [.quotationMark] :=
        (List.dropLast_append_getLast? _ last).symm
      have closed : closeString? (more ++ rest) = some more := by
        rw [same, List.append_assoc]
        exact closeString?_append body rest
      rw [List.cons_append, lexeme?, closed]
      simp [show CodePoint.isNameStart .quotationMark = false by decide,
        show CodePoint.isDigit .quotationMark = false by decide, comes]
  | keyword k =>
    obtain rfl := beq_iff_eq.mp h
    by_cases name : mayCome .name
    · have found : Keyword.all.find? (fun l => mayCome (.keyword l) && l.spelling == k.spelling) =
          some k := by
        have here : Keyword.all.find? (fun l => l.spelling == k.spelling) = some k := by
          cases k <;> cbv
        obtain ⟨-, front, back, split, before⟩ := List.find?_eq_some_iff_append.mp here
        refine List.find?_eq_some_iff_append.mpr ⟨by simp [comes], front, back, split, ?_⟩
        intro l hl
        have other := before l hl
        simp_all
      rw [lexeme?_word (keyword_spells_name k) name apart, wordTerminal, found]
    · refine lexeme?_fixed (mem_fixedTerminals_keyword k) comes apart fun c more same => ?_
      have start : k.spelling.head?.all fun c => !c.isDigit && c != .quotationMark := by
        cases k <;> decide
      dsimp only at same
      rw [same] at start
      simpa [name] using start
  | mark m =>
    obtain rfl := beq_iff_eq.mp h
    refine lexeme?_fixed (mem_fixedTerminals_mark m) comes apart fun c more same => ?_
    have start : m.spelling.head?.all fun c =>
        !c.isNameStart && !c.isDigit && c != .quotationMark := by
      cases m <;> decide
    dsimp only at same
    rw [same] at start
    simp only [List.head?_cons, Option.all_some, Bool.and_eq_true, Bool.not_eq_true',
      bne_iff_ne] at start
    simp [start]
  | endOfInput => cases h

theorem spells_of_mem_fixedTerminals : ∀ f ∈ fixedTerminals, f.1.spells f.2 := by
  decide +kernel

/-- The first character of a text decides, with the terminals that may come, what is found there: a
word, a number, a string, or one of the terminals of one spelling. -/
theorem lexeme?_cons_cases (mayCome : Terminal → Bool) (c : CodePoint) :
    (c.isNameStart ∧ ∀ t, lexeme? mayCome (c :: t) =
      some (wordTerminal mayCome (c :: t.takeWhile CodePoint.isNamePart),
        c :: t.takeWhile CodePoint.isNamePart)) ∨
    (c.isDigit ∧ ∀ t, lexeme? mayCome (c :: t) =
      some (.number, c :: t.takeWhile CodePoint.isDigit)) ∨
    (c = .quotationMark ∧ ∀ t, lexeme? mayCome (c :: t) =
      (closeString? t).map fun body => (.string, c :: body)) ∨
    ∀ t, lexeme? mayCome (c :: t) =
      fixedTerminals.find? fun f => mayCome f.1 && f.2.isPrefixOf (c :: t) := by
  by_cases name : c.isNameStart && mayCome .name
  · exact .inl ⟨(Bool.and_eq_true_iff.mp name).1, fun t => if_pos name⟩
  by_cases digit : c.isDigit && mayCome .number
  · refine .inr (.inl ⟨(Bool.and_eq_true_iff.mp digit).1, fun t => ?_⟩)
    exact (if_neg name).trans (if_pos digit)
  by_cases quote : c == .quotationMark && mayCome .string
  · refine .inr (.inr (.inl ⟨beq_iff_eq.mp (Bool.and_eq_true_iff.mp quote).1, fun t => ?_⟩))
    exact (if_neg name).trans ((if_neg digit).trans (if_pos quote))
  · exact .inr (.inr (.inr fun t => (if_neg name).trans ((if_neg digit).trans (if_neg quote))))

theorem spells_of_lexeme? {t w : Text} {terminal : Terminal}
    (h : lexeme? mayCome t = some (terminal, w)) : terminal.spells w ∧ ∃ rest, t = w ++ rest := by
  rcases t with _ | ⟨c, rest⟩
  · cases h
  obtain ⟨start, found⟩ | ⟨digit, found⟩ | ⟨quote, found⟩ | found := lexeme?_cons_cases mayCome c
  · rw [found] at h
    obtain ⟨rfl, rfl⟩ := Prod.mk.inj (Option.some.inj h)
    refine ⟨?_, rest.dropWhile CodePoint.isNamePart, ?_⟩
    · unfold wordTerminal
      split
      · next k found =>
        have same := List.find?_some found
        simp only [Bool.and_eq_true, beq_iff_eq] at same
        simp [Terminal.spells, same.2]
      · simp only [Terminal.spells, start, Bool.true_and]
        exact List.all_takeWhile
    · rw [List.cons_append, List.takeWhile_append_dropWhile]
  · rw [found] at h
    obtain ⟨rfl, rfl⟩ := Prod.mk.inj (Option.some.inj h)
    refine ⟨?_, rest.dropWhile CodePoint.isDigit, ?_⟩
    · simp only [Terminal.spells, List.all_cons, digit, Bool.true_and]
      exact List.all_takeWhile
    · rw [List.cons_append, List.takeWhile_append_dropWhile]
  · rw [found] at h
    obtain ⟨closed, hclosed, same⟩ := Option.map_eq_some_iff.mp h
    obtain ⟨rfl, rfl⟩ := Prod.mk.inj same
    obtain ⟨body, tail, rfl, form, rfl⟩ := exists_of_closeString? hclosed
    refine ⟨?_, tail, rfl⟩
    simp [Terminal.spells, quote, form]
  · rw [found] at h
    have mem := List.mem_of_find?_eq_some h
    have front := List.find?_some h
    simp only [Bool.and_eq_true, List.isPrefixOf_iff_prefix] at front
    obtain ⟨tail, same⟩ := front.2
    exact ⟨spells_of_mem_fixedTerminals _ mem, tail, same.symm⟩

end Lexemes

namespace Cursor
variable {mayCome : Terminal → Bool} {place next : Cursor} {token : Token}

theorem next_sound (h : place.next mayCome = .token token next) :
    token.terminal.spells token.lexeme ∧ ∃ gap, Gap gap ∧
      place.rest = gap ++ (token.lexeme ++ next.rest) ∧
      token.position = place.position.afterText gap ∧
      next.position = token.position.afterText token.lexeme := by
  obtain ⟨gap, same, position, form⟩ := skipGap_sound place.position place.rest
  unfold Cursor.next at h
  dsimp only at h
  split at h
  · cases h
  · next c more here =>
    split at h
    · next terminal lexeme found =>
      obtain ⟨rfl, rfl⟩ := Lexed.token.inj h
      have lexed : terminal.spells lexeme ∧
          ∃ rest, (skipGap place.position place.rest).rest = lexeme ++ rest := by
        rcases Option.or_eq_some_iff.mp found with found | ⟨-, found⟩
        · exact spells_of_lexeme? found
        · exact spells_of_lexeme? found
      obtain ⟨spells, rest, front⟩ := lexed
      refine ⟨spells, gap, ?_, ?_, position, rfl⟩
      · rcases form with form | ⟨last, -⟩
        · exact form
        · rw [last] at here
          cases here
      · dsimp only
        rw [front, List.drop_left]
        rwa [front] at same
    · cases h

theorem next_finished (h : place.next mayCome = .finished) : LastGap place.rest := by
  obtain ⟨gap, same, -, form⟩ := skipGap_sound place.position place.rest
  unfold Cursor.next at h
  dsimp only at h
  split at h
  · next here =>
    rw [here, List.append_nil] at same
    rw [same]
    rcases form with form | ⟨-, form⟩
    · exact .gap form
    · exact form
  · split at h <;> cases h

theorem next_gap {gap : Text} (h : Gap gap) (p : Position) :
    Cursor.next mayCome ⟨gap, p⟩ = .finished := by
  have skipped := skipGap_append h p []
  rw [List.append_nil] at skipped
  unfold Cursor.next
  rw [skipped, skipGap]

theorem next_append {terminal : Terminal} {gap w rest : Text} (hgap : Gap gap)
    (h : terminal.spells w) (comes : mayCome terminal)
    (free : terminal = .name → ∀ k, mayCome (.keyword k) → k.spelling ≠ w) (apart : IsApart rest)
    (p : Position) : Cursor.next mayCome ⟨gap ++ (w ++ rest), p⟩ =
      .token ⟨terminal, w, p.afterText gap⟩ ⟨rest, (p.afterText gap).afterText w⟩ := by
  have found := lexeme?_append h comes free apart
  have skipped : skipGap p (gap ++ (w ++ rest)) = ⟨w ++ rest, p.afterText gap⟩ := by
    rw [skipGap_append hgap, skipGap_of_spells h apart]
  obtain ⟨c, more, rfl, -, -⟩ := terminal.exists_of_spells h
  rw [List.cons_append] at found skipped
  unfold Cursor.next
  simp only [List.cons_append, skipped, found, Option.some_or]
  rw [← List.cons_append, List.drop_left]

end Cursor

end Script
