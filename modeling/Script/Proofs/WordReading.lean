import Script.Proofs.Effects

/-!
# Reading words

Words are what stands between blanks. The reader of words gives them in order, with an empty text
for every line without one, but it drops the code point that follows a carriage return behind a
word, whether that code point is the line feed of a line end or not. So reading an input to its end
gives the words of what is heeded of it, and those are all of its words unless a carriage return
stands alone between two others.
-/

namespace Script

open CodePoint (isBlank_lineFeed isBlank_carriageReturn)

namespace Text

/-- The maximal pieces of a text without blanks. -/
def words (t : Text) : List Text :=
  (t.splitOnP CodePoint.isBlank).filter (· ≠ [])

/-- The code points of a text that are no blanks. -/
def solids (t : Text) : Text :=
  t.filter fun c => !c.isBlank

theorem words_append_blank {c : CodePoint} (blank : c.isBlank) (front back : Text) :
    words (front ++ c :: back) = words front ++ words back := by
  unfold words
  rw [List.splitOnP_append_cons front back blank, List.filter_append]

theorem words_cons_blank {c : CodePoint} (blank : c.isBlank) (t : Text) :
    words (c :: t) = words t := by
  have split := words_append_blank blank [] t
  rwa [List.nil_append, show words [] = [] from rfl, List.nil_append] at split

theorem words_of_solid {t : Text} (solid : ∀ c ∈ t, ¬c.isBlank) :
    words t = [t].filter (· ≠ []) := by
  unfold words
  rw [List.splitOnP_eq_singleton fun c mem => by simpa using solid c mem]

theorem flatten_filter_ne_nil (parts : List Text) :
    (parts.filter (· ≠ [])).flatten = parts.flatten := by
  induction parts with
  | nil => rfl
  | cons part parts ih => cases part <;> simpa using ih

/-- Every code point that is no blank belongs to exactly one word. -/
theorem flatten_words (t : Text) : t.words.flatten = t.solids := by
  unfold words
  rw [flatten_filter_ne_nil]
  induction t with
  | nil => rfl
  | cons c t ih =>
      obtain ⟨first, others, cut⟩ :=
        List.exists_cons_of_ne_nil (List.splitOnP_ne_nil CodePoint.isBlank t)
      rw [cut] at ih
      rw [List.splitOnP_cons_eq_if_modifyHead, cut]
      by_cases blank : c.isBlank
      · simpa [solids, blank] using ih
      · simpa [solids, blank] using ih

/-- What the reader of words heeds of a text, in the middle of a word or not. Behind a carriage
return that ends a word, one code point is dropped. -/
def heeded (inWord : Bool) : Text → Text
  | [] => []
  | [c] => [c]
  | c :: d :: rest =>
    if inWord ∧ c = .carriageReturn then c :: heeded false rest
    else c :: heeded (!c.isBlank) (d :: rest)

theorem heeded_cons {inWord : Bool} {c : CodePoint} (t : Text)
    (goes : ¬(inWord ∧ c = .carriageReturn)) :
    heeded inWord (c :: t) = c :: heeded (!c.isBlank) t := by
  cases t with
  | nil => rfl
  | cons d rest => rw [heeded, if_neg goes]

theorem heeded_blank {inWord : Bool} {c : CodePoint} (t : Text) (blank : c.isBlank)
    (goes : ¬(inWord ∧ c = .carriageReturn)) :
    heeded inWord (c :: t) = c :: heeded false t := by
  rw [heeded_cons t goes, blank, Bool.not_true]

theorem words_heeded_blank {c : CodePoint} (t : Text) (blank : c.isBlank) :
    words (heeded false (c :: t)) = words (heeded false t) := by
  rw [heeded_blank t blank (by simp), words_cons_blank blank]

/-! ### What is dropped -/

/-- Two code points that are no blanks, with nothing but a carriage return between them. -/
def Abrupt (t : Text) : Prop :=
  ∃ a b : CodePoint, ¬a.isBlank ∧ ¬b.isBlank ∧ [a, .carriageReturn, b] <:+: t

/-- The reader of words drops a code point of the text that is no blank. -/
def Loses (inWord : Bool) (t : Text) : Prop :=
  (inWord ∧ ∃ b : CodePoint, ¬b.isBlank ∧ [.carriageReturn, b] <+: t) ∨ t.Abrupt

theorem abrupt_cons {c : CodePoint} {t : Text} : Abrupt (c :: t) ↔ Loses (!c.isBlank) t := by
  constructor
  · rintro ⟨a, b, solidA, solidB, inside⟩
    rcases List.infix_cons_iff.mp inside with front | inside
    · obtain ⟨rfl, behind⟩ := List.cons_prefix_cons.mp front
      exact .inl ⟨by simpa using solidA, b, solidB, behind⟩
    · exact .inr ⟨a, b, solidA, solidB, inside⟩
  · rintro (⟨solid, b, solidB, front⟩ | ⟨a, b, solidA, solidB, inside⟩)
    · refine ⟨c, b, by simpa using solid, solidB, ?_⟩
      exact (List.cons_prefix_cons.mpr ⟨rfl, front⟩).isInfix
    · exact ⟨a, b, solidA, solidB, List.infix_cons inside⟩

theorem loses_cons {inWord : Bool} {c : CodePoint} {t : Text}
    (goes : ¬(inWord ∧ c = .carriageReturn)) :
    Loses inWord (c :: t) ↔ Loses (!c.isBlank) t := by
  rw [← abrupt_cons]
  refine or_iff_right ?_
  rintro ⟨word, b, -, front⟩
  exact goes ⟨word, (List.cons_prefix_cons.mp front).1.symm⟩

theorem loses_false {t : Text} : Loses false t ↔ t.Abrupt :=
  or_iff_right (by simp)

theorem abrupt_cons_blank {c : CodePoint} {t : Text} (blank : c.isBlank) :
    Abrupt (c :: t) ↔ t.Abrupt := by
  rw [abrupt_cons, blank, Bool.not_true, loses_false]

/-- The code point behind a carriage return that ends a word is dropped. -/
theorem loses_carriageReturn {d : CodePoint} {rest : Text} :
    Loses true (.carriageReturn :: d :: rest) ↔ ¬d.isBlank ∨ Loses false rest := by
  by_cases blank : d.isBlank
  · rw [loses_false, or_iff_right (not_not.mpr blank), ← abrupt_cons_blank blank,
      ← abrupt_cons_blank isBlank_carriageReturn]
    refine or_iff_right ?_
    rintro ⟨-, b, solid, front⟩
    obtain ⟨-, behind⟩ := List.cons_prefix_cons.mp front
    obtain ⟨rfl, -⟩ := List.cons_prefix_cons.mp behind
    exact solid blank
  · exact iff_of_true (.inl ⟨rfl, d, blank, List.prefix_append _ rest⟩) (.inl blank)

/-- A text that loses nothing keeps its words. -/
theorem words_append_heeded {inWord : Bool} {t : Text} (keeps : ¬Loses inWord t) (front : Text) :
    words (front ++ heeded inWord t) = words (front ++ t) := by
  fun_induction heeded inWord t generalizing front with
  | case1 => rfl
  | case2 => rfl
  | case3 inWord c d rest ends ih =>
      obtain ⟨rfl, rfl⟩ := ends
      obtain ⟨blank, keeps⟩ := not_or.mp (mt loses_carriageReturn.mpr keeps)
      have rest_eq := ih keeps []
      rw [words_append_blank isBlank_carriageReturn,
        words_append_blank isBlank_carriageReturn,
        words_cons_blank (not_not.mp blank)]
      exact congrArg (words front ++ ·) rest_eq
  | case4 inWord c d rest goes ih =>
      have next := ih (mt (loses_cons goes).mpr keeps) (front ++ [c])
      simpa only [List.append_assoc, List.singleton_append] using next

theorem length_solids_cons (c : CodePoint) (t : Text) :
    (solids (c :: t)).length = (if c.isBlank then 0 else 1) + t.solids.length := by
  unfold solids
  rw [List.filter_cons]
  by_cases blank : c.isBlank <;> simp [blank, Nat.add_comm]

theorem length_solids_heeded_le (inWord : Bool) (t : Text) :
    (solids (heeded inWord t)).length ≤ t.solids.length := by
  fun_induction heeded inWord t with
  | case1 => exact Nat.le_refl _
  | case2 => exact Nat.le_refl _
  | case3 inWord c d rest _ ih =>
      simp only [length_solids_cons]
      omega
  | case4 inWord c d rest _ ih =>
      rw [length_solids_cons c, length_solids_cons c]
      omega

theorem two_le_length_of_loses {inWord : Bool} {t : Text} (loses : Loses inWord t) :
    2 ≤ t.length := by
  obtain ⟨-, b, -, front⟩ | ⟨a, b, -, -, inside⟩ := loses
  · exact front.length_le
  · exact Nat.le_of_succ_le inside.length_le

/-- A text that loses something is heeded for fewer code points than it has. -/
theorem length_solids_heeded_lt {inWord : Bool} {t : Text} (loses : Loses inWord t) :
    (solids (heeded inWord t)).length < t.solids.length := by
  fun_induction heeded inWord t with
  | case1 | case2 => exact absurd (two_le_length_of_loses loses) (by simp)
  | case3 inWord c d rest ends ih =>
      obtain ⟨rfl, rfl⟩ := ends
      simp only [length_solids_cons]
      rcases loses_carriageReturn.mp loses with solid | loses
      · have le := length_solids_heeded_le false rest
        rw [if_neg solid]
        omega
      · have lt := ih loses
        omega
  | case4 inWord c d rest goes ih =>
      have lt := ih ((loses_cons goes).mp loses)
      rw [length_solids_cons c, length_solids_cons c]
      omega

end Text

namespace Input

/-- What the reader has of a word, and the words of what it heeds behind that, are the word that it
gives and the words of what it heeds later. -/
theorem words_readWordFrom (fault : Option InputFault) {word : Text} (t : Text)
    (solid : ∀ c ∈ word, ¬c.isBlank) :
    Text.words (word.reverse ++ t.heeded (!word.isEmpty)) =
      [(readWordFrom fault word t).result].filter (· ≠ []) ++
        Text.words ((readWordFrom fault word t).rest.heeded false) := by
  have ended {word : Text} (solid : ∀ c ∈ word, ¬c.isBlank) {c : CodePoint} (blank : c.isBlank)
      (behind : Text) : Text.words (word.reverse ++ c :: behind) =
        [word.reverse].filter (· ≠ []) ++ Text.words behind := by
    rw [Text.words_append_blank blank,
      Text.words_of_solid fun c mem => solid c (List.mem_reverse.mp mem)]
  fun_induction readWordFrom fault word t with
  | case1 word =>
      change Text.words (word.reverse ++ []) = _ ++ []
      rw [List.append_nil, List.append_nil,
        Text.words_of_solid fun c mem => solid c (List.mem_reverse.mp mem)]
  | case2 word => exact ended solid isBlank_carriageReturn []
  | case3 word d more ends =>
      -- what stands behind the carriage return is taken with it, and if it is lost it is not heeded
      cases word with
      | nil =>
          obtain rfl : d = .lineFeed := by simpa using ends
          exact (Text.words_heeded_blank _ isBlank_carriageReturn).trans
            (Text.words_heeded_blank more isBlank_lineFeed)
      | cons c word => exact ended solid isBlank_carriageReturn (Text.heeded false more)
  | case4 word d more goes ih =>
      obtain rfl : word = [] := by
        by_contra other
        exact goes (.inr other)
      rw [← ih solid]
      exact Text.words_heeded_blank (d :: more) isBlank_carriageReturn
  | case5 word rest _ =>
      rw [Text.heeded_blank rest isBlank_lineFeed (fun h => absurd h.2 (by decide))]
      exact ended solid isBlank_lineFeed _
  | case6 word c rest other _ blank _ =>
      rw [Text.heeded_blank rest blank (fun h => other h.2)]
      exact ended solid blank _
  | case7 word c rest other _ blank empty ih =>
      obtain rfl : word = [] := by simpa using empty
      rw [← ih solid]
      exact Text.words_heeded_blank rest blank
  | case8 word c rest other _ letter ih =>
      have grown : ∀ d ∈ c :: word, ¬d.isBlank := List.forall_mem_cons.mpr ⟨letter, solid⟩
      rw [← ih grown, Text.heeded_cons rest (fun h => other h.2), List.reverse_cons,
        List.append_assoc]
      simp [letter]

theorem length_rest_readWordFrom_lt (fault : Option InputFault) (word : Text) {t : Text}
    (nonempty : t ≠ []) : (readWordFrom fault word t).rest.length < t.length := by
  have le (word t : Text) : (readWordFrom fault word t).rest.length ≤ t.length := by
    fun_induction readWordFrom fault word t <;> simp only [List.length_cons] at * <;> omega
  fun_cases readWordFrom fault word t with
  | case1 => exact absurd rfl nonempty
  | case3 d more => exact Nat.lt_succ_of_lt (Nat.lt_succ_self _)
  | case4 d more => exact Nat.lt_succ_of_le (le word (d :: more))
  | case7 c rest => exact Nat.lt_succ_of_le (le word rest)
  | case8 c rest => exact Nat.lt_succ_of_le (le (c :: word) rest)
  | _ => simp

end Input

namespace Text

/-- A text is heeded as a whole exactly if none of its code points is lost. -/
theorem solids_heeded_iff (t : Text) : solids (heeded false t) = solids t ↔ ¬t.Abrupt := by
  constructor
  · intro same abrupt
    have lost := length_solids_heeded_lt (loses_false.mpr abrupt)
    rw [same] at lost
    exact Nat.lt_irrefl _ lost
  · intro keeps
    have kept : words (heeded false t) = words t :=
      words_append_heeded (mt loses_false.mp keeps) []
    rw [← flatten_words, ← flatten_words, kept]

theorem words_heeded_iff (t : Text) : words (heeded false t) = words t ↔ ¬t.Abrupt := by
  constructor
  · intro same
    rw [← solids_heeded_iff, ← flatten_words, ← flatten_words, same]
  · exact fun keeps => words_append_heeded (mt loses_false.mp keeps) []

end Text

namespace Machine

/-- Calls of `read` one after the other, with their results, until the input is used up. -/
inductive ReadsOut : Machine → List Text → Machine → Prop
  | done {m : Machine} : m.input.rest = [] → ReadsOut m [] m
  | call {m next last : Machine} {t : Text} {texts : List Text} : m.input.rest ≠ [] →
      Builtin.read.call [] m = .ok (.string t) next → ReadsOut next texts last →
      ReadsOut m (t :: texts) last

theorem call_read (m : Machine) (t : Text) :
    Builtin.read.call [] { m with input := .ofText t } =
      .ok (.string (Input.readWordFrom none [] t).result)
        { m with input := .ofText (Input.readWordFrom none [] t).rest } := by
  have sound : (Input.ofText t).readWord.fault = none := or_self_iff.mp (Input.fault_readWord _)
  exact Builtin.takeInput_of_faultless (b := .read) (m := { m with input := .ofText t }) sound

theorem exists_readsOut (m : Machine) (t : Text) :
    ∃ texts last, ReadsOut { m with input := .ofText t } texts last := by
  by_cases more : t = []
  · exact ⟨[], _, .done more⟩
  · have shorter := Input.length_rest_readWordFrom_lt none [] more
    obtain ⟨texts, last, rest⟩ := exists_readsOut m (Input.readWordFrom none [] t).rest
    exact ⟨_, last, .call more (m.call_read t) rest⟩
termination_by t.length

/-- The words that have been read to the end are those that are heeded, without any blanks. -/
theorem ReadsOut.words {m last : Machine} {t : Text} {texts : List Text}
    (reads : ReadsOut { m with input := .ofText t } texts last) :
    texts.filter (· ≠ []) = Text.words (t.heeded false) ∧
      last = { m with input := .ofText [] } := by
  generalize start : { m with input := .ofText t } = m' at reads
  induction reads generalizing t with
  | done empty =>
      subst start
      obtain rfl : t = [] := empty
      exact ⟨rfl, rfl⟩
  | call _ called _ ih =>
      subst start
      rw [m.call_read t] at called
      obtain ⟨rfl, rfl⟩ : _ ∧ _ := by simpa using called
      obtain ⟨later, last_eq⟩ := ih rfl
      have taken := @Input.words_readWordFrom none [] t nofun
      refine ⟨?_, last_eq⟩
      rw [← List.singleton_append, List.filter_append, later]
      exact taken.symm

/-- Whatever the input is, reading it to its end with `read` changes nothing but the input. The
results that are not empty are the words of what is heeded, which has its code points other than
blanks one by one from the results. This is all of the input exactly if no carriage return stands
alone between two code points that are no blanks. -/
theorem read_words (m : Machine) (t : Text) :
    (∃ texts last, ReadsOut { m with input := .ofText t } texts last) ∧
      ∀ texts last, ReadsOut { m with input := .ofText t } texts last →
        last = { m with input := .ofText [] } ∧
        texts.filter (· ≠ []) = Text.words (t.heeded false) ∧
        texts.flatten = Text.solids (t.heeded false) ∧
        (texts.filter (· ≠ []) = t.words ↔ ¬t.Abrupt) ∧
        (texts.flatten = t.solids ↔ ¬t.Abrupt) := by
  refine ⟨exists_readsOut m t, fun texts last reads => ?_⟩
  obtain ⟨found, last_eq⟩ := reads.words
  have flat : texts.flatten = Text.solids (t.heeded false) := by
    rw [← Text.flatten_filter_ne_nil, found, Text.flatten_words]
  refine ⟨last_eq, found, flat, ?_, ?_⟩
  · rw [found]
    exact Text.words_heeded_iff t
  · rw [flat]
    exact Text.solids_heeded_iff t

/-- The text `b` behind a word and a carriage return is never read. -/
theorem not_forall_read_words :
    ¬∀ (m : Machine) (t : Text) (texts : List Text) (last : Machine),
      ReadsOut { m with input := .ofText t } texts last →
        texts.filter (· ≠ []) = t.words ∧ texts.flatten = t.solids := by
  intro all
  let m := initial .closed (.empty false 0)
  have reads : ReadsOut { m with input := .ofText (text "a\rb") } [text "a"]
      { m with input := .ofText [] } :=
    .call (by decide) (m.call_read (text "a\rb")) (.done rfl)
  exact absurd (all m _ _ _ reads).2 (by decide)

end Machine

end Script
