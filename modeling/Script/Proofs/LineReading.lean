import Script.Proofs.LineEnds

/-!
# Reading lines

A line ends with a line feed, or with a carriage return and a line feed, and the last line may have
no end. The reader of lines takes each line off the input without its end. So putting back behind
each line the end that stood there gives the whole text again, but for one case: a carriage return
as the last code point of the text ends no line, and is dropped all the same.
-/

namespace Script

namespace Text

/-- The end of a line that stands at the front of a text, or nothing. -/
def lineEnd : Text → Text
  | [] => []
  | c :: rest =>
    if c = .lineFeed then [.lineFeed]
    else if c = .carriageReturn ∧ rest.head? = some .lineFeed then [.carriageReturn, .lineFeed]
    else []

@[simp] theorem lineEnd_lineFeed (rest : Text) : lineEnd (.lineFeed :: rest) = [.lineFeed] := rfl

@[simp] theorem lineEnd_crlf (rest : Text) :
    lineEnd (.carriageReturn :: .lineFeed :: rest) = [.carriageReturn, .lineFeed] := rfl

theorem lineEnd_of_notMem {t : Text} (endless : .lineFeed ∉ t) : lineEnd t = [] := by
  cases t with
  | nil => rfl
  | cons c rest =>
      obtain ⟨other, endless⟩ := List.ne_and_not_mem_of_not_mem_cons endless
      have single : ¬(c = .carriageReturn ∧ rest.head? = some .lineFeed) :=
        fun both => endless (List.mem_of_head? both.2)
      rw [lineEnd, if_neg other.symm, if_neg single]

/-- An ending that the front does not have is dropped from what is behind the front. -/
theorem dropEnding_append {c : CodePoint} {front : Text} (other : front.getLast? ≠ some c)
    (back : Text) : dropEnding c (front ++ back) = front ++ dropEnding c back := by
  unfold dropEnding
  by_cases nonempty : back = []
  · subst nonempty
    rw [List.append_nil, if_neg other, if_neg (by simp), List.append_nil]
  · rw [List.getLast?_append_of_ne_nil front nonempty, List.dropLast_append_of_ne_nil nonempty]
    split <;> rfl

theorem dropEnding_eq_self_iff {c : CodePoint} {t : Text} :
    dropEnding c t = t ↔ t.getLast? ≠ some c := by
  unfold dropEnding
  split
  · rename_i last
    have shorter : t.dropLast ≠ t := by
      intro same
      have length := congrArg List.length same
      rw [List.length_dropLast] at length
      have nonempty : t ≠ [] := by
        rintro rfl
        cases last
      have positive := List.length_pos_iff.mpr nonempty
      omega
    exact iff_of_false shorter (not_not.mpr last)
  · rename_i other
    exact iff_of_true rfl other

/-- A line, with a carriage return at its end or not, stands in front of its end in a text. -/
theorem exists_lineEnd_split (line rest : Text) :
    let t := line ++ .lineFeed :: rest
    let content := dropEnding .carriageReturn line
    ∃ e, t = content ++ (e ++ [.lineFeed]) ++ rest ∧
      lineEnd (t.drop content.length) = e ++ [.lineFeed] := by
  obtain ⟨e, parts, known⟩ := exists_eq_dropEnding_append .carriageReturn line
  have split : line ++ .lineFeed :: rest =
      dropEnding .carriageReturn line ++ (e ++ .lineFeed :: rest) := by
    rw [← List.append_assoc, ← parts]
  refine ⟨e, ?_, ?_⟩
  · rw [split, List.append_assoc, List.append_assoc, List.singleton_append]
  · rw [split, List.drop_left]
    rcases known with rfl | rfl <;> rfl

end Text

namespace Input

/-- What the reader of lines takes off a text is a line with its end, or all that is left. -/
theorem readLine_takes (t : Text) :
    let r := readLine (.ofText t)
    let ending := Text.lineEnd (t.drop r.result.length)
    .lineFeed ∉ r.result ∧
      (t = r.result ++ ending ++ r.rest ∧ ending.getLast? = some .lineFeed ∨
        r.result = Text.dropEnding .carriageReturn t ∧ ending = [] ∧ r.rest = []) := by
  by_cases ends : .lineFeed ∈ t
  · obtain ⟨line, rest, rfl, single⟩ := List.eq_append_cons_of_mem ends
    obtain ⟨e, split, ending⟩ := Text.exists_lineEnd_split line rest
    rw [ofText, readLine_append_lineFeed rest none single]
    dsimp only
    rw [ending]
    refine ⟨fun mem => single ((Text.dropEnding_prefix _ _).mem mem), .inl ⟨split, ?_⟩⟩
    exact List.getLast?_concat
  · rw [ofText, readLine_of_notMem none ends]
    dsimp only
    refine ⟨fun mem => ends ((Text.dropEnding_prefix _ _).mem mem), .inr ⟨rfl, ?_, rfl⟩⟩
    exact Text.lineEnd_of_notMem fun mem => ends (List.mem_of_mem_drop mem)

theorem length_rest_readLine_lt {t : Text} (nonempty : t ≠ []) :
    (readLine (.ofText t)).rest.length < t.length := by
  obtain ⟨-, ⟨split, ended⟩ | ⟨-, -, rest⟩⟩ := readLine_takes t
  · have length := congrArg List.length split
    rw [List.length_append, List.length_append] at length
    have positive := List.length_pos_iff.mpr (List.ne_nil_of_mem (List.mem_of_getLast? ended))
    omega
  · rw [rest]
    exact List.length_pos_iff.mpr nonempty

end Input

/-- A line that has been read, and the end of the line that stood behind it. -/
structure LineRead where
  content : Text
  ending : Text
  deriving Repr, DecidableEq

namespace LineRead

/-- Lines one after the other, each with its end put back. -/
def rejoin (lines : List LineRead) : Text :=
  lines.flatMap fun line => line.content ++ line.ending

theorem rejoin_cons (line : LineRead) (lines : List LineRead) :
    rejoin (line :: lines) = line.content ++ line.ending ++ rejoin lines :=
  List.flatMap_cons

end LineRead

namespace Machine
open LineRead (rejoin rejoin_cons)

/-- Calls of `readln` one after the other until the input is used up. Each result is noted with the
end of the line that stands behind it in the input. -/
inductive ReadsLines : Machine → List LineRead → Machine → Prop
  | done {m : Machine} : m.input.rest = [] → ReadsLines m [] m
  | call {m next last : Machine} {line : Text} {lines : List LineRead} : m.input.rest ≠ [] →
      Builtin.readln.call [] m = .ok (.string line) next → ReadsLines next lines last →
      ReadsLines m (⟨line, Text.lineEnd (m.input.rest.drop line.length)⟩ :: lines) last

theorem exists_readsLines (m : Machine) (t : Text) :
    ∃ lines last, ReadsLines { m with input := .ofText t } lines last := by
  by_cases more : t = []
  · exact ⟨[], _, .done more⟩
  · have shorter := Input.length_rest_readLine_lt more
    obtain ⟨lines, last, rest⟩ := exists_readsLines m (Input.readLine (.ofText t)).rest
    exact ⟨_, last, .call more (m.call_readln t) rest⟩
termination_by t.length

theorem ReadsLines.eq_nil {m last : Machine} {lines : List LineRead}
    (reads : ReadsLines m lines last) (empty : m.input.rest = []) : lines = [] := by
  cases reads with
  | done _ => rfl
  | call more _ _ => exact absurd empty more

/-- The lines that are read are whole lines, and put together again they are the text without a
carriage return at its end. -/
theorem ReadsLines.rejoined {m last : Machine} {t : Text} {lines : List LineRead}
    (reads : ReadsLines { m with input := .ofText t } lines last) :
    last = { m with input := .ofText [] } ∧ (∀ line ∈ lines, .lineFeed ∉ line.content) ∧
      (∀ line ∈ lines.dropLast, line.ending ≠ []) ∧
      rejoin lines = Text.dropEnding .carriageReturn t := by
  generalize start : { m with input := .ofText t } = m' at reads
  induction reads generalizing t with
  | done empty =>
      subst start
      obtain rfl : t = [] := empty
      exact ⟨rfl, List.forall_mem_nil _, List.forall_mem_nil _, rfl⟩
  | @call _ next last line lines _ called later ih =>
      subst start
      rw [m.call_readln t] at called
      obtain ⟨rfl, rfl⟩ : _ ∧ _ := by simpa using called
      obtain ⟨last_eq, whole, ended, joined⟩ := ih rfl
      obtain ⟨single, here⟩ := Input.readLine_takes t
      refine ⟨last_eq, List.forall_mem_cons.mpr ⟨single, whole⟩, ?_⟩
      rw [rejoin_cons, joined]
      dsimp only [Input.ofText] at here ⊢
      rcases here with ⟨split, feed⟩ | ⟨content, nothing, rest⟩
      · -- the line that is taken off ends with a line feed, so no carriage return is dropped here
        constructor
        · cases lines with
          | nil => exact List.forall_mem_nil _
          | cons _ _ =>
              have closed := List.ne_nil_of_mem (List.mem_of_getLast? feed)
              exact List.forall_mem_cons.mpr ⟨closed, ended⟩
        · rw [← Text.dropEnding_append, ← split]
          rw [List.getLast?_append, feed, Option.some_or]
          decide
      · obtain rfl := later.eq_nil rest
        refine ⟨List.forall_mem_nil _, ?_⟩
        rw [nothing, content, rest, List.append_nil]
        exact List.append_nil _

/-- Whatever the input is, reading it to its end with `readln` changes nothing but the input. Every
result is a whole line, and all but the last one stand in front of the end of a line. With the ends
put back, they are the text without a carriage return at its end, so this is the text exactly if it
has no carriage return there. -/
theorem readln_lines (m : Machine) (t : Text) :
    (∃ lines last, ReadsLines { m with input := .ofText t } lines last) ∧
      ∀ lines last, ReadsLines { m with input := .ofText t } lines last →
        last = { m with input := .ofText [] } ∧
        (∀ line ∈ lines, .lineFeed ∉ line.content) ∧
        (∀ line ∈ lines.dropLast, line.ending ≠ []) ∧
        rejoin lines = Text.dropEnding .carriageReturn t ∧
        (rejoin lines = t ↔ t.getLast? ≠ some .carriageReturn) := by
  refine ⟨exists_readsLines m t, fun lines last reads => ?_⟩
  obtain ⟨last_eq, whole, ended, joined⟩ := reads.rejoined
  refine ⟨last_eq, whole, ended, joined, ?_⟩
  rw [joined]
  exact Text.dropEnding_eq_self_iff

/-- The carriage return behind `a` is never read. -/
theorem not_forall_readln_lines :
    ¬∀ (m : Machine) (t : Text) (lines : List LineRead) (last : Machine),
      ReadsLines { m with input := .ofText t } lines last → rejoin lines = t := by
  intro all
  let m := initial .closed (.empty false 0)
  have reads : ReadsLines { m with input := .ofText (text "a\r") } [⟨text "a", []⟩]
      { m with input := .ofText [] } :=
    .call (by decide) (m.call_readln (text "a\r")) (.done rfl)
  exact absurd (all m _ _ _ reads) (by decide)

end Machine

end Script
