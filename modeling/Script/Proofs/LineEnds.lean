import Script.Proofs.WordReading

/-!
# Line ends

A text whose lines end with a carriage return and a line feed reads like the one whose lines end
with a line feed only. The reader of lines takes the carriage return off what it has taken; the
reader of words stops at the carriage return and takes the line feed along. After calls of the two
in any order, what is left of the one text is what is left of the other with its line ends changed.

Without carriage returns the readers are plain to describe: a line goes up to the next line feed,
and a word is what follows the blanks that stand before it in its line.
-/

namespace Script

namespace Text
variable {c : CodePoint} {t : Text}

def crlf (t : Text) : Text :=
  t.flatMap fun c => if c = .lineFeed then [.carriageReturn, .lineFeed] else [c]

@[simp] theorem crlf_nil : crlf [] = [] := rfl

@[simp] theorem crlf_lineFeed : crlf (.lineFeed :: t) = .carriageReturn :: .lineFeed :: t.crlf :=
  rfl

theorem crlf_cons (other : c ≠ .lineFeed) : crlf (c :: t) = c :: t.crlf := by
  simp [crlf, other]

theorem crlf_append (s t : Text) : crlf (s ++ t) = s.crlf ++ t.crlf :=
  List.flatMap_append

theorem crlf_of_notMem (line : .lineFeed ∉ t) : t.crlf = t := by
  induction t with
  | nil => rfl
  | cons c t ih =>
      obtain ⟨other, line⟩ := List.ne_and_not_mem_of_not_mem_cons line
      rw [crlf_cons other.symm, ih line]

theorem dropEnding_concat (c : CodePoint) (t : Text) : dropEnding c (t ++ [c]) = t := by
  simp [dropEnding]

theorem dropEnding_of_notMem (never : c ∉ t) : dropEnding c t = t :=
  if_neg fun last => never (List.mem_of_getLast? last)

/-- The text behind the blanks that stand before the first word of its line. -/
def skipBlanks (t : Text) : Text :=
  t.dropWhile fun c => c.isBlank && c ≠ .lineFeed

theorem skipBlanks_of_blanks {blanks : Text} (t : Text)
    (blank : ∀ c ∈ blanks, c.isBlank ∧ c ≠ .lineFeed) :
    skipBlanks (blanks ++ .lineFeed :: t) = .lineFeed :: t := by
  unfold skipBlanks
  rw [List.dropWhile_append_of_pos fun c mem => by simpa using blank c mem]
  rfl

end Text

namespace Input
variable {t : Text}

/-! ### Lines -/

/-- A line of a text without carriage returns goes up to the next line feed. -/
theorem readLine_of_plain (plain : .carriageReturn ∉ t) :
    readLine (.ofText t) =
      ⟨t.takeWhile (· ≠ .lineFeed), (t.dropWhile (· ≠ .lineFeed)).drop 1, none⟩ := by
  have none : .carriageReturn ∉ t.takeWhile (· ≠ .lineFeed) :=
    fun mem => plain ((List.takeWhile_prefix _).mem mem)
  unfold readLine
  dsimp only [ofText]
  rw [Text.dropEnding_of_notMem none]
  cases t.dropWhile (· ≠ .lineFeed) <;> rfl

theorem readLine_crlf (plain : .carriageReturn ∉ t) :
    readLine (.ofText t.crlf) =
      { readLine (.ofText t) with rest := (readLine (.ofText t)).rest.crlf } := by
  by_cases ends : .lineFeed ∈ t
  · obtain ⟨line, rest, rfl, single⟩ := List.eq_append_cons_of_mem ends
    have inner : .carriageReturn ∉ line := fun mem => plain (List.mem_append_left _ mem)
    have single' : .lineFeed ∉ line ++ [.carriageReturn] := by simpa using ⟨single, by decide⟩
    have moved : Text.crlf (line ++ .lineFeed :: rest) =
        (line ++ [.carriageReturn]) ++ .lineFeed :: Text.crlf rest := by
      rw [Text.crlf_append, Text.crlf_of_notMem single, Text.crlf_lineFeed, List.append_assoc,
        List.singleton_append]
    rw [moved, ofText, ofText, readLine_append_lineFeed _ none single',
      readLine_append_lineFeed _ none single, Text.dropEnding_concat,
      Text.dropEnding_of_notMem inner]
  · rw [Text.crlf_of_notMem ends, ofText, readLine_of_notMem none ends, Text.crlf_nil]

/-! ### Words -/

theorem readWordFrom_of_plain {word : Text} (inside : word ≠ []) (plain : .carriageReturn ∉ t) :
    readWordFrom none word t = ⟨word.reverse ++ t.takeWhile (!·.isBlank),
      (t.dropWhile (!·.isBlank)).drop 1, none⟩ := by
  induction t generalizing word with
  | nil => simp [readWordFrom]
  | cons c t ih =>
      obtain ⟨other, plain⟩ := List.ne_and_not_mem_of_not_mem_cons plain
      by_cases blank : c.isBlank
      · rw [readWordFrom_of_blank inside other.symm blank]
        simp [blank]
      · rw [readWordFrom_of_solid blank, ih (List.cons_ne_nil c word) plain]
        simp [blank]

/-- A word of a text without carriage returns is what follows the blanks before it in its line. -/
theorem readWord_of_plain (plain : .carriageReturn ∉ t) :
    readWordFrom none [] t = ⟨t.skipBlanks.takeWhile (!·.isBlank),
      (t.skipBlanks.dropWhile (!·.isBlank)).drop 1, none⟩ := by
  induction t with
  | nil => rfl
  | cons c t ih =>
      obtain ⟨other, plain⟩ := List.ne_and_not_mem_of_not_mem_cons plain
      by_cases feed : c = .lineFeed
      · subst feed
        exact readWordFrom_lineFeed
      · by_cases blank : c.isBlank
        · rw [readWordFrom_nil_of_blank other.symm feed blank, ih plain]
          simp [Text.skipBlanks, blank, feed]
        · rw [readWordFrom_of_solid blank, readWordFrom_of_plain (List.cons_ne_nil c []) plain]
          simp [Text.skipBlanks, blank]

theorem readWordFrom_crlf (word : Text) (plain : .carriageReturn ∉ t) :
    readWordFrom none word t.crlf =
      { readWordFrom none word t with rest := (readWordFrom none word t).rest.crlf } := by
  fun_induction readWordFrom none word t with
  | case1 => rfl
  | case2 | case3 | case4 => exact absurd List.mem_cons_self plain
  | case5 word rest _ => simp [readWordFrom]
  | case6 word c rest cr lf blank inside =>
      rw [Text.crlf_cons lf, readWordFrom_of_blank inside cr blank]
  | case7 word c rest cr lf blank empty ih =>
      obtain rfl : word = [] := not_not.mp empty
      rw [Text.crlf_cons lf, readWordFrom_nil_of_blank cr lf blank,
        ih (List.not_mem_of_not_mem_cons plain)]
  | case8 word c rest _ lf solid ih =>
      rw [Text.crlf_cons lf, readWordFrom_of_solid solid, ih (List.not_mem_of_not_mem_cons plain)]

end Input

def Builtin.callEach (calls : List Builtin) : Eval (List Value) :=
  calls.mapM fun b => b.call []

theorem Builtin.callEach_cons_of_ok {m next last : Machine} {b : Builtin} {calls : List Builtin}
    {v : Value} {vs : List Value} (first : b.call [] m = .ok v next)
    (others : callEach calls next = .ok vs last) :
    callEach (b :: calls) m = .ok (v :: vs) last := by
  unfold callEach
  rw [List.mapM_cons, bind_of_ok first]
  exact bind_of_ok others

namespace Machine
open Builtin (callEach callEach_cons_of_ok)

theorem call_readln (m : Machine) (t : Text) :
    Builtin.readln.call [] { m with input := .ofText t } =
      .ok (.string (Input.readLine (.ofText t)).result)
        { m with input := .ofText (Input.readLine (.ofText t)).rest } := by
  have sound : (Input.ofText t).readLine.fault = none := or_self_iff.mp (Input.fault_readLine _)
  exact Builtin.takeInput_of_faultless (b := .readln) (m := { m with input := .ofText t }) sound

/-- A call on a text without carriage returns has the same result with either line end, and leaves
texts that differ in their line ends only. -/
theorem exists_call_crlf (m : Machine) {b : Builtin} (reader : b = .read ∨ b = .readln) {s : Text}
    (plain : .carriageReturn ∉ s) : ∃ result rest, .carriageReturn ∉ rest ∧
      b.call [] { m with input := .ofText s } =
        .ok (.string result) { m with input := .ofText rest } ∧
      b.call [] { m with input := .ofText s.crlf } =
        .ok (.string result) { m with input := .ofText rest.crlf } := by
  rcases reader with rfl | rfl
  · have left := (Input.of_readWord (.ofText s)).rest
    refine ⟨_, _, fun mem => plain (left.mem mem), m.call_read s, ?_⟩
    rw [m.call_read, Input.readWordFrom_crlf [] plain]
    rfl
  · have left := (Input.of_readLine (.ofText s)).rest
    refine ⟨_, _, fun mem => plain (left.mem mem), m.call_readln s, ?_⟩
    rw [m.call_readln, Input.readLine_crlf plain]

/-- Calls have the same results with either line end, and leave texts that differ in their line
ends only. -/
def ReadsAlike (m : Machine) (calls : List Builtin) (s : Text) : Prop :=
  ∃ (results : List Text) (rest : Text), .carriageReturn ∉ rest ∧
    callEach calls { m with input := .ofText s } =
      .ok (results.map .string) { m with input := .ofText rest } ∧
    callEach calls { m with input := .ofText s.crlf } =
      .ok (results.map .string) { m with input := .ofText rest.crlf }

theorem readsAlike (m : Machine) {calls : List Builtin}
    (readers : ∀ b ∈ calls, b = .read ∨ b = .readln) {s : Text} (plain : .carriageReturn ∉ s) :
    m.ReadsAlike calls s := by
  induction calls generalizing s with
  | nil => exact ⟨[], s, plain, rfl, rfl⟩
  | cons b calls ih =>
      obtain ⟨reader, readers⟩ := List.forall_mem_cons.mp readers
      obtain ⟨result, rest, plain, first, first'⟩ := m.exists_call_crlf reader plain
      obtain ⟨results, last, plain, others, others'⟩ := ih readers plain
      exact ⟨result :: results, last, plain, callEach_cons_of_ok first others,
        callEach_cons_of_ok first' others'⟩

/-- Texts with either line end read alike. Without carriage returns, a word is what follows the
blanks before it in its line, and takes one more code point along, so that a line of blanks reads as
an empty word; and a line goes up to its line feed. -/
theorem reads_crlf_alike (m : Machine) {s : Text} (plain : .carriageReturn ∉ s) :
    (∀ calls : List Builtin, (∀ b ∈ calls, b = .read ∨ b = .readln) → m.ReadsAlike calls s) ∧
    Builtin.read.call [] { m with input := .ofText s } =
      .ok (.string (s.skipBlanks.takeWhile (!·.isBlank)))
        { m with input := .ofText ((s.skipBlanks.dropWhile (!·.isBlank)).drop 1) } ∧
    (∀ blanks rest, s = blanks ++ .lineFeed :: rest →
      (∀ c ∈ blanks, c.isBlank ∧ c ≠ .lineFeed) →
      Builtin.read.call [] { m with input := .ofText s } =
        .ok (.string []) { m with input := .ofText rest }) ∧
    Builtin.readln.call [] { m with input := .ofText s } =
      .ok (.string (s.takeWhile (· ≠ .lineFeed)))
        { m with input := .ofText ((s.dropWhile (· ≠ .lineFeed)).drop 1) } := by
  have word : Builtin.read.call [] { m with input := .ofText s } =
      .ok (.string (s.skipBlanks.takeWhile (!·.isBlank)))
        { m with input := .ofText ((s.skipBlanks.dropWhile (!·.isBlank)).drop 1) } := by
    rw [m.call_read, Input.readWord_of_plain plain]
  refine ⟨fun calls readers => m.readsAlike readers plain, word, ?_, ?_⟩
  · rintro blanks rest rfl blank
    rw [word, Text.skipBlanks_of_blanks rest blank]
    rfl
  · rw [m.call_readln, Input.readLine_of_plain plain]

/-- A blank line that is read as a word and the line behind it, with either line end. -/
theorem reads_crlf_alike_of_blank_line :
    let m := initial (.ofText []) (.empty false 3)
    .carriageReturn ∉ text " \nb c" ∧ m.ReadsAlike [.read, .readln] (text " \nb c") ∧
      Builtin.read.call [] { m with input := .ofText (text " \nb c") } =
        .ok (.string []) { m with input := .ofText (text "b c") } := by
  intro m
  have plain : .carriageReturn ∉ text " \nb c" := by decide
  obtain ⟨alike, -, blank, -⟩ := m.reads_crlf_alike plain
  exact ⟨plain, alike [.read, .readln] (by simp),
    blank (text " ") (text "b c") rfl (List.forall_mem_singleton.mpr (by decide))⟩

end Machine

end Script
