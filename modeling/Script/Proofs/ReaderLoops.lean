import Script.Proofs.Effects

/-!
# Readers take from the front

An input hands out the text that is left of it piece by piece. The reader of words takes one code
point after the other, or two behind a carriage return, of which it may keep the second for the next
turn. The reader of everything takes piece after piece until one is empty. Each turn of these loops
makes the text ahead shorter or is the last, so they end, and with the reading that is defined
without them.

Every reader takes its result off the front of the text. A reader of characters or of everything
takes nothing else, a reader of lines takes the end of the line along, and a reader of words takes
the blanks in front of the word and at most two code points behind it. Nothing but the input and the
trace is changed, and a line that has no end is not taken from a broken input.
-/

namespace Script

/-! ### Loops -/

/-- What a turn of a reader's loop leads to: another turn, or the end with a reading. -/
inductive Turn (σ : Type) where
  | again (s : σ)
  | ended (reading : Reading)

namespace Turn
variable {σ : Type} {turn : σ → Turn σ} {reading : σ → Reading} {ahead : σ → Nat}

/-- A loop ends with a reading after a number of turns. -/
inductive Ends (turn : σ → Turn σ) : σ → Reading → Nat → Prop
  | last {s : σ} {r : Reading} : turn s = .ended r → Ends turn s r 1
  | next {s s' : σ} {r : Reading} {n : Nat} : turn s = .again s' → Ends turn s' r n →
      Ends turn s r (n + 1)

/-- A turn is the last, with the expected reading, or less is ahead after it and the expected
reading is the same. -/
def Advances (reading : σ → Reading) (ahead : σ → Nat) (expected : Reading) (n : Nat) :
    Turn σ → Prop
  | again s => reading s = expected ∧ ahead s < n
  | ended r => r = expected

/-- A loop of which all turns advance ends with the expected reading, and takes no more turns than
there is ahead, and the last. -/
theorem exists_ends
    (advances : ∀ s, (turn s).Advances reading ahead (reading s) (ahead s)) (s : σ) :
    ∃ n ≤ ahead s + 1, Ends turn s (reading s) n := by
  induction h : ahead s using Nat.strongRecOn generalizing s with
  | ind k ih =>
      have here := advances s
      cases leads : turn s with
      | ended r =>
          rw [leads] at here
          exact ⟨1, Nat.le_add_left 1 k, .last (here ▸ leads)⟩
      | again s' =>
          rw [leads] at here
          obtain ⟨same, less⟩ := here
          obtain ⟨n, le, ends⟩ := ih (ahead s') (h ▸ less) s' rfl
          refine ⟨n + 1, by omega, .next leads (same ▸ ends)⟩

end Turn

namespace Input

/-- Takes at most `n` code points. A broken input meets its fault when none is left. -/
def take (n : Nat) (input : Input) : Except InputFault (Text × Input) :=
  match input.rest, input.fault with
  | [], some fault => .error fault
  | rest, _ => .ok (rest.take n, { input with rest := rest.drop n })

/-- What the reader of everything has between two turns. -/
structure Gathering where
  taken : Text
  input : Input

/-- A turn of the reader of everything: it takes a piece and stops if it is empty. -/
def gather (n : Nat) (s : Gathering) : Turn Gathering :=
  match s.input.take n with
  | .error fault => .ended ⟨s.taken, s.input.rest, some fault⟩
  | .ok ([], input) => .ended ⟨s.taken, input.rest, none⟩
  | .ok (piece, input) => .again ⟨s.taken ++ piece, input⟩

/-- What the reader of words has between two turns: the word as far as it goes, and a code point
that has been taken but not dealt with. -/
structure Spelling where
  word : Text
  pending : Option CodePoint
  input : Input

namespace Spelling

def ahead (s : Spelling) : Text :=
  s.pending.toList ++ s.input.rest

/-- A turn of the reader of words for the code point that comes next. -/
def meet (word : Text) (c : CodePoint) (input : Input) : Turn Spelling :=
  if c = .carriageReturn then
    match input.take 1 with
    | .error fault => .ended ⟨word, input.rest, some fault⟩
    | .ok ([], input) => .ended ⟨word, input.rest, none⟩
    | .ok (d :: _, input) =>
      if d = .lineFeed then .ended ⟨word, input.rest, none⟩
      else if word ≠ [] then .ended ⟨word, input.rest, none⟩
      else .again ⟨word, some d, input⟩
  else if c = .lineFeed then .ended ⟨word, input.rest, none⟩
  else if c.isBlank then
    if word ≠ [] then .ended ⟨word, input.rest, none⟩ else .again ⟨word, none, input⟩
  else .again ⟨word ++ [c], none, input⟩

/-- A turn of the reader of words, which starts with what is pending, if anything is. -/
def spell (s : Spelling) : Turn Spelling :=
  match s.pending with
  | some c => meet s.word c s.input
  | none =>
    match s.input.take 1 with
    | .error fault => .ended ⟨s.word, s.input.rest, some fault⟩
    | .ok ([], input) => .ended ⟨s.word, input.rest, none⟩
    | .ok (c :: _, input) => meet s.word c input

/-- The reading that is left to be made. -/
def reading (s : Spelling) : Reading :=
  readWordFrom s.input.fault s.word.reverse s.ahead

theorem meet_advances (word : Text) (c : CodePoint) (input : Input) :
    (meet word c input).Advances reading (fun s => s.ahead.length)
      (readWordFrom input.fault word.reverse (c :: input.rest)) (input.rest.length + 1) := by
  obtain ⟨rest, fault⟩ := input
  rw [readWordFrom.eq_def]
  dsimp only
  unfold meet
  by_cases cr : c = .carriageReturn
  · rw [if_pos cr, if_pos cr]
    cases rest with
    | nil => cases fault <;> simp [take, Turn.Advances]
    | cons d rest =>
        simp only [take]
        by_cases lf : d = .lineFeed
        · simp [lf, Turn.Advances]
        · by_cases empty : word = []
          · simp [lf, empty, Turn.Advances, reading, ahead]
          · simp [lf, empty, Turn.Advances]
  · rw [if_neg cr, if_neg cr]
    split
    · simp [Turn.Advances]
    · split
      · by_cases empty : word = []
        · simp [empty, Turn.Advances, reading, ahead]
        · simp [empty, Turn.Advances]
      · simp [Turn.Advances, reading, ahead]

theorem spell_advances (s : Spelling) :
    s.spell.Advances reading (fun s => s.ahead.length) s.reading s.ahead.length := by
  obtain ⟨word, pending, rest, fault⟩ := s
  cases pending with
  | some c => exact meet_advances word c ⟨rest, fault⟩
  | none =>
      cases rest with
      | nil => cases fault <;> simp [spell, take, reading, ahead, Turn.Advances, readWordFrom]
      | cons c rest => exact meet_advances word c ⟨rest, fault⟩

end Spelling

theorem gather_advances {n : Nat} (positive : 0 < n) (s : Gathering) :
    (gather n s).Advances (fun s => ⟨s.taken ++ s.input.rest, [], s.input.fault⟩)
      (fun s => s.input.rest.length) ⟨s.taken ++ s.input.rest, [], s.input.fault⟩
      s.input.rest.length := by
  obtain ⟨taken, rest, fault⟩ := s
  obtain ⟨n, rfl⟩ := Nat.exists_eq_succ_of_ne_zero (Nat.ne_of_gt positive)
  cases rest with
  | nil => cases fault <;> simp [gather, take, Turn.Advances]
  | cons c rest =>
      simp only [gather, take, List.take_succ_cons, List.drop_succ_cons, Turn.Advances]
      simp only [List.append_assoc, List.cons_append, List.take_append_drop, List.length_drop,
        List.length_cons, true_and]
      omega

/-! ### What is taken -/

/-- A line is taken without the line feed that ends it, if one does, and a carriage return before
that. -/
theorem exists_readLine_split (input : Input) : ∃ dropped,
    input.rest = input.readLine.result ++ dropped ++ input.readLine.rest ∧
    dropped ∈ [[], [.lineFeed], [.carriageReturn, .lineFeed], [.carriageReturn]] := by
  obtain ⟨t, fault⟩ := input
  by_cases ends : .lineFeed ∈ t
  · obtain ⟨line, rest, rfl, single⟩ := List.eq_append_cons_of_mem ends
    obtain ⟨e, parts, known⟩ := Text.exists_eq_dropEnding_append .carriageReturn line
    rw [readLine_append_lineFeed rest fault single]
    refine ⟨e ++ [.lineFeed], ?_, ?_⟩
    · dsimp only
      rw [← List.append_assoc, ← parts, List.append_assoc, List.singleton_append]
    · rcases known with rfl | rfl <;> simp
  · obtain ⟨e, parts, known⟩ := Text.exists_eq_dropEnding_append .carriageReturn t
    rw [readLine_of_notMem fault ends]
    cases fault with
    | some fault => exact ⟨[], rfl, by simp⟩
    | none =>
        refine ⟨e, parts.trans (List.append_nil _).symm, ?_⟩
        rcases known with rfl | rfl <;> simp

theorem rest_readLine_of_broken {input : Input} (broken : input.fault ≠ none)
    (endless : .lineFeed ∉ input.rest) : input.readLine.rest = input.rest := by
  obtain ⟨t, fault⟩ := input
  obtain ⟨fault, rfl⟩ := Option.ne_none_iff_exists'.mp broken
  rw [readLine_of_notMem (some fault) endless]

/-- Behind the blanks in front of it, a word is taken as far as it goes, with at most two code
points behind it. -/
theorem exists_readWordFrom_split (fault : Option InputFault) (word t : Text)
    (solid : ∀ c ∈ word, ¬c.isBlank) : ∃ skipped dropped,
    word.reverse ++ t = skipped ++ (readWordFrom fault word t).result ++ dropped ++
      (readWordFrom fault word t).rest ∧
    (∀ c ∈ skipped, c.isBlank) ∧ (∀ c ∈ (readWordFrom fault word t).result, ¬c.isBlank) ∧
    dropped.length ≤ 2 := by
  have nothing : ∀ c ∈ ([] : Text), c.isBlank := List.forall_mem_nil _
  have solid' : ∀ c ∈ word.reverse, ¬c.isBlank := fun c mem => solid c (List.mem_reverse.mp mem)
  fun_induction readWordFrom fault word t with
  | case1 word => exact ⟨[], [], by simp, nothing, solid', by simp⟩
  | case2 word => exact ⟨[], [.carriageReturn], by simp, nothing, solid', by simp⟩
  | case3 word d more ends => exact ⟨[], [.carriageReturn, d], by simp, nothing, solid', by simp⟩
  | case4 word d more goes ih =>
      obtain rfl : word = [] := by
        by_contra other
        exact goes (.inr other)
      obtain ⟨skipped, dropped, split, blank, rest⟩ := ih solid solid'
      refine ⟨.carriageReturn :: skipped, dropped, ?_, ?_, rest⟩
      · simpa using split
      · exact List.forall_mem_cons.mpr ⟨by decide, blank⟩
  | case5 word rest _ => exact ⟨[], [.lineFeed], by simp, nothing, solid', by simp⟩
  | case6 word c rest => exact ⟨[], [c], by simp, nothing, solid', by simp⟩
  | case7 word c rest _ _ blank empty ih =>
      obtain rfl : word = [] := by simpa using empty
      obtain ⟨skipped, dropped, split, blanks, others⟩ := ih solid solid'
      refine ⟨c :: skipped, dropped, ?_, List.forall_mem_cons.mpr ⟨blank, blanks⟩, others⟩
      simpa using split
  | case8 word c rest _ _ letter ih =>
      have grown : ∀ d ∈ c :: word, ¬d.isBlank := List.forall_mem_cons.mpr ⟨letter, solid⟩
      obtain ⟨skipped, dropped, split, others⟩ :=
        ih grown fun d mem => grown d (List.mem_reverse.mp mem)
      refine ⟨skipped, dropped, ?_, others⟩
      simpa using split

end Input

/-- If the input breaks in no other way than one that can be recovered from, a reader has a string
as its result and changes nothing but the input and the trace. -/
theorem Builtin.exists_takeInput_eq (b : Builtin) (read : Input → Reading) {m : Machine}
    (recoverable : ∀ fault ∈ (read m.input).fault, fault.recoverable) :
    ∃ t, b.takeInput read m = .ok (.string (read m.input).result)
      { m with input := m.input.leave (read m.input), trace := t } := by
  obtain ⟨-, called⟩ | ⟨_, t, -, -, called⟩ | ⟨fault, broken, stops, -⟩ :=
    takeInput_cases m b read
  · exact ⟨m.trace, called⟩
  · exact ⟨t, called⟩
  · exact absurd (recoverable fault broken) stops

namespace Machine

/-- A call of a reader skips a piece of the text, gives the next piece as its result and drops
another one. All else in the machine but the trace stays as it was. -/
structure Takes (m : Machine) (b : Builtin) (skipped : Text) (r : Reading) (dropped : Text) :
    Prop where
  called : ∃ t, b.call [] m =
    .ok (.string r.result) { m with input := m.input.leave r, trace := t }
  split : m.input.rest = skipped ++ r.result ++ dropped ++ r.rest

/-- Readers take their results off the front of the input, and always come to an end. -/
theorem readers_take_front {m : Machine}
    (recoverable : ∀ fault ∈ m.input.fault, fault.recoverable) :
    (∃ r, m.Takes .readc [] r [] ∧ r.result = m.input.rest.take 1) ∧
    (∃ r turns, m.Takes .readall [] r [] ∧ r.result = m.input.rest ∧
      turns ≤ m.input.rest.length + 1 ∧
      Turn.Ends (Input.gather 4096) ⟨[], m.input⟩ r turns) ∧
    (∃ r dropped, m.Takes .readln [] r dropped ∧
      dropped ∈ [[], [.lineFeed], [.carriageReturn, .lineFeed], [.carriageReturn]] ∧
      (m.input.fault ≠ none → .lineFeed ∉ m.input.rest → r.rest = m.input.rest)) ∧
    ∃ skipped r dropped turns, m.Takes .read skipped r dropped ∧
      (∀ c ∈ skipped, c.isBlank) ∧ (∀ c ∈ r.result, ¬c.isBlank) ∧ dropped.length ≤ 2 ∧
      turns ≤ m.input.rest.length + 1 ∧
      Turn.Ends Input.Spelling.spell ⟨[], none, m.input⟩ r turns := by
  have called {b : Builtin} {read : Input → Reading}
      (faults : (read m.input).fault = none ∨ (read m.input).fault = m.input.fault) :=
    b.exists_takeInput_eq read (m := m) fun fault mem => by
      rcases faults with none | same
      · rw [none] at mem
        cases mem
      · exact recoverable fault (same ▸ mem)
  refine ⟨⟨m.input.readChar, ⟨called m.input.fault_readChar, ?_⟩, ?_⟩, ?_, ?_, ?_⟩
  · unfold Input.readChar
    cases m.input.rest <;> rfl
  · unfold Input.readChar
    cases m.input.rest <;> rfl
  · obtain ⟨turns, le, ends⟩ :=
      Turn.exists_ends (Input.gather_advances (n := 4096) (by decide)) ⟨[], m.input⟩
    refine ⟨m.input.readAll, turns, ⟨called (.inr rfl), ?_⟩, rfl, le, ends⟩
    simp [Input.readAll]
  · obtain ⟨dropped, split, end_⟩ := m.input.exists_readLine_split
    exact ⟨_, dropped, ⟨called m.input.fault_readLine, split⟩, end_,
      Input.rest_readLine_of_broken⟩
  · obtain ⟨turns, le, ends⟩ := Turn.exists_ends Input.Spelling.spell_advances ⟨[], none, m.input⟩
    obtain ⟨skipped, dropped, split, others⟩ :=
      Input.exists_readWordFrom_split m.input.fault [] m.input.rest nofun
    obtain ⟨blanks, solid, short⟩ := others
    exact ⟨skipped, m.input.readWord, dropped, turns, ⟨called m.input.fault_readWord, split⟩,
      blanks, solid, short, le, ends⟩

/-- What is left of a broken input stays unread if it is not a whole line. -/
theorem readln_of_broken :
    let m := initial ⟨text " a\rb", some ⟨true, text "gone"⟩⟩ (.empty false 3)
    (∀ fault ∈ m.input.fault, fault.recoverable) ∧
      ∃ r dropped, m.Takes .readln [] r dropped ∧ r.rest = text " a\rb" := by
  intro m
  have recoverable : ∀ fault ∈ m.input.fault, fault.recoverable := by
    rintro _ ⟨⟩
    rfl
  obtain ⟨-, -, ⟨r, dropped, takes, -, untouched⟩, -⟩ := readers_take_front recoverable
  exact ⟨recoverable, r, dropped, takes, untouched (by decide) (by decide)⟩

end Machine

end Script
