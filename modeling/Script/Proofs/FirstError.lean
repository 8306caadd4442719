import Script.Proofs.Concatenation
import Script.Proofs.Respacing

/-!
# The first place where a source cannot go on

What is unexpected in a source is reported where it stands, and it is the first thing that is wrong:
what stands in front of it can be completed to a source that is well formed, and an unexpected token
cannot be saved by anything that is written behind it.

Both rest on partial readings. A reading of the front of a source does not depend on what follows,
as long as the tokens that it consists of end where they did; and whatever has been read, some words
finish the program.
-/

namespace Script

/-- A character that starts no token stands behind a gap. -/
theorem Cursor.next_stuck {mayCome : Terminal → Bool} {place : Cursor} {c : CodePoint}
    {position : Position} (h : place.next mayCome = .stuck c position) :
    ∃ gap rest, Gap gap ∧ place.rest = gap ++ c :: rest ∧
      position = place.position.afterText gap := by
  obtain ⟨gap, same, here, form⟩ := skipGap_sound place.position place.rest
  unfold Cursor.next at h
  dsimp only at h
  split at h
  · cases h
  · next d rest front =>
      split at h
      · cases h
      · obtain ⟨rfl, rfl⟩ := Lexed.stuck.inj h
        rw [front] at same form
        exact ⟨gap, rest, form.resolve_right (by simp), same, here⟩

/-- Whether an error is reported at an offset of a source. What is missing at the end of a source is
reported there, although the position given is that of the last token. -/
def SourceError.IsAt (source : Text) (offset : Nat) : SourceError → Prop
  | unexpectedToken token =>
    if token.terminal = .endOfInput then offset = source.length
    else offset < source.length ∧
      token.position = Position.start.afterText (source.take offset)
  | unexpectedCharacter _ position =>
    offset < source.length ∧ position = Position.start.afterText (source.take offset)
  | badLiteral _ => False

namespace Unfinished
variable [CharacterNames]

/-! ### Partial readings -/

/-- Tokens that are read of a source lead from one unfinished program and place to another. -/
inductive Reaches : Unfinished → Cursor → Unfinished → Cursor → Prop
  | here {s : Unfinished} {place : Cursor} : Reaches s place s place
  | token {s t u : Unfinished} {place next there : Cursor} {token : Token} :
      place.next s.mayCome = .token token next → s.feed token = some t →
      Reaches t next u there → Reaches s place u there

namespace Reaches
variable {s t : Unfinished} {place there : Cursor}

/-- What has been read is a front part of the source. -/
theorem exists_front (h : s.Reaches place t there) : ∃ front,
    place.rest = front ++ there.rest ∧ there.position = place.position.afterText front := by
  induction h with
  | here => exact ⟨[], rfl, rfl⟩
  | @token _ _ _ _ _ _ token found _ _ ih =>
      obtain ⟨-, gap, -, same, here, behind⟩ := Cursor.next_sound found
      obtain ⟨front, same', there⟩ := ih
      refine ⟨gap ++ (token.lexeme ++ front), ?_, ?_⟩
      · rw [same, same', List.append_assoc, List.append_assoc]
      · rw [there, behind, here, ← Position.afterText_append, ← Position.afterText_append]

theorem read_eq (h : s.Reaches place t there) (last : Position) :
    ∃ last', s.read last place = t.read last' there := by
  induction h generalizing last with
  | here => exact ⟨last, rfl⟩
  | @token _ _ _ _ _ _ token found fed _ ih =>
      obtain ⟨last', same⟩ := ih token.position
      refine ⟨last', ?_⟩
      rw [Unfinished.read_eq, found]
      simp only [fed, same]

/-- The same is read of a source that is cut off behind what has been read. -/
theorem of_append {source u rest : Text} {p q : Position}
    (h : s.Reaches ⟨source ++ rest, p⟩ t ⟨u ++ rest, q⟩) : s.Reaches ⟨source, p⟩ t ⟨u, q⟩ := by
  generalize start : Cursor.mk (source ++ rest) p = place at h
  generalize end_ : Cursor.mk (u ++ rest) q = there at h
  induction h generalizing source p with
  | here =>
      rw [← end_] at start
      obtain ⟨same, rfl⟩ := Cursor.mk.inj start
      rw [List.append_cancel_right same]
      exact .here
  | @token _ _ _ _ next _ _ found fed reaches ih =>
      subst start end_
      obtain ⟨front, same, -⟩ := reaches.exists_front
      obtain ⟨rest', p'⟩ := next
      obtain rfl : rest' = front ++ u ++ rest := same.trans (List.append_assoc _ _ _).symm
      exact .token (Cursor.next_of_append found) fed (ih rfl rfl)

/-- The same is read of a source behind which white space and anything else is written. -/
theorem append (h : s.Reaches place t there) {rest : Text} (apart : IsApart rest) :
    s.Reaches ⟨place.rest ++ rest, place.position⟩ t ⟨there.rest ++ rest, there.position⟩ := by
  induction h with
  | here => exact .here
  | token found fed _ ih => exact .token (Cursor.next_append_of_isApart found apart) fed ih

end Reaches

/-- Why a source is given up where it has been read up to some place. -/
inductive Breaks (s : Unfinished) (place : Cursor) : SourceError → Prop
  | end_ {last : Position} : place.next s.mayCome = .finished →
      Breaks s place (.unexpectedToken ⟨.endOfInput, [], last⟩)
  | token {token : Token} {next : Cursor} : place.next s.mayCome = .token token next →
      s.feed token = none → Breaks s place (.unexpectedToken token)
  | character {c : CodePoint} {position : Position} :
      place.next s.mayCome = .stuck c position → Breaks s place (.unexpectedCharacter c position)

/-- Whatever is unexpected, the source has been read up to there. -/
theorem exists_breaks_of_read {s : Unfinished} {last : Position} {place : Cursor}
    {error : SourceError} (h : s.read last place = .error error)
    (unexpected : ∀ fault, error ≠ .badLiteral fault) :
    ∃ t there, s.Reaches place t there ∧ t.Breaks there error := by
  fun_induction read s last place with
  | case1 s last place finished =>
      refine ⟨s, place, .here, ?_⟩
      unfold finish at h
      split at h
      · cases h
      · next fault _ _ => exact absurd (Except.error.inj h).symm (unexpected fault)
      · obtain rfl := Except.error.inj h
        exact .end_ finished
  | case2 s last place c position stuck =>
      obtain rfl := Except.error.inj h
      exact ⟨s, place, .here, .character stuck⟩
  | case3 s last place token next found t fed ih =>
      obtain ⟨u, there, reaches, breaks⟩ := ih h
      exact ⟨u, there, .token found fed reaches, breaks⟩
  | case4 s last place token next found refused =>
      obtain rfl := Except.error.inj h
      exact ⟨s, place, .here, .token found refused⟩

/-! ### Completions -/

theorem feed_endOfInput (s : Unfinished) {token : Token} (end_ : token.terminal = .endOfInput) :
    s.feed token = none := by
  obtain ⟨_, w, p⟩ := token
  obtain rfl := end_
  obtain ⟨statements, levels, control, fault⟩ := s
  cases control <;>
    simp [feed, feedStatement, feedOperand, feedAfterName, feedAfterOperand]

/-- The end of a source is no terminal that would finish a program. -/
theorem ne_endOfInput_of_mem_rest {s : Unfinished} {w : List Terminal} (h : w ∈ s.rest) :
    ∀ t ∈ w, t ≠ .endOfInput := by
  induction w generalizing s with
  | nil => simp
  | cons t w ih =>
      have token := (s.cons_mem_rest ⟨t, [], .nowhere⟩).mp h
      cases fed : s.feed ⟨t, [], .nowhere⟩ with
      | none =>
          rw [fed] at token
          exact absurd token (Language.notMem_zero w)
      | some next =>
          rw [fed] at token
          refine List.forall_mem_cons.mpr ⟨?_, ih token⟩
          rintro rfl
          rw [feed_endOfInput s rfl] at fed
          cases fed

end Unfinished

def Terminal.sample : Terminal → Text
  | name => text "x"
  | number => text "0"
  | string => [.quotationMark, .quotationMark]
  | keyword k => k.spelling
  | mark m => m.spelling
  | endOfInput => []

theorem Word.isProper_sample {t : Terminal} (other : t ≠ .endOfInput) :
    (⟨t, t.sample⟩ : Word).IsProper := by
  cases t with
  | keyword k => exact ⟨beq_self_eq_true k.spelling, by simp⟩
  | mark m => exact ⟨beq_self_eq_true m.spelling, by simp⟩
  | endOfInput => exact absurd rfl other
  | _ => decide

theorem isWellFormed_of_parse_eq [CharacterNames] {source : Text} {t : Unfinished} {last : Position}
    (h : Program.parse source = t.finish last) (ends : t.program?.isSome) :
    IsWellFormed source := by
  obtain ⟨program, ends⟩ := Option.isSome_iff_exists.mp ends
  rw [IsWellFormed, h, Unfinished.finish, ends]
  cases t.fault <;> simp

namespace Unfinished
variable [CharacterNames]

/-- Some words finish the program, whatever has been read and whatever gap comes first. -/
theorem exists_read_eq_finish (s : Unfinished) {gap : Text} (h : Gap gap) (p : Position) :
    ∃ w, ∀ last, ∃ (last' : Position) (t : Unfinished),
      s.read last ⟨gap ++ w, p⟩ = t.finish last' ∧ t.program?.isSome := by
  obtain ⟨terminals, mem⟩ := s.exists_mem_rest
  let words : List Word := terminals.map fun t => ⟨t, t.sample⟩
  have proper : ∀ word ∈ words, word.IsProper :=
    List.forall_mem_map.mpr fun t here =>
      Word.isProper_sample (ne_endOfInput_of_mem_rest mem t here)
  have same : (Word.place (p.afterText gap) words).map Token.terminal = terminals := by
    rw [Word.terminal_place, List.map_map]
    exact List.map_id terminals
  rw [← same, mem_rest_iff] at mem
  obtain ⟨t, fed, ends⟩ := mem
  refine ⟨Word.written words, fun last => ?_⟩
  obtain ⟨last', read⟩ := read_written proper p last h fed
  exact ⟨last', t, read, ends⟩

namespace Reaches
variable {source rest u : Text} {t : Unfinished} {p q : Position} {token : Token}

/-- What has been read up to a last gap can be completed. -/
theorem exists_isWellFormed (h : empty.Reaches ⟨source, .start⟩ t ⟨u, p⟩) (gap : LastGap u) :
    ∃ w, IsWellFormed (source ++ w) := by
  obtain ⟨w, finishes⟩ := t.exists_read_eq_finish gap.lineFeed p
  have reaches := h.append (isApart_lineFeed (t := w))
  obtain ⟨last, same⟩ := reaches.read_eq .start
  obtain ⟨last', s, read, ends⟩ := finishes last
  have parsed : Program.parse (source ++ .lineFeed :: w) = s.finish last' := by
    rw [← read, List.append_assoc]
    exact same
  exact ⟨.lineFeed :: w, isWellFormed_of_parse_eq parsed ends⟩

/-- A token that is refused is refused whatever is written behind it. -/
theorem parse_eq_error (h : empty.Reaches ⟨source ++ rest, .start⟩ t ⟨u ++ rest, p⟩)
    (found : Cursor.next t.mayCome ⟨u ++ rest, p⟩ = .token token ⟨rest, q⟩)
    (refused : t.feed token = none) {more : Text} (apart : IsApart more) :
    Program.parse (source ++ more) = .error (.unexpectedToken token) := by
  have here : Cursor.next t.mayCome ⟨u, p⟩ = .token token ⟨[], q⟩ := Cursor.next_of_append found
  have again := Cursor.next_append_of_isApart here apart
  obtain ⟨last, same⟩ := (h.of_append.append apart).read_eq .start
  refine same.trans ?_
  rw [Unfinished.read_eq, again]
  simp only [refused]

end Reaches

/-! ### Where errors are reported -/

/-- In front of what is unexpected is a gap, and the error is reported behind it. -/
theorem Breaks.exists_gap {t : Unfinished} {front rest : Text} {error : SourceError}
    (h : t.Breaks ⟨rest, Position.start.afterText front⟩ error) : ∃ gap behind,
      rest = gap ++ behind ∧ LastGap gap ∧ error.IsAt (front ++ rest) (front ++ gap).length ∧
        ∀ token next, Cursor.next t.mayCome ⟨rest, Position.start.afterText front⟩ =
          .token token next → behind = token.lexeme ++ next.rest := by
  have inside {gap behind : Text} (some : behind ≠ []) (same : rest = gap ++ behind) :
      (front ++ gap).length < (front ++ rest).length ∧
        (Position.start.afterText front).afterText gap =
          Position.start.afterText ((front ++ rest).take (front ++ gap).length) := by
    have length := List.length_pos_iff.mpr some
    rw [same, ← List.append_assoc, List.take_left, Position.afterText_append]
    refine ⟨?_, rfl⟩
    rw [@List.length_append _ (front ++ gap)]
    omega
  cases h with
  | end_ finished =>
      refine ⟨rest, [], (List.append_nil rest).symm, Cursor.next_finished finished, ?_, ?_⟩
      · rw [SourceError.IsAt, if_pos rfl]
      · intro token next found
        rw [finished] at found
        cases found
  | @token token next found refused =>
      obtain ⟨spells, gap, form, same, here, -⟩ := Cursor.next_sound found
      have other : token.terminal ≠ .endOfInput := by
        intro end_
        rw [end_] at spells
        cases spells
      have some : token.lexeme ++ next.rest ≠ [] := by
        obtain ⟨c, more, lexeme, -, -⟩ := token.terminal.exists_of_spells spells
        rw [lexeme]
        exact List.cons_ne_nil c (more ++ next.rest)
      refine ⟨gap, token.lexeme ++ next.rest, same, .gap form, ?_, ?_⟩
      · rw [SourceError.IsAt, if_neg other, here]
        exact inside some same
      · intro token' next' found'
        obtain ⟨rfl, rfl⟩ := Lexed.token.inj (found.symm.trans found')
        rfl
  | @character c position stuck =>
      obtain ⟨gap, more, form, same, here⟩ := Cursor.next_stuck stuck
      refine ⟨gap, c :: more, same, .gap form, ?_, ?_⟩
      · rw [SourceError.IsAt, here]
        exact inside (List.cons_ne_nil c more) same
      · intro token next found
        rw [stuck] at found
        cases found

end Unfinished

/-- Different offsets have different positions. -/
theorem Position.afterText_take_ne {source : Text} {m n : Nat} (less : m < n)
    (inside : n ≤ source.length) :
    start.afterText (source.take m) ≠ start.afterText (source.take n) := by
  have split := (List.take_append_drop m (source.take n)).symm
  rw [List.take_take, Nat.min_eq_left less.le] at split
  have some : (source.take n).drop m ≠ [] := by
    rw [← List.length_pos_iff, List.length_drop, List.length_take_of_le inside]
    exact Nat.sub_pos_of_lt less
  obtain ⟨c, more, between⟩ := List.exists_cons_of_ne_nil some
  rw [split, between, afterText_append]
  exact (before_afterText _ c more).ne

theorem Position.eq_of_afterText_take {source : Text} {m n : Nat} (hm : m < source.length)
    (hn : n < source.length)
    (same : start.afterText (source.take m) = start.afterText (source.take n)) : m = n := by
  rcases Nat.lt_trichotomy m n with less | equal | more
  · exact absurd same (afterText_take_ne less hn.le)
  · exact equal
  · exact absurd same.symm (afterText_take_ne more hm.le)

theorem SourceError.IsAt.unique {error : SourceError} {source : Text} {m n : Nat}
    (hm : error.IsAt source m) (hn : error.IsAt source n) : m = n := by
  cases error with
  | unexpectedToken token =>
      by_cases end_ : token.terminal = .endOfInput
      · rw [IsAt, if_pos end_] at hm hn
        exact hm.trans hn.symm
      · rw [IsAt, if_neg end_] at hm hn
        exact Position.eq_of_afterText_take hm.1 hn.1 (hm.2.symm.trans hn.2)
  | unexpectedCharacter c position =>
      exact Position.eq_of_afterText_take hm.1 hn.1 (hm.2.symm.trans hn.2)
  | badLiteral fault => exact hm.elim

namespace Program

/-- What is unexpected in a source is reported at the first place where the source cannot go on:
what stands in front of it can be completed, and a token there cannot be saved by what follows. -/
theorem parse_error_first [CharacterNames] {source : Text} {error : SourceError}
    (rejected : parse source = .error error) (unexpected : ∀ fault, error ≠ .badLiteral fault) :
    (∃! offset, error.IsAt source offset) ∧ ∀ offset, error.IsAt source offset →
      (∃ w, IsWellFormed (source.take offset ++ w)) ∧
        ∀ token, error = .unexpectedToken token → token.terminal ≠ .endOfInput →
          token.lexeme <+: source.drop offset ∧
            ∀ z, ¬IsWellFormed (source.take offset ++ token.lexeme ++ 0x20 :: z) := by
  obtain ⟨t, ⟨rest, position⟩, reaches, breaks⟩ :=
    Unfinished.exists_breaks_of_read rejected unexpected
  obtain ⟨front, whole, there⟩ := reaches.exists_front
  obtain rfl : source = front ++ rest := whole
  obtain rfl : position = Position.start.afterText front := there
  obtain ⟨gap, behind, split, last, here, follows⟩ := breaks.exists_gap
  refine ⟨⟨_, here, fun offset there => there.unique here⟩, fun offset there => ?_⟩
  obtain rfl := there.unique here
  rw [split, ← List.append_assoc] at reaches
  rw [split, ← List.append_assoc, List.take_left, List.drop_left]
  refine ⟨reaches.of_append.exists_isWellFormed last, ?_⟩
  rintro token rfl other
  cases breaks with
  | end_ finished => exact absurd rfl other
  | @token _ next found refused =>
      obtain rfl := follows token next found
      refine ⟨List.prefix_append token.lexeme next.rest, fun z accepted => ?_⟩
      rw [split, ← List.append_assoc] at found
      rw [← List.append_assoc, ← List.append_assoc gap] at reaches
      have error := reaches.parse_eq_error found refused (show IsApart (0x20 :: z) from rfl)
      exact accepted.1 token error

/-- In `var x;` the semicolon is unexpected, and it is so whatever follows. -/
theorem parse_error_first_semicolon :
    letI : CharacterNames := .ofList []
    parse (text "var x;") =
        .error (.unexpectedToken ⟨.mark .semicolon, text ";", ⟨1, 6⟩⟩) ∧
      (∃ w, IsWellFormed (text "var x" ++ w)) ∧
      ∀ z, ¬IsWellFormed (text "var x" ++ text ";" ++ 0x20 :: z) := by
  let _ : CharacterNames := .ofList []
  have rejected : parse (text "var x;") =
      .error (.unexpectedToken ⟨.mark .semicolon, text ";", ⟨1, 6⟩⟩) := by cbv
  have here : (SourceError.unexpectedToken ⟨.mark .semicolon, text ";", ⟨1, 6⟩⟩).IsAt
      (text "var x;") 5 := by
    rw [SourceError.IsAt, if_neg (by decide)]
    decide
  obtain ⟨-, first⟩ := parse_error_first rejected (by simp)
  obtain ⟨completed, refused⟩ := first 5 here
  exact ⟨rejected, completed, (refused _ rfl (by decide)).2⟩

end Program

end Script
