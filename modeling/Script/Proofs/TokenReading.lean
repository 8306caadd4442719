import Script.Proofs.Acceptance
import Script.Proofs.Relocation

/-!
# The tokens of a source

Which tokens a source consists of depends on the programs that are read of it: each token is looked
up under the terminals that may come where it stands. A reading is the list of these tokens together
with the unfinished program that they lead to. Its tokens stand one behind the other, and none of
them is a name where the same word is a keyword that may come.
-/

namespace Script

/-! ### Lookups -/

section Lookups
variable {mayCome : Terminal → Bool} {t w : Text}

/-- A word is a name only if it is no keyword that may come. -/
theorem spelling_ne_of_wordTerminal (name : wordTerminal mayCome w = .name) {k : Keyword}
    (comes : mayCome (.keyword k)) : k.spelling ≠ w := by
  intro same
  unfold wordTerminal at name
  split at name
  · cases name
  · next none =>
      have missed := List.find?_eq_none.mp none k k.mem_all
      simp [comes, same] at missed

/-- A name is found only where a word starts, and is the whole word. -/
theorem exists_of_lexeme?_name (h : lexeme? mayCome t = some (.name, w)) :
    ∃ c rest, t = c :: rest ∧ c.isNameStart ∧ w = c :: rest.takeWhile CodePoint.isNamePart ∧
      wordTerminal mayCome w = .name := by
  rcases t with _ | ⟨c, rest⟩
  · cases h
  obtain ⟨start, found⟩ | ⟨-, found⟩ | ⟨-, found⟩ | found := lexeme?_cons_cases mayCome c
  · rw [found] at h
    obtain ⟨name, same⟩ := Prod.mk.inj (Option.some.inj h)
    rw [same] at name
    exact ⟨c, rest, rfl, start, same.symm, name⟩
  · rw [found] at h
    cases h
  · rw [found] at h
    obtain ⟨body, -, same⟩ := Option.map_eq_some_iff.mp h
    cases same
  · rw [found] at h
    have fixed : ∀ f ∈ fixedTerminals, f.1 ≠ .name := by decide
    exact absurd rfl (fixed _ (List.mem_of_find?_eq_some h))

/-- What is read at the front of a source: what is found for the terminals that may come, or else
for all terminals. -/
def lookup? (mayCome : Terminal → Bool) (t : Text) : Option (Terminal × Text) :=
  (lexeme? mayCome t).or (lexeme? (fun _ => true) t)

theorem spells_of_lookup? {terminal : Terminal} (h : lookup? mayCome t = some (terminal, w)) :
    terminal.spells w ∧ ∃ rest, t = w ++ rest := by
  obtain found | ⟨-, found⟩ := Option.or_eq_some_iff.mp h
  · exact spells_of_lexeme? found
  · exact spells_of_lexeme? found

/-- Where a word starts and a name may come, something that may come is found. -/
theorem lexeme?_of_isNameStart {c : CodePoint} (start : c.isNameStart) (name : mayCome .name)
    (rest : Text) : lexeme? mayCome (c :: rest) =
      some (wordTerminal mayCome (c :: rest.takeWhile CodePoint.isNamePart),
        c :: rest.takeWhile CodePoint.isNamePart) := by
  rw [lexeme?, if_pos (by rw [start, name]; rfl)]

end Lookups

/-! ### Gaps -/

/-- Text in front of which nothing is skipped. -/
def IsSolid : Text → Prop
  | [] => True
  | c :: rest => ¬c.isSpace ∧ (c = CodePoint.ofChar '/' → rest.head? ≠ some (CodePoint.ofChar '/'))

theorem skipGap_of_isSolid {t : Text} (h : IsSolid t) (p : Position) : skipGap p t = ⟨t, p⟩ := by
  match t with
  | [] => rfl
  | c :: rest =>
    obtain ⟨other, slash⟩ := h
    rw [skipGap.eq_def]
    dsimp only
    rw [if_neg other]
    split
    · next same =>
      match rest with
      | [] => rfl
      | d :: more => exact if_neg fun again => slash same (congrArg some again)
    · rfl

mutual

/-- As much is skipped as can be. -/
theorem isSolid_skipGap (p : Position) (t : Text) : IsSolid (skipGap p t).rest := by
  match t with
  | [] => trivial
  | c :: rest =>
    rw [skipGap.eq_def]
    dsimp only
    split
    · exact isSolid_skipGap _ rest
    · next other =>
      split
      · match rest with
        | [] => exact ⟨other, fun _ => nofun⟩
        | d :: more =>
          dsimp only
          split
          · exact isSolid_skipComment _ more
          · next single => exact ⟨other, fun _ same => single (Option.some.inj same)⟩
      · next single => exact ⟨other, fun same => absurd same single⟩

theorem isSolid_skipComment (p : Position) (t : Text) : IsSolid (skipComment p t).rest := by
  match t with
  | [] => trivial
  | c :: rest =>
    rw [skipComment]
    split
    · exact isSolid_skipGap _ rest
    · exact isSolid_skipComment _ rest

end

theorem skipComment_of_line {body : Text} (line : ∀ c ∈ body, c ≠ .lineFeed) (p : Position) :
    (skipComment p body).rest = [] := by
  induction body generalizing p with
  | nil => rfl
  | cons c body ih =>
      obtain ⟨other, line⟩ := List.forall_mem_cons.mp line
      rw [skipComment, if_neg other]
      exact ih line _

namespace Cursor
variable {mayCome : Terminal → Bool} {place next : Cursor} {token : Token}

theorem next_gap_append {gap : Text} (h : Gap gap) (t : Text) (p : Position) :
    Cursor.next mayCome ⟨gap ++ t, p⟩ = Cursor.next mayCome ⟨t, p.afterText gap⟩ := by
  unfold Cursor.next
  rw [skipGap_append h]

theorem next_lastGap {gap : Text} (h : LastGap gap) (p : Position) :
    Cursor.next mayCome ⟨gap, p⟩ = .finished := by
  cases h with
  | gap h => exact next_gap h p
  | @comment t body h line =>
      rw [next_gap_append h]
      have skipped : (skipGap (p.afterText t) (text "//" ++ body)).rest = [] := by
        rw [text, skipGap.eq_def]
        exact skipComment_of_line line _
      unfold Cursor.next
      dsimp only
      rw [skipped]

/-- A token is read if it is found at the front of what is left behind a gap. -/
theorem next_eq_token_iff : place.next mayCome = .token token next ↔
    ∃ gap, Gap gap ∧ place.rest = gap ++ (token.lexeme ++ next.rest) ∧
      IsSolid (token.lexeme ++ next.rest) ∧ token.position = place.position.afterText gap ∧
      lookup? mayCome (token.lexeme ++ next.rest) = some (token.terminal, token.lexeme) ∧
      next.position = token.position.afterText token.lexeme := by
  obtain ⟨terminal, w, p⟩ := token
  obtain ⟨rest, q⟩ := next
  constructor
  · intro h
    obtain ⟨gap, same, position, form⟩ := skipGap_sound place.position place.rest
    have solid := isSolid_skipGap place.position place.rest
    unfold Cursor.next at h
    dsimp only at h
    generalize skipGap place.position place.rest = here at h same position form solid
    obtain ⟨t, p'⟩ := here
    dsimp only at h same position form solid
    cases t with
    | nil => cases h
    | cons c more =>
        dsimp only at h
        split at h
        · next found =>
            obtain ⟨token, behind⟩ := Lexed.token.inj h
            obtain ⟨rfl, rfl, rfl⟩ := Token.mk.inj token
            obtain ⟨tail, front⟩ := (spells_of_lookup? found).2
            obtain ⟨rfl, rfl⟩ := Cursor.mk.inj behind
            rw [front, List.drop_left, ← front]
            exact ⟨gap, form.resolve_right nofun, same, solid, position, found, rfl⟩
        · cases h
  · rintro ⟨gap, form, same, solid, rfl, found, rfl⟩
    obtain ⟨c, more, rfl, -, -⟩ := terminal.exists_of_spells (spells_of_lookup? found).1
    have skipped : skipGap place.position place.rest =
        ⟨c :: more ++ rest, place.position.afterText gap⟩ := by
      rw [same, skipGap_append form, skipGap_of_isSolid solid]
    unfold Cursor.next
    rw [skipped]
    rw [lookup?, List.cons_append] at found
    dsimp only [List.cons_append]
    rw [found]
    dsimp only
    rw [← List.cons_append, List.drop_left]

/-- Where other terminals may come, what is found at the same place is read instead. -/
theorem next_of_lookup? {mayCome' : Terminal → Bool} {terminal : Terminal}
    (h : place.next mayCome = .token token next)
    (found : lookup? mayCome' (token.lexeme ++ next.rest) = some (terminal, token.lexeme)) :
    place.next mayCome' = .token { token with terminal } next := by
  obtain ⟨gap, form, same, solid, here, -, behind⟩ := next_eq_token_iff.mp h
  exact next_eq_token_iff.mpr ⟨gap, form, same, solid, here, found, behind⟩

/-- Where the next token begins does not depend on what may come. -/
theorem lexeme_append_eq {mayCome' : Terminal → Bool} {token' : Token} {next' : Cursor}
    (h : place.next mayCome = .token token next) (h' : place.next mayCome' = .token token' next') :
    token.lexeme ++ next.rest = token'.lexeme ++ next'.rest := by
  obtain ⟨gap, form, same, solid, -⟩ := next_eq_token_iff.mp h
  obtain ⟨gap', form', same', solid', -⟩ := next_eq_token_iff.mp h'
  have skipped := skipGap_append form .start (token.lexeme ++ next.rest)
  rw [← same, same', skipGap_append form', skipGap_of_isSolid solid,
    skipGap_of_isSolid solid'] at skipped
  exact (congrArg Cursor.rest skipped).symm

/-- A name that is read where names may come is no keyword that may come. -/
theorem next_free (h : place.next mayCome = .token token next) (comes : mayCome token.terminal)
    (name : token.terminal = .name) {k : Keyword} (keyword : mayCome (.keyword k)) :
    k.spelling ≠ token.lexeme := by
  obtain ⟨gap, -, -, -, -, found, -⟩ := next_eq_token_iff.mp h
  rw [name] at comes found
  obtain found | ⟨none, found⟩ := Option.or_eq_some_iff.mp found
  · obtain ⟨-, -, -, -, -, word⟩ := exists_of_lexeme?_name found
    exact spelling_ne_of_wordTerminal word keyword
  · -- among all terminals a name is found only if it is found among those that may come
    obtain ⟨c, rest, same, start, -⟩ := exists_of_lexeme?_name found
    rw [same, lexeme?_of_isNameStart start comes] at none
    cases none

end Cursor

/-! ### Readings -/

namespace Unfinished
variable [CharacterNames]

/-- The tokens that are read of the rest of a source, up to the first one that is refused. -/
def tokens (s : Unfinished) (place : Cursor) : List Token :=
  match _ : place.next s.mayCome with
  | .token token next =>
    match s.feed token with
    | some t => token :: t.tokens next
    | none => [token]
  | _ => []
termination_by place.rest.length
decreasing_by exact Cursor.next_lt ‹_›

/-- The rest of a source is read to its end, as these tokens that lead to an unfinished program. -/
inductive Reads : Unfinished → Cursor → List Token → Unfinished → Prop
  | done {s : Unfinished} {place : Cursor} : place.next s.mayCome = .finished → Reads s place [] s
  | token {s t u : Unfinished} {place next : Cursor} {token : Token} {tokens : List Token} :
      place.next s.mayCome = .token token next → s.feed token = some t →
      Reads t next tokens u → Reads s place (token :: tokens) u

theorem tokens_eq (s : Unfinished) (place : Cursor) : s.tokens place =
    match place.next s.mayCome with
    | .token token next =>
      match s.feed token with
      | some t => token :: t.tokens next
      | none => [token]
    | _ => [] := by
  rw [tokens]
  split
  · next token next found => rw [found]
  · next other =>
      split
      · next token next found => exact absurd found (other token next)
      · rfl

omit [CharacterNames] in
theorem finish_eq_ok_iff {s : Unfinished} {last : Position} {program : Program} :
    s.finish last = .ok program ↔ s.program? = some program ∧ s.fault = none := by
  unfold finish
  cases s.program? <;> cases s.fault <;> simp

theorem exists_reads_of_read {s : Unfinished} {last : Position} {place : Cursor}
    {program : Program} (h : s.read last place = .ok program) : ∃ t,
      s.Reads place (s.tokens place) t ∧ t.program? = some program ∧ t.fault = none := by
  fun_induction read s last place with
  | case1 s last place finished =>
      rw [tokens_eq, finished]
      exact ⟨s, .done finished, finish_eq_ok_iff.mp h⟩
  | case2 s last place c position stuck => cases h
  | case3 s last place token next found t fed ih =>
      obtain ⟨u, reads, ends⟩ := ih h
      rw [tokens_eq, found]
      simp only [fed]
      exact ⟨u, .token found fed reads, ends⟩
  | case4 s last place token next found refused => cases h

namespace Reads
variable {s t : Unfinished} {place : Cursor} {tokens : List Token}

theorem read_eq (h : s.Reads place tokens t) (last : Position) :
    ∃ last', s.read last place = t.finish last' := by
  induction h generalizing last with
  | done finished =>
      refine ⟨last, ?_⟩
      rw [Unfinished.read_eq, finished]
  | @token s t u place next token tokens found fed _ ih =>
      obtain ⟨last', same⟩ := ih token.position
      refine ⟨last', ?_⟩
      rw [Unfinished.read_eq, found]
      simp only [fed, same]

theorem tokens_eq (h : s.Reads place tokens t) : s.tokens place = tokens := by
  induction h with
  | done finished => rw [Unfinished.tokens_eq, finished]
  | token found fed _ ih =>
      rw [Unfinished.tokens_eq, found]
      simp only [fed, ih]

theorem read_eq_ok {program : Program} (h : s.Reads place tokens t)
    (ends : t.program? = some program) (none : t.fault = none) (last : Position) :
    s.read last place = .ok program := by
  obtain ⟨last', same⟩ := h.read_eq last
  rw [same]
  exact finish_eq_ok_iff.mpr ⟨ends, none⟩

end Reads

/-! ### What moves with the positions -/

/-- Whether a token is accepted depends on its terminal alone. -/
theorem isSome_feed_congr (s : Unfinished) {token token' : Token}
    (same : token.terminal = token'.terminal) : (s.feed token).isSome = (s.feed token').isSome := by
  rw [Bool.eq_iff_iff, isSome_feed, isSome_feed, same]

theorem mayCome_relocate (f : Position → Position) (s : Unfinished) :
    (s.relocate f).mayCome = s.mayCome := by
  funext terminal
  have fed : ((s.relocate f).feed ⟨terminal, [], .nowhere⟩).isSome =
      (s.feed ⟨terminal, [], .nowhere⟩).isSome := by
    have moved := congrArg Option.isSome (relocate_feed f s ⟨terminal, [], .nowhere⟩)
    rw [Option.isSome_map] at moved
    rw [moved]
    exact isSome_feed_congr _ rfl
  have brace : (s.relocate f).isAfterBrace = s.isAfterBrace := by
    obtain ⟨statements, levels, control, fault⟩ := s
    cases control <;> rfl
  rw [mayCome, mayCome, fed, brace]

theorem feed_relocate {f : Position → Position} {s t : Unfinished} {token : Token}
    (h : s.feed token = some t) :
    (s.relocate f).feed (token.relocate f) = some (t.relocate f) := by
  rw [← relocate_feed, h]
  rfl

omit [CharacterNames] in
theorem program?_relocate {f : Position → Position} {s : Unfinished} {program : Program}
    (h : s.program? = some program) :
    (s.relocate f).program? = some (program.map (Decl.relocate f)) := by
  rw [← relocate_program?, h]
  rfl

end Unfinished

/-- The tokens of a source, up to the first one that is refused. -/
def Program.tokens [CharacterNames] (source : Text) : List Token :=
  Unfinished.empty.tokens ⟨source, .start⟩

end Script
