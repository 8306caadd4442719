import Script.Program.OfSource
import Script.Proofs.Continuation
import Script.Proofs.Lexing

/-!
# Which sources are accepted

A source is well formed if nothing in it is unexpected. Then it consists of tokens with gaps between
them, and the terminals of the tokens can be derived from the grammar. Conversely, whenever a list
of terminals can be derived, any words for these terminals that are written with one space between
them form such a source, provided that no name is a reserved word.
-/

namespace Script

/-- A source is well formed if no token and no character of it is unexpected. Its literals need not
be readable. -/
def IsWellFormed [CharacterNames] (source : Text) : Prop :=
  (∀ token, Program.parse source ≠ .error (.unexpectedToken token)) ∧
    ∀ c position, Program.parse source ≠ .error (.unexpectedCharacter c position)

/-- The tokens of a source that starts at a position, with nothing but gaps between them. -/
inductive Laid : Position → Text → List Token → Prop
  | done {p : Position} {t : Text} : LastGap t → Laid p t []
  | token {p : Position} {gap rest : Text} {token : Token} {tokens : List Token} :
      Gap gap → token.terminal.spells token.lexeme → token.position = p.afterText gap →
      Laid (token.position.afterText token.lexeme) rest tokens →
      Laid p (gap ++ (token.lexeme ++ rest)) (token :: tokens)

/-- A terminal with a text for it. -/
structure Word where
  terminal : Terminal
  lexeme : Text
  deriving Repr, DecidableEq

namespace Word

/-- The text is a lexeme of the terminal, and no reserved word if the terminal is a name. -/
def IsProper (word : Word) : Prop :=
  word.terminal.spells word.lexeme ∧
    (word.terminal = .name → ∀ k ∈ Keyword.all, k.spelling ≠ word.lexeme)

instance : DecidablePred IsProper := fun _ => inferInstanceAs (Decidable (_ ∧ _))

/-- Words with one space between two of them. -/
def written (words : List Word) : Text :=
  Text.join [0x20] (words.map lexeme)

theorem written_cons_cons (first second : Word) (words : List Word) :
    written (first :: second :: words) =
      first.lexeme ++ ([0x20] ++ written (second :: words)) := by
  simp [written, Text.join]

/-- The tokens that written words are read as. -/
def place (p : Position) : List Word → List Token
  | [] => []
  | word :: words =>
    ⟨word.terminal, word.lexeme, p⟩ :: place ((p.afterText word.lexeme).after 0x20) words

theorem terminal_place (p : Position) (words : List Word) :
    (place p words).map Token.terminal = words.map terminal := by
  induction words generalizing p with
  | nil => rfl
  | cons word words ih => rw [place, List.map_cons, List.map_cons, ih]

end Word

namespace Unfinished
variable [CharacterNames] {s t : Unfinished}

theorem read_eq (s : Unfinished) (last : Position) (place : Cursor) : s.read last place =
    match place.next s.mayCome with
    | .finished => s.finish last
    | .stuck c position => .error (.unexpectedCharacter c position)
    | .token token next =>
      match s.feed token with
      | some s => s.read token.position next
      | none => .error (.unexpectedToken token) := by
  rw [read]
  split
  · next found => rw [found]
  · next c position found => rw [found]
  · next token next found =>
    cases fed : s.feed token <;> simp only [found, fed]

/-- Reading a source without anything unexpected is feeding the tokens that are laid in it. -/
theorem exists_laid_of_read (last : Position) (place : Cursor)
    (token : ∀ token, s.read last place ≠ .error (.unexpectedToken token))
    (point : ∀ c position, s.read last place ≠ .error (.unexpectedCharacter c position)) :
    ∃ tokens t, Laid place.position place.rest tokens ∧ s.feedAll tokens = some t ∧
      t.program?.isSome := by
  fun_induction read s last place with
  | case1 s last place finished =>
    refine ⟨[], s, .done (Cursor.next_finished finished), rfl, ?_⟩
    cases ends : s.program? with
    | none => simp [finish, ends] at token
    | some program => rfl
  | case2 s last place c position stuck => exact absurd rfl (point c position)
  | case3 s last place read next found t fed ih =>
    obtain ⟨tokens, u, laid, all, ends⟩ := ih token point
    obtain ⟨spells, gap, form, same, start, behind⟩ := Cursor.next_sound found
    rw [behind] at laid
    refine ⟨read :: tokens, u, ?_, ?_, ends⟩
    · rw [same]
      exact .token form spells start laid
    · rw [feedAll_cons, fed]
      exact all
  | case4 s last place read next found refused => exact absurd rfl (token read)

/-- Whether a token is accepted depends on its terminal alone. -/
theorem mayCome_of_feed {token : Token} (h : (s.feed token).isSome) :
    s.mayCome token.terminal := by
  rw [isSome_feed] at h
  rw [mayCome, Bool.or_eq_true, isSome_feed]
  exact .inl h

theorem read_gap {gap : Text} (h : Gap gap) (s : Unfinished) (p last : Position) :
    s.read last ⟨gap, p⟩ = s.finish last := by
  rw [read_eq, Cursor.next_gap h]

/-- A word that is set apart is read and fed if a token of its terminal is accepted. -/
theorem read_word {word : Word} (proper : word.IsProper) {gap rest : Text} (hgap : Gap gap)
    (apart : IsApart rest) (p last : Position)
    (fed : s.feed ⟨word.terminal, word.lexeme, p.afterText gap⟩ = some t) :
    s.read last ⟨gap ++ (word.lexeme ++ rest), p⟩ =
      t.read (p.afterText gap) ⟨rest, (p.afterText gap).afterText word.lexeme⟩ := by
  have comes : s.mayCome word.terminal := mayCome_of_feed (Option.isSome_of_eq_some fed)
  rw [read_eq, Cursor.next_append hgap proper.1 comes (fun name k _ => proper.2 name k k.mem_all)
    apart]
  simp only [fed]

theorem read_written {words : List Word} (proper : ∀ word ∈ words, word.IsProper)
    (p last : Position) {gap : Text} (hgap : Gap gap)
    (h : s.feedAll (Word.place (p.afterText gap) words) = some t) :
    ∃ last', s.read last ⟨gap ++ Word.written words, p⟩ = t.finish last' := by
  induction words generalizing s p last gap with
  | nil =>
    obtain rfl : s = t := Option.some.inj h
    refine ⟨last, ?_⟩
    rw [Word.written, List.map_nil, Text.join, List.append_nil, read_gap hgap]
  | cons word words ih =>
    obtain ⟨first, others⟩ := List.forall_mem_cons.mp proper
    rw [Word.place, feedAll_cons] at h
    obtain ⟨next, fed, h⟩ := Option.bind_eq_some_iff.mp h
    rcases words with _ | ⟨second, words⟩
    · obtain rfl : next = t := Option.some.inj h
      have apart : IsApart [] := trivial
      have step := read_word first hgap apart p last fed
      rw [List.append_nil] at step
      refine ⟨p.afterText gap, ?_⟩
      rw [Word.written, List.map_singleton, Text.join, step, read_gap .nil]
    · have apart : IsApart ([0x20] ++ Word.written (second :: words)) :=
        show CodePoint.isSpace 0x20 from rfl
      have step := read_word first hgap apart p last fed
      rw [← Word.written_cons_cons] at step
      have space : Gap [0x20] := .space rfl .nil
      obtain ⟨last', same⟩ := ih others _ (p.afterText gap) space h
      exact ⟨last', step.trans same⟩

end Unfinished

namespace Program

/-- The sources that are accepted are those of the grammar. -/
theorem accepts_grammar [CharacterNames] :
    (∀ source, IsWellFormed source → ∃ tokens, Laid .start source tokens ∧
      (Pattern.rule .start).Matches (tokens.map Token.terminal)) ∧
    ∀ words : List Word, (∀ word ∈ words, word.IsProper) →
      (Pattern.rule .start).Matches (words.map Word.terminal) →
      IsWellFormed (Word.written words) := by
  have derived (w : List Terminal) :
      (Pattern.rule .start).Matches w ↔ w ∈ Unfinished.empty.rest := by
    rw [Unfinished.rest_empty]
    rfl
  refine ⟨fun source formed => ?_, fun words proper derivable => ?_⟩
  · obtain ⟨tokens, t, laid, fed, ends⟩ :=
      Unfinished.exists_laid_of_read .start ⟨source, .start⟩ formed.1 formed.2
    refine ⟨tokens, laid, ?_⟩
    rw [derived, Unfinished.mem_rest_iff]
    exact ⟨t, fed, ends⟩
  · rw [derived, ← Word.terminal_place .start, Unfinished.mem_rest_iff] at derivable
    obtain ⟨t, fed, ends⟩ := derivable
    obtain ⟨last, same⟩ := Unfinished.read_written proper .start .start .nil fed
    have parsed : Program.parse (Word.written words) = t.finish last := same
    obtain ⟨program, ends⟩ := Option.isSome_iff_exists.mp ends
    rw [IsWellFormed, parsed, Unfinished.finish, ends]
    cases t.fault <;> simp

open Pattern Matches in
/-- What can be derived from the tightest of the levels is an expression. -/
theorem matches_expression {w : List Terminal} (h : (rule .unary).Matches w) :
    (rule .expression).Matches w := by
  have product : (rule .product).Matches w := rule (left (left (left h)))
  have sum : (rule .sum).Matches w := rule (left (left product))
  have comparison : (rule .comparison).Matches w := rule (left (left (left (left sum))))
  have equality : (rule .equality).Matches w := rule (left (left comparison))
  exact rule equality

open Pattern Matches in
/-- A declaration in front of a comment is accepted, and so is an assignment of a negated element,
of which the derivation is given. -/
theorem accepts_grammar_assignment :
    letI : CharacterNames := .ofList []
    (IsWellFormed (text "var if_=1;//") ∧ ∃ tokens, Laid .start (text "var if_=1;//") tokens ∧
      (rule .start).Matches (tokens.map Token.terminal)) ∧
    let words : List Word :=
      [⟨.name, text "x"⟩, ⟨.mark .equal, text "="⟩, ⟨.mark .bang, text "!"⟩, ⟨.name, text "y"⟩,
        ⟨.mark .leftBracket, text "["⟩, ⟨.number, text "0"⟩, ⟨.mark .rightBracket, text "]"⟩,
        ⟨.mark .semicolon, text ";"⟩]
    (∀ word ∈ words, word.IsProper) ∧ (rule .start).Matches (words.map Word.terminal) ∧
      IsWellFormed (text "x = ! y [ 0 ] ;") := by
  let _ : CharacterNames := .ofList []
  have parsed : Program.parse (text "var if_=1;//") =
      .ok [.stmt (.declare (text "if_") (.literal (.integer 1)))] := by cbv
  have formed : IsWellFormed (text "var if_=1;//") := by simp [IsWellFormed, parsed]
  refine ⟨⟨formed, accepts_grammar.1 _ formed⟩, ?_⟩
  intro words
  have proper : ∀ word ∈ words, word.IsProper := by decide
  have derivable : (rule .start).Matches (words.map Word.terminal) := by
    have name : (rule .primary).Matches [.name] := rule (left (left (right (terminal _))))
    have zero : (rule .primary).Matches [.number] :=
      rule (left (left (left (left (left (left (left (left (terminal _)))))))))
    have index : (rule .expression).Matches [.number] :=
      matches_expression (rule (left (left (rule (left zero)))))
    have element : (rule .postfixed).Matches
        ([.name] ++ [.mark .leftBracket] ++ [.number] ++ [.mark .rightBracket]) :=
      rule (right (seq (seq (seq (rule (left name)) (terminal _)) index) (terminal _)))
    have negated : (rule .unary).Matches ([.mark .bang] ++ _) :=
      rule (right (seq (terminal _) (rule (left (left element)))))
    have assign : (rule .assign).Matches (_ ++ [.mark .semicolon]) :=
      rule (seq (seq (seq (terminal .name) (terminal (.mark .equal)))
        (matches_expression negated)) (terminal _))
    have statement : (rule .statement).Matches _ :=
      rule (left (left (left (left (right assign)))))
    have program : (rule .program).Matches (_ ++ []) := rule (more (rule (right statement)) done)
    exact rule program
  exact ⟨proper, derivable, accepts_grammar.2 words proper derivable⟩

end Program

end Script
