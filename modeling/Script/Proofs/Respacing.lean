import Mathlib.Logic.Function.Basic
import Script.Proofs.TokenReading

/-!
# Layout

What a source means does not depend on its layout: if the texts of its tokens are written with other
gaps between them, which begin with white space, then the same tokens are read, and the same program
with the new positions of these tokens.

Where a token ends may depend on what the parser expects, as a keyword may stand directly in front
of a word where no name may come. With white space behind it, the token ends there too.
-/

namespace Script

/-- A source that is laid out as words with gaps between them, and the positions of the words. White
space, or the end of the source, follows each of the words. -/
inductive Spaced : Position → Text → List Text → List Position → Prop
  | done {p : Position} {t : Text} : LastGap t → Spaced p t [] []
  | word {p : Position} {gap w rest : Text} {words : List Text} {positions : List Position} :
      Gap gap → IsApart rest → Spaced ((p.afterText gap).afterText w) rest words positions →
      Spaced p (gap ++ (w ++ rest)) (w :: words) (p.afterText gap :: positions)

/-! ### Positions of different tokens differ -/

namespace Position

/-- One position is in front of another. -/
def Before (p q : Position) : Prop :=
  p.line < q.line ∨ p.line = q.line ∧ p.column < q.column

theorem Before.ne {p q : Position} (h : p.Before q) : p ≠ q := by
  rintro rfl
  unfold Before at h
  omega

theorem Before.trans {p q r : Position} (h : p.Before q) (h' : q.Before r) : p.Before r := by
  unfold Before at *
  omega

theorem before_after (p : Position) (c : CodePoint) : p.Before (p.after c) := by
  unfold Before after
  split <;> simp

theorem before_afterText (p : Position) (c : CodePoint) (t : Text) :
    p.Before (p.afterText (c :: t)) := by
  induction t generalizing p c with
  | nil => exact p.before_after c
  | cons d t ih => exact (p.before_after c).trans (ih (p.after c) d)

end Position

namespace Unfinished.Reads
variable [CharacterNames] {s t : Unfinished} {place : Cursor} {tokens : List Token}

theorem exists_front (h : s.Reads place tokens t) :
    ∀ token ∈ tokens, ∃ front, token.position = place.position.afterText front := by
  induction h with
  | done _ => nofun
  | token found _ _ ih =>
      obtain ⟨-, gap, -, -, here, behind⟩ := Cursor.next_sound found
      refine List.forall_mem_cons.mpr ⟨⟨gap, here⟩, fun later mem => ?_⟩
      obtain ⟨front, there⟩ := ih later mem
      rw [behind, here, ← Position.afterText_append, ← Position.afterText_append] at there
      exact ⟨_, there⟩

theorem pairwise_before (h : s.Reads place tokens t) :
    (tokens.map Token.position).Pairwise Position.Before := by
  induction h with
  | done _ => exact .nil
  | @token _ _ _ _ _ token _ found _ reads ih =>
      obtain ⟨spells, _, -, -, -, behind⟩ := Cursor.next_sound found
      obtain ⟨c, more, lexeme, -, -⟩ := token.terminal.exists_of_spells spells
      refine .cons (List.forall_mem_map.mpr fun later mem => ?_) ih
      obtain ⟨front, there⟩ := reads.exists_front later mem
      rw [there, behind, ← Position.afterText_append, lexeme]
      exact Position.before_afterText _ c (more ++ front)

/-- The tokens of a reading are read in another layout as well, with the new positions. -/
theorem spaced (h : s.Reads place tokens t) {p : Position} {source : Text}
    {positions : List Position} (laid : Spaced p source (tokens.map Token.lexeme) positions)
    {f : Position → Position} (moved : positions = (tokens.map Token.position).map f) :
    (s.relocate f).Reads ⟨source, p⟩ (tokens.map (Token.relocate f)) (t.relocate f) := by
  induction h generalizing p source positions with
  | done _ =>
      cases laid with
      | done gap => exact .done (Cursor.next_lastGap gap p)
  | @token s t u place next token tokens found fed _ ih =>
      rw [List.map_cons] at laid ⊢
      rw [List.map_cons, List.map_cons] at moved
      cases laid with
      | @word _ gap _ rest _ positions between apart laid =>
          obtain ⟨here, moved⟩ := List.cons.inj moved
          have comes : s.mayCome token.terminal := mayCome_of_feed (Option.isSome_of_eq_some fed)
          have again : Cursor.next (s.relocate f).mayCome ⟨gap ++ (token.lexeme ++ rest), p⟩ =
              .token (token.relocate f) ⟨rest, (p.afterText gap).afterText token.lexeme⟩ := by
            rw [mayCome_relocate, Cursor.next_append between (Cursor.next_sound found).1 comes
              (fun name _ => Cursor.next_free found comes name) apart, here]
            rfl
          exact .token again (feed_relocate fed) (ih laid moved)

end Unfinished.Reads

theorem Spaced.length_eq {p : Position} {source : Text} {words : List Text}
    {positions : List Position} (h : Spaced p source words positions) :
    positions.length = words.length := by
  induction h with
  | done _ => rfl
  | word _ _ _ ih => exact congrArg Nat.succ ih

/-- Different positions can be moved to any others. -/
theorem Position.exists_move {positions positions' : List Position} (different : positions.Nodup)
    (length : positions'.length = positions.length) :
    ∃ f : Position → Position, positions' = positions.map f := by
  induction positions generalizing positions' with
  | nil => exact ⟨id, List.length_eq_zero_iff.mp length⟩
  | cons p positions ih =>
      obtain _ | ⟨p', positions'⟩ := positions'
      · cases length
      obtain ⟨new, different⟩ := List.nodup_cons.mp different
      obtain ⟨f, rfl⟩ := ih different (Nat.succ.inj length)
      refine ⟨Function.update f p p', ?_⟩
      rw [List.map_cons, Function.update_self]
      refine congrArg (p' :: ·) (List.map_congr_left fun q mem => ?_)
      have other : q ≠ p := by
        rintro rfl
        exact new mem
      rw [Function.update_of_ne other]

namespace Program

/-- Layout does not matter: if the texts of the tokens of a source are laid out anew, the same
program is read, with every position replaced by the new one of the same token. -/
theorem parse_spaced [CharacterNames] {source source' : Text} {program : Program}
    {positions : List Position} (accepted : parse source = .ok program)
    (laid : Spaced .start source' ((tokens source).map Token.lexeme) positions) :
    (∃ f : Position → Position, positions = ((tokens source).map Token.position).map f) ∧
      ∀ f : Position → Position, positions = ((tokens source).map Token.position).map f →
        tokens source' = (tokens source).map (Token.relocate f) ∧
          parse source' = .ok (program.map (Decl.relocate f)) := by
  obtain ⟨t, reads, ends, none⟩ := Unfinished.exists_reads_of_read accepted
  constructor
  · have different := reads.pairwise_before.imp Position.Before.ne
    have length : positions.length = ((tokens source).map Token.position).length := by
      rw [laid.length_eq, List.length_map, List.length_map]
    exact Position.exists_move different length
  · intro f moved
    have again := reads.spaced laid moved
    exact ⟨again.tokens_eq, again.read_eq_ok (Unfinished.program?_relocate ends) none _⟩

/-- A source in which the second `if` stands directly in front of its condition `b`. -/
def elseIf : Text :=
  text "if a\x7b\"\\N\x7bBULLET\x7d\";\x7delse ifb\x7b\x7d"

/-- The same with a comment and with the condition on a line of its own. -/
def elseIfSpaced : Text :=
  text "" ++ (text "if" ++ (text " " ++ (text "a" ++ (text " " ++ (text "\x7b" ++
    (text " //\n" ++ (text "\"\\N\x7bBULLET\x7d\"" ++ (text " " ++ (text ";" ++ (text " " ++
    (text "\x7d" ++ (text " " ++ (text "else" ++ (text " " ++ (text "if" ++ (text "\n" ++
    (text "b" ++ (text " " ++ (text "\x7b" ++ (text " " ++ (text "\x7d" ++
    text "\n")))))))))))))))))))))

theorem parse_spaced_elseIf :
    letI : CharacterNames := .ofList [(text "BULLET", 0x2022)]
    let positions : List Position :=
      [⟨1, 1⟩, ⟨1, 4⟩, ⟨1, 6⟩, ⟨2, 1⟩, ⟨2, 14⟩, ⟨2, 16⟩, ⟨2, 18⟩, ⟨2, 23⟩, ⟨3, 1⟩, ⟨3, 3⟩, ⟨3, 5⟩]
    let branch (second : Position) : Stmt :=
      .branch (.name (text "a") ⟨1, 4⟩) (.block [.stmt (.eval (.literal (.string [0x2022])))])
        (.stmt (.branch (.name (text "b") second) (.block []) .nothing))
    parse elseIf = .ok [.stmt (branch ⟨1, 27⟩)] ∧
      Spaced .start elseIfSpaced ((tokens elseIf).map Token.lexeme) positions ∧
      parse elseIfSpaced = .ok [.stmt (branch ⟨3, 1⟩)] := by
  intro positions branch
  let _ : CharacterNames := .ofList [(text "BULLET", 0x2022)]
  have accepted : parse elseIf = .ok [.stmt (branch ⟨1, 27⟩)] := by cbv
  have words : tokens elseIf = [⟨.keyword .if_, text "if", ⟨1, 1⟩⟩, ⟨.name, text "a", ⟨1, 4⟩⟩,
      ⟨.mark .leftBrace, text "\x7b", ⟨1, 5⟩⟩,
      ⟨.string, text "\"\\N\x7bBULLET\x7d\"", ⟨1, 6⟩⟩, ⟨.mark .semicolon, text ";", ⟨1, 18⟩⟩,
      ⟨.mark .rightBrace, text "\x7d", ⟨1, 19⟩⟩, ⟨.keyword .else_, text "else", ⟨1, 20⟩⟩,
      ⟨.keyword .if_, text "if", ⟨1, 25⟩⟩, ⟨.name, text "b", ⟨1, 27⟩⟩,
      ⟨.mark .leftBrace, text "\x7b", ⟨1, 28⟩⟩, ⟨.mark .rightBrace, text "\x7d", ⟨1, 29⟩⟩] := by
    cbv
  have laid : Spaced .start elseIfSpaced ((tokens elseIf).map Token.lexeme) positions := by
    have space : Gap (text " ") := .space rfl .nil
    have comment : Gap (text " //\n") := @Gap.space 0x20 _ rfl (@Gap.comment [] [] (by simp) .nil)
    rw [words]
    exact .word .nil rfl (.word space rfl (.word space rfl (.word comment rfl (.word space rfl
      (.word space rfl (.word space rfl (.word space rfl (.word (.space rfl .nil) rfl
      (.word space rfl (.word space rfl (.done (.gap (.space rfl .nil)))))))))))))
  obtain ⟨⟨f, moved⟩, read⟩ := parse_spaced accepted laid
  have parsed := (read f moved).2
  rw [words] at moved
  simp only [List.map_cons, List.map_nil, positions, List.cons.injEq, and_true] at moved
  obtain ⟨-, condition, -, -, -, -, -, -, condition', -⟩ := moved
  refine ⟨accepted, laid, parsed.trans ?_⟩
  simp only [List.map_cons, List.map_nil, branch, Decl.relocate, Stmt.relocate,
    Otherwise.relocate, Expr.relocate, relocateBody, ← condition, ← condition']

end Program

end Script
