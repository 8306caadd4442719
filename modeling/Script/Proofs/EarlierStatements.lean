import Script.Proofs.TokenReading

/-!
# Statements behind others

An unfinished program may stand behind statements that are complete. What is read then does not look
at them: the same tokens are accepted, and they lead to what they would lead to alone, behind these
statements. Whether `else` may come is decided by the token before: a brace has just been closed
exactly if the last token that was read is one.
-/

namespace Script

namespace Unfinished

/-- The statements of the innermost block and the enclosing blocks, with statements before the
outermost block. All statements are listed from the last to the first. -/
def pushBehind (earlier statements : List Decl) : List Level → List Decl × List Level
  | [] => (statements ++ earlier, [])
  | level :: levels =>
    let outer := pushBehind earlier level.before levels
    (statements, ⟨level.opener, outer.1⟩ :: outer.2)

/-- An unfinished program behind other statements, which are listed from the last to the first. -/
def behind (earlier : List Decl) (s : Unfinished) : Unfinished :=
  { s with
    statements := (pushBehind earlier s.statements s.levels).1
    levels := (pushBehind earlier s.statements s.levels).2 }

/-- A program is complete outside of all blocks at the start of a statement, which may be the place
behind a branch. -/
theorem program?_cases {s : Unfinished} {program : Program} (h : s.program? = some program) :
    s.levels = [] ∧
      ((∃ afterBrace, s.control = .statement afterBrace ∧ s.statements.reverse = program) ∨
        ∃ last arms, s.control = .afterArm last arms ∧
          (.stmt (branchOf last .nothing arms) :: s.statements).reverse = program) := by
  obtain ⟨statements, levels, control, fault⟩ := s
  cases levels with
  | cons level levels => cases h
  | nil =>
      refine ⟨rfl, ?_⟩
      cases control with
      | statement afterBrace => exact .inl ⟨afterBrace, rfl, Option.some.inj h⟩
      | afterArm last arms => exact .inr ⟨last, arms, rfl, Option.some.inj h⟩
      | _ => cases h

section Steps
variable (earlier : List Decl) (s : Unfinished) (goal : Goal) (frames : List Frame)

theorem behind_add (d : Decl) (afterBrace : Bool) :
    (s.add d afterBrace).behind earlier = (s.behind earlier).add d afterBrace := by
  obtain ⟨statements, levels, control, fault⟩ := s
  cases levels <;> rfl

theorem behind_closeBlock? :
    s.closeBlock?.map (behind earlier) = (s.behind earlier).closeBlock? := by
  obtain ⟨statements, levels, control, fault⟩ := s
  cases levels with
  | nil => rfl
  | cons level levels =>
      obtain ⟨opener, before⟩ := level
      have added := behind_add earlier ⟨before, levels, control, fault⟩
      cases opener with
      | branch condition arms => rfl
      | _ => exact congrArg some (added _ _)

theorem behind_feedOperand [CharacterNames] (token : Token) :
    (s.feedOperand goal frames token).map (behind earlier) =
      (s.behind earlier).feedOperand goal frames token := by
  obtain ⟨t, lexeme, p⟩ := token
  cases t with
  | number =>
      simp only [feedOperand]
      cases numberLiteral lexeme <;> rfl
  | string =>
      simp only [feedOperand]
      cases stringLiteral lexeme <;> rfl
  | keyword k => cases k <;> rfl
  | mark m =>
      cases m with
      | rightParen =>
          rcases frames with _ | ⟨⟨⟩ | ⟨⟩ | ⟨⟩ | ⟨⟩ | ⟨callee, start, _ | _⟩ | ⟨⟩, frames⟩ <;> rfl
      | rightBracket =>
          rcases frames with _ | ⟨⟨⟩ | ⟨⟩ | ⟨⟩ | ⟨⟩ | ⟨⟩ | ⟨start, _ | _⟩, frames⟩ <;> rfl
      | semicolon =>
          cases goal <;> cases frames <;> first | rfl | exact congrArg some (behind_add _ _ _ _)
      | _ => rfl
  | _ => rfl

theorem behind_feedClose (x : Operand) (mark : Mark) :
    (s.feedClose goal frames x mark).map (behind earlier) =
      (s.behind earlier).feedClose goal frames x mark := by
  cases frames with
  | nil =>
      cases mark with
      | semicolon => cases goal <;> first | rfl | exact congrArg some (behind_add _ _ _ _)
      | leftBrace => cases goal <;> rfl
      | _ => rfl
  | cons frame frames => cases frame <;> cases mark <;> rfl

theorem behind_feedAfterOperand (x : Operand) (token : Token) :
    (s.feedAfterOperand goal frames x token).map (behind earlier) =
      (s.behind earlier).feedAfterOperand goal frames x token := by
  obtain ⟨t, lexeme, p⟩ := token
  cases t with
  | mark m =>
      by_cases bracket : m = .leftBracket
      · subst bracket
        rfl
      · cases operator : BinaryOp.ofMark? m with
        | some op =>
            simp only [feedAfterOperand, operator]
            rfl
        | none =>
            simp only [feedAfterOperand, operator]
            exact behind_feedClose earlier s goal _ _ m
  | _ => rfl

theorem behind_feedAfterName (name : Name) (position : Position) (token : Token) :
    (s.feedAfterName goal frames name position token).map (behind earlier) =
      (s.behind earlier).feedAfterName goal frames name position token := by
  unfold feedAfterName
  split
  · rfl
  · rfl
  · exact behind_feedAfterOperand earlier s _ _ _ token

theorem behind_feedStatement [CharacterNames] (token : Token) :
    (s.feedStatement token).map (behind earlier) = (s.behind earlier).feedStatement token := by
  have operand := behind_feedOperand earlier s .eval [] token
  obtain ⟨t, lexeme, p⟩ := token
  cases t with
  | keyword k => cases k <;> rfl
  | mark m =>
      cases m with
      | rightBrace => exact behind_closeBlock? earlier s
      | leftBrace => rfl
      | _ => exact operand
  | _ => exact operand

/-- Tokens are read as without the statements before. -/
theorem behind_feed [CharacterNames] (token : Token) :
    (s.feed token).map (behind earlier) = (s.behind earlier).feed token := by
  obtain ⟨statements, levels, control, fault⟩ := s
  cases control with
  | statement afterBrace => exact behind_feedStatement earlier _ token
  | operand goal frames => exact behind_feedOperand earlier _ goal frames token
  | afterName goal frames name position =>
      exact behind_feedAfterName earlier _ goal frames name position token
  | afterOperand goal frames x => exact behind_feedAfterOperand earlier _ goal frames x token
  | afterArm last arms =>
      by_cases other : token.terminal = .keyword .else_
      · obtain ⟨t, lexeme, p⟩ := token
        subst other
        rfl
      · rw [feed_afterArm _ last arms rfl other, behind_feedStatement, behind_add]
        exact (feed_afterArm (behind earlier ⟨statements, levels, .afterArm last arms, fault⟩)
          last arms rfl other).symm
  | _ =>
      obtain ⟨t, lexeme, p⟩ := token
      cases t with
      | keyword k => cases k <;> rfl
      | mark m => cases m <;> rfl
      | _ => rfl

theorem mayCome_behind [CharacterNames] : (s.behind earlier).mayCome = s.mayCome := by
  funext terminal
  have fed := congrArg Option.isSome (behind_feed earlier s ⟨terminal, [], .nowhere⟩)
  rw [Option.isSome_map] at fed
  rw [mayCome, mayCome, ← fed]
  rfl

theorem program?_behind {program : Program} (h : s.program? = some program) :
    (s.behind earlier).program? = some (earlier.reverse ++ program) := by
  obtain ⟨statements, levels, control, fault⟩ := s
  obtain ⟨outermost, ⟨afterBrace, here, rfl⟩ | ⟨last, arms, here, rfl⟩⟩ := program?_cases h
  · obtain rfl : levels = [] := outermost
    obtain rfl : control = .statement afterBrace := here
    exact congrArg some List.reverse_append
  · obtain rfl : levels = [] := outermost
    obtain rfl : control = .afterArm last arms := here
    refine congrArg some ?_
    exact @List.reverse_append _ (.stmt (branchOf last .nothing arms) :: statements) earlier

end Steps

/-! ### Closing braces -/

section Braces
variable {s t : Unfinished} {goal : Goal} {frames : List Frame} {token : Token}

theorem isAfterBrace_feedOperand [CharacterNames] (h : s.feedOperand goal frames token = some t) :
    ¬t.isAfterBrace ∧ token.terminal ≠ .mark .rightBrace := by
  obtain ⟨terminal, lexeme, p⟩ := token
  have other : terminal ≠ .mark .rightBrace := by
    rintro rfl
    cases h
  refine ⟨?_, other⟩
  cases terminal with
  | number =>
      simp only [feedOperand] at h
      cases read : numberLiteral lexeme <;> rw [read] at h <;> cases h <;> exact Bool.false_ne_true
  | string =>
      simp only [feedOperand] at h
      cases read : stringLiteral lexeme <;> rw [read] at h <;> cases h <;> exact Bool.false_ne_true
  | keyword k => cases k <;> cases h <;> exact Bool.false_ne_true
  | mark m =>
      cases m with
      | rightParen =>
          rcases frames with _ | ⟨⟨⟩ | ⟨⟩ | ⟨⟩ | ⟨⟩ | ⟨callee, start, _ | _⟩ | ⟨⟩, frames⟩ <;>
            cases h
          exact Bool.false_ne_true
      | rightBracket =>
          rcases frames with _ | ⟨⟨⟩ | ⟨⟩ | ⟨⟩ | ⟨⟩ | ⟨⟩ | ⟨start, _ | _⟩, frames⟩ <;> cases h
          exact Bool.false_ne_true
      | semicolon =>
          cases goal <;> cases frames <;> cases h
          exact Bool.false_ne_true
      | _ => cases h <;> exact Bool.false_ne_true
  | _ => cases h <;> exact Bool.false_ne_true

theorem isAfterBrace_feedClose {x : Operand} {mark : Mark}
    (h : s.feedClose goal frames x mark = some t) : ¬t.isAfterBrace ∧ mark ≠ .rightBrace := by
  unfold feedClose at h
  split at h
  -- the end of a statement and the beginning of a block are looked up by the goal
  case h_7 =>
    obtain ⟨statement, -, rfl⟩ := Option.map_eq_some_iff.mp h
    exact ⟨Bool.false_ne_true, by simp⟩
  case h_8 =>
    obtain ⟨opener, -, rfl⟩ := Option.map_eq_some_iff.mp h
    exact ⟨Bool.false_ne_true, by simp⟩
  case h_9 => cases h
  all_goals
    cases h
    exact ⟨Bool.false_ne_true, by simp⟩

theorem isAfterBrace_feedAfterOperand {x : Operand}
    (h : s.feedAfterOperand goal frames x token = some t) :
    ¬t.isAfterBrace ∧ token.terminal ≠ .mark .rightBrace := by
  obtain ⟨terminal, lexeme, p⟩ := token
  cases terminal with
  | mark m =>
      by_cases bracket : m = .leftBracket
      · subst bracket
        cases h
        exact ⟨Bool.false_ne_true, by simp⟩
      · cases operator : BinaryOp.ofMark? m with
        | some op =>
            simp only [feedAfterOperand, operator] at h
            cases h
            refine ⟨Bool.false_ne_true, fun same => ?_⟩
            cases same
            cases operator
        | none =>
            simp only [feedAfterOperand, operator] at h
            obtain ⟨open_, other⟩ := isAfterBrace_feedClose h
            exact ⟨open_, fun same => other (Terminal.mark.inj same)⟩
  | _ => cases h

theorem isAfterBrace_feedAfterName {name : Name} {position : Position}
    (h : s.feedAfterName goal frames name position token = some t) :
    ¬t.isAfterBrace ∧ token.terminal ≠ .mark .rightBrace := by
  by_cases paren : token.terminal = .mark .leftParen
  · obtain ⟨terminal, lexeme, p⟩ := token
    subst paren
    cases h
    exact ⟨Bool.false_ne_true, by simp⟩
  by_cases equal : token.terminal = .mark .equal
  · refine ⟨?_, fun same => by cases same.symm.trans equal⟩
    unfold feedAfterName at h
    split at h
    · cases h
      exact Bool.false_ne_true
    · cases h
      exact Bool.false_ne_true
    · exact (isAfterBrace_feedAfterOperand h).1
  · rw [feedAfterName_of_ne _ _ _ _ _ paren equal] at h
    exact isAfterBrace_feedAfterOperand h

theorem isAfterBrace_closeBlock? (h : s.closeBlock? = some t) : t.isAfterBrace := by
  obtain ⟨statements, levels, control, fault⟩ := s
  cases levels with
  | nil => cases h
  | cons level levels =>
      obtain ⟨opener, before⟩ := level
      cases opener <;> cases h <;> rfl

theorem isAfterBrace_feedStatement [CharacterNames] (h : s.feedStatement token = some t) :
    t.isAfterBrace ↔ token.terminal = .mark .rightBrace := by
  have operand (h : s.feedOperand .eval [] token = some t) :
      t.isAfterBrace ↔ token.terminal = .mark .rightBrace :=
    iff_of_false (isAfterBrace_feedOperand h).1 (isAfterBrace_feedOperand h).2
  obtain ⟨terminal, lexeme, p⟩ := token
  cases terminal with
  | keyword k =>
      cases k <;> first
        | exact operand h
        | cases h
          exact iff_of_false Bool.false_ne_true (by simp)
  | mark m =>
      cases m with
      | rightBrace => exact iff_of_true (isAfterBrace_closeBlock? h) rfl
      | leftBrace =>
          cases h
          exact iff_of_false Bool.false_ne_true (by simp)
      | _ => exact operand h
  | _ => exact operand h

/-- A brace has just been closed exactly if the last token is one. -/
theorem isAfterBrace_feed [CharacterNames] (h : s.feed token = some t) :
    t.isAfterBrace ↔ token.terminal = .mark .rightBrace := by
  obtain ⟨statements, levels, control, fault⟩ := s
  cases control with
  | statement afterBrace => exact isAfterBrace_feedStatement h
  | operand goal frames =>
      exact iff_of_false (isAfterBrace_feedOperand h).1 (isAfterBrace_feedOperand h).2
  | afterName goal frames name position =>
      exact iff_of_false (isAfterBrace_feedAfterName h).1 (isAfterBrace_feedAfterName h).2
  | afterOperand goal frames x =>
      exact iff_of_false (isAfterBrace_feedAfterOperand h).1 (isAfterBrace_feedAfterOperand h).2
  | afterArm last arms =>
      by_cases other : token.terminal = .keyword .else_
      · obtain ⟨terminal, lexeme, p⟩ := token
        subst other
        cases h
        exact iff_of_false Bool.false_ne_true (by simp)
      · rw [feed_afterArm _ last arms rfl other] at h
        exact isAfterBrace_feedStatement h
  | _ =>
      obtain ⟨terminal, lexeme, p⟩ := token
      cases terminal with
      | keyword k => cases k <;> cases h <;> exact iff_of_false Bool.false_ne_true (by simp)
      | mark m => cases m <;> cases h <;> exact iff_of_false Bool.false_ne_true (by simp)
      | _ => cases h <;> exact iff_of_false Bool.false_ne_true (by simp)

theorem Reads.isAfterBrace_iff [CharacterNames] {place : Cursor} {tokens : List Token}
    (h : s.Reads place tokens t) : t.isAfterBrace ↔
      tokens.getLast?.map Token.terminal = some (.mark .rightBrace) ∨
        tokens = [] ∧ s.isAfterBrace := by
  induction h with
  | done _ => simp
  | @token s t u _ _ token tokens _ fed _ ih =>
      rw [ih, isAfterBrace_feed fed]
      cases tokens with
      | nil => simp
      | cons next tokens => simp [List.getLast?_cons]

end Braces

theorem Reads.behind [CharacterNames] {s t : Unfinished} {place : Cursor} {tokens : List Token}
    (h : s.Reads place tokens t) (earlier : List Decl) :
    (s.behind earlier).Reads place tokens (t.behind earlier) := by
  induction h with
  | @done s _ finished => exact .done (by rwa [mayCome_behind])
  | @token s t u place next token tokens found fed _ ih =>
      have fed' := behind_feed earlier s token
      rw [fed] at fed'
      exact .token (by rwa [mayCome_behind]) fed'.symm ih

end Unfinished

end Script
