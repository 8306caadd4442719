import Script.Proofs.EarlierStatements
import Script.Proofs.LexemeEnds
import Script.Proofs.ReservedWords

/-!
# Sources one behind the other

Two sources with a line feed between them are read as the statements of the first followed by those
of the second, with the positions of the second moved down. The line feed ends the last token of the
first source, and a comment behind it; what follows is read as at the start of a source, with one
exception: `else` may come directly behind a closing brace. There it is the keyword, and no longer a
name, and the source is rejected whether or not there is a branch for it.
-/

namespace Script

/-! ### What a line feed ends -/

theorem isApart_lineFeed {t : Text} : IsApart (.lineFeed :: t) :=
  show CodePoint.isSpace .lineFeed from rfl

theorem LastGap.lineFeed {gap : Text} (h : LastGap gap) : Gap (gap ++ [.lineFeed]) := by
  cases h with
  | gap h => exact h.append (.space rfl .nil)
  | comment h line =>
      rw [List.append_assoc]
      exact h.append (.comment line .nil)

/-! ### Moving down -/

namespace Position

/-- The position some lines further down, in the same column. -/
def down (lines : Nat) (p : Position) : Position :=
  ⟨p.line + lines, p.column⟩

theorem down_afterText (lines : Nat) (p : Position) (t : Text) :
    (p.afterText t).down lines = (p.down lines).afterText t := by
  induction t generalizing p with
  | nil => rfl
  | cons c t ih =>
      have step : (p.after c).down lines = (p.down lines).after c := by
        unfold after down
        split
        · exact congrArg (Position.mk · 1) (Nat.succ_add p.line lines)
        · rfl
      exact (ih (p.after c)).trans (congrArg (afterText · t) step)

theorem start_afterText_lineFeed (t : Text) :
    start.afterText (t ++ [.lineFeed]) = start.down (t.count .lineFeed + 1) := by
  rw [start_afterText, List.count_append, List.rtakeWhile_concat_neg _ _ _ (by decide)]
  exact congrArg (Position.mk · 1) (Nat.add_comm _ 1)

end Position

namespace Unfinished.Reads
variable [CharacterNames] {s t : Unfinished} {place : Cursor} {tokens : List Token}

/-- A source that starts further down is read with all positions moved down. -/
theorem down (h : s.Reads place tokens t) (lines : Nat) :
    (s.relocate (.down lines)).Reads ⟨place.rest, place.position.down lines⟩
      (tokens.map (Token.relocate (.down lines))) (t.relocate (.down lines)) := by
  induction h with
  | done finished => exact .done (Cursor.next_lastGap (Cursor.next_finished finished) _)
  | @token s t u place next token tokens found fed _ ih =>
      obtain ⟨gap, form, same, solid, here, lexed, behind⟩ := Cursor.next_eq_token_iff.mp found
      refine .token (Cursor.next_eq_token_iff.mpr ?_) (feed_relocate fed) ih
      rw [mayCome_relocate]
      refine ⟨gap, form, same, solid, ?_, lexed, ?_⟩
      · rw [← Position.down_afterText, ← here]
        rfl
      · rw [behind, Position.down_afterText]
        rfl

/-- What is read of a source that goes on behind a line feed is what is read of the rest from where
the reading of the first part has led to. -/
theorem read_append_lineFeed (h : s.Reads place tokens t) (more : Text) (last : Position) :
    ∃ last', s.read last ⟨place.rest ++ .lineFeed :: more, place.position⟩ =
      t.read last' ⟨more, place.position.afterText (place.rest ++ [.lineFeed])⟩ := by
  induction h generalizing last with
  | @done s place finished =>
      refine ⟨last, ?_⟩
      have gap := (Cursor.next_finished finished).lineFeed
      have split : place.rest ++ .lineFeed :: more = place.rest ++ [.lineFeed] ++ more := by simp
      rw [Unfinished.read_eq, Unfinished.read_eq, split, Cursor.next_gap_append gap]
  | @token s t u place next token tokens found fed _ ih =>
      obtain ⟨last', same⟩ := ih token.position
      refine ⟨last', ?_⟩
      rw [Unfinished.read_eq, Cursor.next_append_of_isApart found isApart_lineFeed]
      simp only [fed, same]
      obtain ⟨-, gap, -, front, here, behind⟩ := Cursor.next_sound found
      rw [behind, here, front, ← Position.afterText_append, ← Position.afterText_append]
      simp only [List.append_assoc]

end Unfinished.Reads

/-! ### What follows a program -/

/-- The word `else` does not stand where no name could begin. -/
theorem isPrefixOf_else {f : Terminal × Text} (mem : f ∈ fixedTerminals)
    (else_ : f.1 = .keyword .else_) {c : CodePoint} (plain : ¬c.isNameStart) (rest : Text) :
    f.2.isPrefixOf (c :: rest) = false := by
  have words : ∀ f ∈ fixedTerminals, f.1 = .keyword .else_ →
      f.2.head?.all CodePoint.isNameStart ∧ f.2 ≠ [] := by decide
  obtain ⟨word, some⟩ := words f mem else_
  obtain ⟨d, more, same⟩ := List.exists_cons_of_ne_nil some
  rw [same] at word ⊢
  have differ : d ≠ c := by
    rintro rfl
    exact plain word
  rw [List.isPrefixOf_cons_cons, beq_eq_false_iff_ne.mpr differ, Bool.false_and]

section Junction
variable {mayCome mayCome' : Terminal → Bool}

/-- Whether `else` may come only matters for the word `else`. -/
theorem lexeme?_of_else (same : ∀ terminal, terminal ≠ .keyword .else_ →
      mayCome' terminal = mayCome terminal) (name : mayCome .name) (t : Text)
    (other : ∀ terminal, lexeme? mayCome t ≠ some (terminal, text "else")) :
    lexeme? mayCome' t = lexeme? mayCome t := by
  have name' : mayCome' .name := (same .name (by decide)).trans name
  cases t with
  | nil => rfl
  | cons c rest =>
      by_cases start : c.isNameStart
      · rw [lexeme?_of_isNameStart start name] at other ⊢
        rw [lexeme?_of_isNameStart start name', wordTerminal, wordTerminal,
          List.find?_congr fun k _ => ?_]
        by_cases else_ : k = .else_
        · have spelled : k.spelling ≠ c :: rest.takeWhile CodePoint.isNamePart := by
            rintro word
            rw [← word, else_] at other
            exact other _ rfl
          rw [beq_eq_false_iff_ne.mpr spelled, Bool.and_false, Bool.and_false]
        · rw [same _ fun again => else_ (Terminal.keyword.inj again)]
      · have plain : c.isNameStart = false := Bool.not_eq_true _ ▸ start
        rw [lexeme?, lexeme?, plain, Bool.false_and, Bool.false_and, if_neg Bool.false_ne_true,
          if_neg Bool.false_ne_true, same .number (by decide), same .string (by decide),
          List.find?_congr fun f mem => ?_]
        by_cases else_ : f.1 = .keyword .else_
        · have apart := isPrefixOf_else mem else_ start rest
          exact (congrArg (mayCome' f.1 && ·) apart).trans
            ((Bool.and_false _).trans ((congrArg (mayCome f.1 && ·) apart).trans
              (Bool.and_false _)).symm)
        · exact congrArg (· && f.2.isPrefixOf (c :: rest)) (same f.1 else_)

theorem lookup?_word {terminal : Terminal} {w rest : Text} (spells : Terminal.name.spells w)
    (found : lookup? mayCome (w ++ rest) = some (terminal, w)) (name : mayCome .name)
    (name' : mayCome' .name) : terminal = wordTerminal mayCome w ∧
      lookup? mayCome' (w ++ rest) = some (wordTerminal mayCome' w, w) := by
  obtain ⟨c, more, rfl, -, -⟩ := Terminal.name.exists_of_spells spells
  have start : c.isNameStart := (Bool.and_eq_true _ _ ▸ spells).1
  rw [List.cons_append, lookup?, lexeme?_of_isNameStart start name, Option.some_or] at found
  obtain ⟨same, word⟩ := Prod.mk.inj (Option.some.inj found)
  rw [List.cons_append, lookup?, lexeme?_of_isNameStart start name', Option.some_or, word]
  exact ⟨(word ▸ same).symm, rfl⟩

end Junction

namespace Unfinished

theorem feedOperand_goTo [CharacterNames] (s : Unfinished) (control : Control) (token : Token) :
    (s.goTo control).feedOperand .eval [] token = s.feedOperand .eval [] token := by
  obtain ⟨terminal, w, p⟩ := token
  cases terminal with
  | number =>
      simp only [feedOperand]
      cases numberLiteral w <;> rfl
  | string =>
      simp only [feedOperand]
      cases stringLiteral w <;> rfl
  | keyword k => cases k <;> rfl
  | mark m => cases m <;> rfl
  | _ => rfl

/-- The first token of a statement is read without regard to what has been read since the last. -/
theorem feedStatement_goTo [CharacterNames] (s : Unfinished) (control : Control) (token : Token) :
    (s.goTo control).feedStatement token = s.feedStatement token := by
  have operand := feedOperand_goTo s control token
  obtain ⟨terminal, w, p⟩ := token
  cases terminal with
  | keyword k => cases k <;> rfl
  | mark m => cases m <;> rfl
  | _ => exact operand

section Complete
variable [CharacterNames] {s : Unfinished} {program : Program}

omit [CharacterNames] in
theorem startsStatement_of_program? (ends : s.program? = some program) : s.StartsStatement :=
  (program?_cases ends).2.imp (fun ⟨afterBrace, here, _⟩ => ⟨afterBrace, here⟩)
    fun ⟨last, arms, here, _⟩ => ⟨last, arms, here⟩

/-- Behind a complete program, tokens other than `else` are read as behind its statements. -/
theorem feed_of_program? (ends : s.program? = some program) (none : s.fault = none)
    {token : Token} (other : token.terminal ≠ .keyword .else_) :
    s.feed token = (empty.behind program.reverse).feed token := by
  obtain ⟨statements, levels, control, fault⟩ := s
  obtain rfl : fault = .none := none
  obtain ⟨outermost, ⟨afterBrace, here, rfl⟩ | ⟨last, arms, here, rfl⟩⟩ := program?_cases ends
  · obtain rfl : levels = [] := outermost
    obtain rfl : control = .statement afterBrace := here
    rw [List.reverse_reverse]
    exact (feedStatement_goTo _ (.statement false) token).symm
  · obtain rfl : levels = [] := outermost
    obtain rfl : control = .afterArm last arms := here
    rw [List.reverse_reverse, feed_afterArm _ last arms rfl other]
    exact (feedStatement_goTo _ (.statement false) token).symm

theorem mayCome_of_program? (ends : s.program? = some program) (none : s.fault = none)
    {terminal : Terminal} (other : terminal ≠ .keyword .else_) :
    s.mayCome terminal = (empty.behind program.reverse).mayCome terminal := by
  rw [mayCome, mayCome, feed_of_program? ends none other, beq_eq_false_iff_ne.mpr other,
    Bool.false_and, Bool.false_and]

/-- `else` makes no difference where no brace has just been closed. -/
theorem mayCome_eq_of_program? (ends : s.program? = some program) (none : s.fault = none)
    (open_ : ¬s.isAfterBrace) : s.mayCome = (empty.behind program.reverse).mayCome := by
  funext terminal
  by_cases else_ : terminal = .keyword .else_
  · have refused : ¬s.mayCome (.keyword .else_) := fun comes =>
      open_ ((mayCome_keyword (startsStatement_of_program? ends) .else_).mp comes rfl)
    rw [else_, Bool.eq_false_iff.mpr refused]
    rfl
  · exact mayCome_of_program? ends none else_

/-- What is found behind the statements of a complete program is found behind this program as well,
unless it is the word `else` behind a brace. -/
theorem lookup?_of_program? (ends : s.program? = some program) (none : s.fault = none) {t w : Text}
    {terminal : Terminal}
    (found : lookup? (empty.behind program.reverse).mayCome t = some (terminal, w))
    (free : s.isAfterBrace → w ≠ text "else") : lookup? s.mayCome t = some (terminal, w) := by
  by_cases brace : s.isAfterBrace
  · have plain : ∀ terminal,
        lexeme? (empty.behind program.reverse).mayCome t ≠ some (terminal, text "else") := by
      intro terminal word
      rw [lookup?, word] at found
      exact free brace (congrArg Prod.snd (Option.some.inj found.symm))
    rw [← found, lookup?, lookup?,
      lexeme?_of_else (fun _ other => mayCome_of_program? ends none other) rfl _ plain]
  · rw [mayCome_eq_of_program? ends none brace, found]

/-- What is read behind the statements of a complete program is read behind this program as well,
unless it begins with the word `else` behind a brace. -/
theorem Reads.join {place : Cursor} {tokens : List Token} {t : Unfinished}
    (h : (empty.behind program.reverse).Reads place tokens t) (ends : s.program? = some program)
    (none : s.fault = none)
    (free : s.isAfterBrace → tokens.head?.map Token.lexeme ≠ some (text "else")) :
    ∃ u, s.Reads place tokens u ∧ u.program? = t.program? ∧ u.fault = t.fault := by
  cases h with
  | done finished =>
      have nothing : empty.program? = some [] := rfl
      refine ⟨s, .done (Cursor.next_lastGap (Cursor.next_finished finished) _), ?_, none⟩
      rw [ends, program?_behind program.reverse empty nothing, List.reverse_reverse,
        List.append_nil]
  | @token _ u _ _ next token _ found fed reads =>
      obtain ⟨-, -, -, -, -, lexed, -⟩ := Cursor.next_eq_token_iff.mp found
      have other : token.terminal ≠ .keyword .else_ := by
        intro else_
        obtain ⟨terminal, w, p⟩ := token
        subst else_
        cases fed
      have found' : place.next s.mayCome = .token token next :=
        Cursor.next_of_lookup? found (lookup?_of_program? ends none lexed fun brace word =>
          free brace (congrArg some word))
      exact ⟨t, .token found' ((feed_of_program? ends none other).trans fed) reads, rfl, rfl⟩

/-! ### A word `else` behind a brace -/

omit [CharacterNames] in
theorem program?_goTo_afterElse (s : Unfinished) (last : Arm) (arms : List Arm) :
    (s.goTo (.afterElse last arms)).program? = none := by
  obtain ⟨statements, levels, control, fault⟩ := s
  cases levels <;> rfl

theorem terminal_of_feed_afterElse {last : Arm} {earlier : List Arm} {token : Token}
    {t : Unfinished} (h : (s.goTo (.afterElse last earlier)).feed token = some t) :
    token.terminal = .keyword .if_ ∨ token.terminal = .mark .leftBrace := by
  obtain ⟨terminal, w, p⟩ := token
  cases terminal with
  | keyword k => cases k <;> first | exact .inl rfl | cases h
  | mark m => cases m <;> first | exact .inr rfl | cases h
  | _ => cases h

theorem terminal_of_feed_afterName {name : Name} {position : Position} {token : Token}
    {t : Unfinished} (h : (s.goTo (.afterName .eval [] name position)).feed token = some t) :
    ∃ m, token.terminal = .mark m ∧ m ≠ .leftBrace := by
  obtain ⟨terminal, w, p⟩ := token
  cases terminal with
  | mark m =>
      refine ⟨m, rfl, ?_⟩
      rintro rfl
      cases h
  | keyword k => cases h
  | _ => cases h

omit [CharacterNames] in
/-- No mark that may stand behind a name at the start of a statement begins like `if` or a brace. -/
theorem lexemes_differ {first second : Token} {place next next' : Cursor}
    {mayCome mayCome' : Terminal → Bool} (h : place.next mayCome = .token first next)
    (h' : place.next mayCome' = .token second next')
    (branch : first.terminal = .keyword .if_ ∨ first.terminal = .mark .leftBrace) :
    ¬∃ m, second.terminal = .mark m ∧ m ≠ .leftBrace := by
  rintro ⟨m, mark, other⟩
  have front := Cursor.lexeme_append_eq h h'
  have spells := (Cursor.next_sound h).1
  have spells' := (Cursor.next_sound h').1
  have heads : first.lexeme.head? = second.lexeme.head? := by
    obtain ⟨c, w, same, -, -⟩ := first.terminal.exists_of_spells spells
    obtain ⟨d, v, same', -, -⟩ := second.terminal.exists_of_spells spells'
    rw [same, same'] at front ⊢
    exact congrArg some (List.cons.inj front).1
  rw [mark] at spells'
  obtain if_ | brace := branch
  · rw [if_] at spells
    rw [beq_iff_eq.mp spells, beq_iff_eq.mp spells'] at heads
    revert heads
    cases m <;> decide
  · rw [brace] at spells
    rw [beq_iff_eq.mp spells, beq_iff_eq.mp spells'] at heads
    revert heads other
    cases m <;> decide

/-- Behind a brace the word `else` is the keyword, whatever it would be as a name. -/
theorem next_else {r : Unfinished} {place next : Cursor} {token : Token}
    (found : place.next r.mayCome = .token token next) (word : token.lexeme = text "else")
    (name : r.mayCome .name) (free : ¬r.mayCome (.keyword .else_)) (starts : s.StartsStatement)
    (brace : s.isAfterBrace) : token.terminal = .name ∧
      place.next s.mayCome = .token ⟨.keyword .else_, text "else", token.position⟩ next := by
  obtain ⟨terminal, w, p⟩ := token
  obtain rfl : w = text "else" := word
  obtain ⟨-, -, -, -, -, lexed, -⟩ := Cursor.next_eq_token_iff.mp found
  obtain ⟨same, keyword⟩ := lookup?_word (keyword_spells_name .else_) lexed name
    (mayCome_name_of_startsStatement starts)
  have unreserved : ¬r.Reserves (text "else") := by
    rintro ⟨k, comes, spelled⟩
    rw [Keyword.spelling_injective (l := .else_) spelled] at comes
    exact free comes
  have comes : s.mayCome (.keyword .else_) := (mayCome_keyword starts .else_).mpr fun _ => brace
  rw [wordTerminal_of_mayCome comes] at keyword
  exact ⟨same.trans (wordTerminal_of_not_reserves unreserved), Cursor.next_of_lookup? found keyword⟩

/-- What begins with the word `else` is rejected behind a brace. If a branch has just been read, it
is refused only later: what may follow the word as a name at the start of a statement begins neither
a block nor a branch. -/
theorem read_else_ne_ok {place : Cursor} {tokens : List Token} {t : Unfinished}
    (h : (empty.behind program.reverse).Reads place tokens t) (whole : t.program?.isSome)
    (ends : s.program? = some program) (brace : s.isAfterBrace)
    (word : tokens.head?.map Token.lexeme = some (text "else")) (last : Position) (q : Program) :
    s.read last place ≠ .ok q := by
  intro accepted
  obtain ⟨u, reads, uends, -⟩ := exists_reads_of_read accepted
  have starts := startsStatement_of_program? ends
  cases h with
  | done _ => cases word
  | @token _ e _ _ next token _ found fed rest =>
      obtain ⟨terminal, w, p⟩ := token
      obtain rfl : w = text "else" := Option.some.inj word
      obtain ⟨rfl, found'⟩ := next_else found rfl rfl Bool.false_ne_true starts brace
      generalize s.tokens place = tokens' at reads
      cases reads with
      | done finished => cases found'.symm.trans finished
      | token again fed' reads' =>
          obtain ⟨rfl, rfl⟩ := Lexed.token.inj (found'.symm.trans again)
          obtain rfl := Option.some.inj fed
          obtain ⟨afterBrace, here⟩ | ⟨last, arms, here⟩ := starts
          · rw [feed, here] at fed'
            cases fed'
          · rw [feed, here] at fed'
            obtain rfl := Option.some.inj fed'
            cases reads' with
            | done _ => cases (program?_goTo_afterElse _ last arms).symm.trans uends
            | token first taken _ =>
                cases rest with
                | done _ => cases whole
                | token second taken' _ =>
                    exact lexemes_differ first second (terminal_of_feed_afterElse taken)
                      (terminal_of_feed_afterName taken')

end Complete

end Unfinished

/-! ### Two sources -/

namespace Program

/-- The first source ends with a closing brace and the second one begins with the word `else`. -/
def DanglingElse [CharacterNames] (a b : Text) : Prop :=
  (tokens a).getLast?.map Token.terminal = some (.mark .rightBrace) ∧
    (tokens b).head?.map Token.lexeme = some (text "else")

/-- Two sources with a line feed between them are read as the statements of both, those of the
second one moved down. Only if this would put the word `else` behind a closing brace, the source is
rejected. -/
theorem parse_append_lineFeed [CharacterNames] {a b : Text} {p q : Program}
    (first : parse a = .ok p) (second : parse b = .ok q) :
    (¬DanglingElse a b → parse (a ++ .lineFeed :: b) =
        .ok (p ++ q.map (Decl.relocate (.down (a.count .lineFeed + 1))))) ∧
      (DanglingElse a b → ∃ error, parse (a ++ .lineFeed :: b) = .error error) := by
  obtain ⟨s, reads, ends, none⟩ := Unfinished.exists_reads_of_read first
  obtain ⟨t, reads', ends', none'⟩ := Unfinished.exists_reads_of_read second
  set lines := a.count .lineFeed + 1 with lines_eq
  obtain ⟨last, same⟩ := reads.read_append_lineFeed b .start
  rw [Position.start_afterText_lineFeed] at same
  change parse (a ++ .lineFeed :: b) = _ at same
  have moved := (reads'.down lines).behind p.reverse
  have whole := Unfinished.program?_behind p.reverse _
    (Unfinished.program?_relocate (f := .down lines) ends')
  have brace : s.isAfterBrace ↔
      (tokens a).getLast?.map Token.terminal = some (.mark .rightBrace) :=
    reads.isAfterBrace_iff.trans (or_iff_left (fun empty => nomatch empty.2))
  have word : ((tokens b).map (Token.relocate (.down lines))).head?.map Token.lexeme =
      (tokens b).head?.map Token.lexeme := by
    cases tokens b <;> rfl
  rw [same]
  constructor
  · intro free
    obtain ⟨u, joined, uends, fault⟩ := moved.join ends none fun after begins =>
      free ⟨brace.mp after, word.symm.trans begins⟩
    rw [whole, List.reverse_reverse] at uends
    exact joined.read_eq_ok uends (fault.trans none') last
  · rintro ⟨after, begins⟩
    cases read : s.read last ⟨b, Position.start.down lines⟩ with
    | error error => exact ⟨error, rfl⟩
    | ok r =>
        exact absurd read (Unfinished.read_else_ne_ok moved (Option.isSome_of_eq_some whole) ends
          (brace.mpr after) (word.trans begins) last r)

theorem parse_append_lineFeed_else :
    letI : CharacterNames := .ofList [(text "BULLET", 0x2022)]
    let branch : Stmt :=
      .branch (.name (text "a") ⟨1, 4⟩)
        (.block [.stmt (.eval (.literal (.string [0x2022])))]) .nothing
    let assign (name value : Name) (p q : Position) : Stmt := .assign name (.name value q) p
    let source := text "if a\x7b\"\\N\x7bBULLET\x7d\";\x7d"
    parse source = .ok [.stmt branch] ∧
      parse (text "a=else;") = .ok [.stmt (assign (text "a") (text "else") ⟨1, 1⟩ ⟨1, 3⟩)] ∧
      parse (source ++ .lineFeed :: text "a=else;") =
        .ok [.stmt branch, .stmt (assign (text "a") (text "else") ⟨2, 1⟩ ⟨2, 3⟩)] ∧
      parse (text "else=a;") = .ok [.stmt (assign (text "else") (text "a") ⟨1, 1⟩ ⟨1, 6⟩)] ∧
      DanglingElse source (text "else=a;") ∧
      ∃ error, parse (source ++ .lineFeed :: text "else=a;") = .error error := by
  intro branch assign source
  let _ : CharacterNames := .ofList [(text "BULLET", 0x2022)]
  have first : parse source = .ok [.stmt branch] := by
    unfold source branch
    cbv
  have second : parse (text "a=else;") =
      .ok [.stmt (assign (text "a") (text "else") ⟨1, 1⟩ ⟨1, 3⟩)] := by cbv
  have second' : parse (text "else=a;") =
      .ok [.stmt (assign (text "else") (text "a") ⟨1, 1⟩ ⟨1, 6⟩)] := by cbv
  have closing : (tokens source).getLast?.map Token.terminal = some (.mark .rightBrace) := by
    unfold source
    cbv
  have plain : (tokens (text "a=else;")).head?.map Token.lexeme = some (text "a") := by cbv
  have word : (tokens (text "else=a;")).head?.map Token.lexeme = some (text "else") := by cbv
  have free : ¬DanglingElse source (text "a=else;") := fun dangling =>
    absurd (plain.symm.trans dangling.2) (by decide)
  refine ⟨first, second, ?_, second', ⟨closing, word⟩,
    (parse_append_lineFeed first second').2 ⟨closing, word⟩⟩
  exact (parse_append_lineFeed first second).1 free

end Program

end Script
