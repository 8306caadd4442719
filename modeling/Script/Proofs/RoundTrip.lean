import Script.Proofs.Printing
import Script.Proofs.Relocation

/-!
# Reading what has been written

Words are fed in no place, so that what is read of them is a program without positions. An operand
is read from its words inside any constructs that bind it less tightly than it holds together, if
the mark behind it does not bind it more tightly either. From this, statements and bodies are read
from their words whatever follows them, and a program that is written and parsed is the same up to
its positions.
-/

namespace Script

def Word.token (word : Word) : Token := ⟨word.terminal, word.lexeme, .nowhere⟩

def Position.forget (_ : Position) : Position := .nowhere

def Program.unplaced (program : Program) : Program :=
  program.map (Decl.relocate .forget)

/-- Whether a mark behind an expression leaves it whole that holds together with a strength. -/
def Mark.mayFollow (strength : Nat) : Mark → Bool
  | .leftBracket => 6 ≤ strength
  | .rightParen | .rightBracket | .comma | .semicolon | .leftBrace => true
  | m => (BinaryOp.ofMark? m).any fun op => op.level ≤ strength

namespace Unfinished

/-- Whether the innermost construct leaves an operand whole that holds together with a strength. -/
def mayHold (strength : Nat) : List Frame → Bool
  | .unary _ _ :: _ => 5 ≤ strength
  | .binary op _ :: _ => op.level < strength
  | _ => true

/-- Fed with the words, the unfinished program is finished without bad literals. -/
def Becomes [CharacterNames] (s : Unfinished) (words : List Word) (program : Program) : Prop :=
  ∃ t, s.feedAll (words.map Word.token) = some t ∧ t.program? = some program ∧ t.fault = none

section Feeding
variable {s t : Unfinished} {goal : Goal} {frames : List Frame} {word : Word} {words : List Word}
  {program : Program}

theorem becomes_cons [CharacterNames] : s.Becomes (word :: words) program ↔
    ∃ t, s.feed word.token = some t ∧ t.Becomes words program := by
  simp only [Becomes, List.map_cons, feedAll_cons, Option.bind_eq_some_iff]
  grind

theorem Becomes.cons [CharacterNames] (fed : s.feed word.token = some t)
    (h : t.Becomes words program) : s.Becomes (word :: words) program :=
  becomes_cons.mpr ⟨t, fed, h⟩

theorem mayFollow_mono {k l : Nat} (h : k ≤ l) {m : Mark} (follows : m.mayFollow k) :
    m.mayFollow l := by
  cases m <;> simp_all [Mark.mayFollow, BinaryOp.ofMark?] <;> omega

theorem mayHold_mono {k l : Nat} (h : k ≤ l) (holds : mayHold k frames) : mayHold l frames := by
  rcases frames with _ | ⟨frame, frames⟩
  · rfl
  · cases frame <;> simp_all [mayHold] <;> omega

/-- An operator leaves the constructs open that hold something as strong as it. -/
theorem fold_of_mayHold {op : BinaryOp} (holds : mayHold op.level frames) (x : Operand) :
    fold op.level frames x = (frames, x) := by
  rcases frames with _ | ⟨frame, frames⟩
  · rfl
  · cases frame with
    | unary _ _ =>
      cases op <;> cases holds
    | binary other left =>
      have less : other.level < op.level := by simpa [mayHold] using holds
      rw [fold, if_neg (by omega)]
    | _ => rfl

variable {m : Mark} {x : Operand}

theorem feedAfterOperand_unary {op : UnaryOp} {p : Position} (follows : m.mayFollow 5) :
    s.feedAfterOperand goal (.unary op p :: frames) x (Word.mark m).token =
      s.feedAfterOperand goal frames ⟨.unary op x.expr p, p⟩ (Word.mark m).token := by
  cases m <;> first | rfl | cases follows

theorem feedAfterOperand_mark (op : BinaryOp) :
    s.feedAfterOperand goal frames x (Word.mark op.mark).token =
      some (s.goTo (.operand goal
        (.binary op (fold op.level frames x).2 :: (fold op.level frames x).1))) := by
  cases op <;> rfl

theorem feedAfterOperand_binary {op : BinaryOp} {left : Operand} (follows : m.mayFollow op.level) :
    s.feedAfterOperand goal (.binary op left :: frames) x (Word.mark m).token =
      s.feedAfterOperand goal frames
        ⟨.binary op left.expr x.expr left.start, left.start⟩ (Word.mark m).token := by
  cases operator : BinaryOp.ofMark? m with
  | some other =>
    obtain rfl := BinaryOp.ofMark?_eq_some_iff.mp operator
    have tighter : other.level ≤ op.level := by
      cases other <;> simpa [Mark.mayFollow, BinaryOp.mark, BinaryOp.ofMark?] using follows
    rw [feedAfterOperand_mark, feedAfterOperand_mark, fold, if_pos tighter]
  | none =>
    have other : m ≠ .leftBracket := by
      rintro rfl
      cases op <;> cases follows
    simp [feedAfterOperand, Word.token, Word.mark, operator, fold]

/-- An operator takes an operand as its left one if no open construct holds that more tightly. -/
theorem feedAfterOperand_operator {op : BinaryOp} (holds : mayHold op.level frames) :
    s.feedAfterOperand goal frames x (Word.mark op.mark).token =
      some (s.goTo (.operand goal (.binary op x :: frames))) := by
  rw [feedAfterOperand_mark, fold_of_mayHold holds]

theorem mayFollow_operator (op : BinaryOp) : op.mark.mayFollow op.level := by
  cases op <;> rfl

theorem feedAfterName_mark {name : Name} {p : Position} {k : Nat} (follows : m.mayFollow k) :
    s.feedAfterName goal frames name p (Word.mark m).token =
      s.feedAfterOperand goal frames ⟨.name name p, p⟩ (Word.mark m).token := by
  apply feedAfterName_of_ne
  · rintro ⟨⟩
    cases follows
  · rintro ⟨⟩
    cases follows

variable [CharacterNames]

/-- Behind an operand the operators around it may have been applied, and a name may be one. -/
theorem Becomes.folded {y : Operand} {open_ : List Frame}
    (same : s.feedAfterOperand goal open_ y word.token =
      s.feedAfterOperand goal frames x word.token)
    (h : (s.goTo (.afterOperand goal frames x)).Becomes (word :: words) program) :
    (s.goTo (.afterOperand goal open_ y)).Becomes (word :: words) program := by
  obtain ⟨next, fed, h⟩ := becomes_cons.mp h
  exact .cons (same.trans fed) h

/-- Words that are read as an operand wherever a strength suffices. -/
def ReadAs (words : List Word) (strength : Nat) (e : Expr) : Prop :=
  ∀ (s : Unfinished) (goal : Goal) (frames : List Frame) (m : Mark) (tail : List Word)
    (program : Program), mayHold strength frames → m.mayFollow strength →
    (s.goTo (.afterOperand goal frames ⟨e, .nowhere⟩)).Becomes (.mark m :: tail) program →
    (s.goTo (.operand goal frames)).Becomes (words ++ .mark m :: tail) program

theorem ReadAs.mono {k l : Nat} {e : Expr} (h : ReadAs words l e) (le : k ≤ l) :
    ReadAs words k e :=
  fun s goal frames m tail program holds follows =>
    h s goal frames m tail program (mayHold_mono le holds) (mayFollow_mono le follows)

/-- Words that bind too loosely for a place are read there in parentheses. -/
theorem ReadAs.guarded {k : Nat} {e : Expr} (h : ReadAs words k e) (l : Nat) :
    ReadAs (Word.guarded (k < l) words) l e := by
  by_cases loose : k < l
  · intro s goal frames m tail program _ _ behind
    rw [Word.guarded, if_pos (decide_eq_true loose), List.cons_append, List.append_assoc]
    refine .cons (t := s.goTo (.operand goal (.group .nowhere :: frames))) rfl ?_
    exact h s goal _ .rightParen _ program rfl rfl (.cons rfl behind)
  · rw [Word.guarded, if_neg (by simpa using loose)]
    exact h.mono (by omega)

/-- A construct that lists expressions: what holds them, the mark that closes it, and the program
that the list leads to. -/
structure Listing (s : Unfinished) (goal : Goal) (frames : List Frame) (frame : List Expr → Frame)
    (closer : Mark) (closed : List Expr → Unfinished) : Prop where
  holds : ∀ strength listed, mayHold strength (frame listed :: frames)
  closes : ∀ strength, closer.mayFollow strength
  empty : (s.goTo (.operand goal (frame [] :: frames))).feed (Word.mark closer).token =
    some (closed [])
  further : ∀ listed x,
    (s.goTo (.afterOperand goal (frame listed :: frames) x)).feed (Word.mark .comma).token =
      some (s.goTo (.operand goal (frame (x.expr :: listed) :: frames)))
  close : ∀ listed x,
    (s.goTo (.afterOperand goal (frame listed :: frames) x)).feed (Word.mark closer).token =
      some (closed (x.expr :: listed).reverse)

theorem listing_call (s : Unfinished) (goal : Goal) (frames : List Frame) (callee : Name) :
    Listing s goal frames (.call callee .nowhere) .rightParen fun arguments =>
      s.goTo (.afterOperand goal frames ⟨.call callee arguments .nowhere, .nowhere⟩) where
  holds _ _ := rfl
  closes _ := rfl
  empty := rfl
  further _ _ := rfl
  close _ _ := rfl

theorem listing_array (s : Unfinished) (goal : Goal) (frames : List Frame) :
    Listing s goal frames (.array .nowhere) .rightBracket fun elements =>
      s.goTo (.afterOperand goal frames ⟨.array elements, .nowhere⟩) where
  holds _ _ := rfl
  closes _ := rfl
  empty := rfl
  further _ _ := rfl
  close _ _ := rfl

omit [CharacterNames] in
/-- Behind an expression in a list there is a mark. -/
theorem exists_mark_further {closer : Mark} (closes : ∀ strength, closer.mayFollow strength)
    (es : List Expr) (tail : List Word) :
    ∃ m more, furtherWords es ++ .mark closer :: tail = .mark m :: more ∧
      ∀ strength, m.mayFollow strength := by
  cases es with
  | nil => exact ⟨closer, tail, rfl, closes⟩
  | cons e es => exact ⟨.comma, _, rfl, fun _ => rfl⟩

theorem readAs_literal {value : Literal} (h : value.isWritable) :
    ReadAs [value.word] 7 (.literal value) := by
  intro s goal frames m tail program _ _ behind
  refine .cons ?_ behind
  cases value with
  | integer value =>
    rw [Literal.isWritable, Bool.and_eq_true, decide_eq_true_iff, decide_eq_true_iff] at h
    have read := numberLiteral_ofNat value.toNat h.2
    rw [Int.toNat_of_nonneg h.1] at read
    simp [feed, goTo, feedOperand, Word.token, Literal.word, read]
  | string value =>
    have read := StringLiteral.stringLiteral_written value
    simp [feed, goTo, feedOperand, Word.token, Literal.word, read]
  | boolean value => cases value <;> rfl
  | nil => rfl

mutual

theorem readAs_words : ∀ {e : Expr}, e.isWritable →
    ReadAs e.words e.strength (e.relocate .forget)
  | .literal value, h => readAs_literal h
  | .name name _, _ => by
    intro s goal frames m tail program _ follows behind
    obtain ⟨next, fed, behind⟩ := becomes_cons.mp behind
    have named : (s.goTo (.afterName goal frames name .nowhere)).feed (Word.mark m).token =
        some next := (feedAfterName_mark follows).trans fed
    exact .cons rfl (.cons named behind)
  | .call callee arguments _, h => by
    rw [Expr.isWritable, Bool.and_eq_true] at h
    intro s goal frames m tail program _ _ behind
    have listed := becomes_listedWords h.2 (listing_call s goal frames callee) behind
    rw [Expr.words, List.cons_append, List.cons_append, List.append_assoc]
    exact .cons rfl (.cons rfl listed)
  | .array elements, h => by
    intro s goal frames m tail program _ _ behind
    have listed := becomes_listedWords h (listing_array s goal frames) behind
    rw [Expr.words, List.cons_append, List.append_assoc]
    exact .cons rfl listed
  | .index target index _, h => by
    rw [Expr.isWritable, Bool.and_eq_true] at h
    intro s goal frames m tail program holds _ behind
    have bracketed : (s.goTo (.operand goal
        (.index ⟨target.relocate .forget, .nowhere⟩ :: frames))).Becomes
          (index.words ++ .mark .rightBracket :: .mark m :: tail) program :=
      readAs_words h.2 s goal _ .rightBracket _ program rfl rfl (.cons rfl behind)
    have reads := (readAs_words h.1).guarded 6 s goal frames .leftBracket
    rw [Expr.words, List.append_assoc, List.cons_append, List.append_assoc]
    exact reads _ program holds rfl (.cons rfl bracketed)
  | .unary op operand _, h => by
    intro s goal frames m tail program _ follows behind
    have operand_ : (s.goTo (.operand goal (.unary op .nowhere :: frames))).Becomes
        (Word.guarded (operand.strength < 5) operand.words ++ .mark m :: tail) program :=
      (readAs_words (e := operand) h).guarded 5 s goal _ m tail program rfl follows
        (behind.folded (feedAfterOperand_unary follows))
    have opens : (s.goTo (.operand goal frames)).feed (Word.mark op.mark).token =
        some (s.goTo (.operand goal (.unary op .nowhere :: frames))) := by
      cases op <;> rfl
    exact .cons opens operand_
  | .binary op left right _, h => by
    rw [Expr.isWritable, Bool.and_eq_true] at h
    intro s goal frames m tail program holds follows behind
    have right_ : (s.goTo (.operand goal
        (.binary op ⟨left.relocate .forget, .nowhere⟩ :: frames))).Becomes
          (Word.guarded (right.strength < op.level + 1) right.words ++ .mark m :: tail) program :=
      (readAs_words h.2).guarded (op.level + 1) s goal _ m tail program
        (by simp [mayHold]) (mayFollow_mono (Nat.le_succ _) follows)
        (behind.folded (feedAfterOperand_binary follows))
    have opens : (s.goTo (.afterOperand goal frames ⟨left.relocate .forget, .nowhere⟩)).feed
        (Word.mark op.mark).token =
        some (s.goTo (.operand goal
          (.binary op ⟨left.relocate .forget, .nowhere⟩ :: frames))) :=
      feedAfterOperand_operator holds
    rw [Expr.words, List.append_assoc, List.cons_append]
    exact (readAs_words h.1).guarded op.level s goal frames op.mark _ program holds
      (mayFollow_operator op) (.cons opens right_)

theorem becomes_listedWords {s : Unfinished} {goal : Goal} {frames : List Frame}
    {frame : List Expr → Frame} {closer : Mark} {closed : List Expr → Unfinished}
    {tail : List Word} {program : Program} : ∀ {es : List Expr}, areWritable es →
    Listing s goal frames frame closer closed →
    (closed (relocateExprs .forget es)).Becomes tail program →
    (s.goTo (.operand goal (frame [] :: frames))).Becomes
      (listedWords es ++ .mark closer :: tail) program
  | [], _, listing, behind => .cons listing.empty behind
  | e :: es, h, listing, behind => by
    rw [areWritable, Bool.and_eq_true] at h
    obtain ⟨m, more, same, follows⟩ := exists_mark_further listing.closes es tail
    have reads := readAs_words h.1 s goal (frame [] :: frames) m more program (listing.holds _ _)
      (follows _)
    rw [listedWords, List.append_assoc, same]
    refine reads ?_
    rw [← same]
    exact becomes_furtherWords h.2 listing behind

theorem becomes_furtherWords {s : Unfinished} {goal : Goal} {frames : List Frame}
    {frame : List Expr → Frame} {closer : Mark} {closed : List Expr → Unfinished}
    {tail : List Word} {program : Program} {listed : List Expr} {x : Operand} :
    ∀ {es : List Expr}, areWritable es → Listing s goal frames frame closer closed →
    (closed ((x.expr :: listed).reverse ++ relocateExprs .forget es)).Becomes tail program →
    (s.goTo (.afterOperand goal (frame listed :: frames) x)).Becomes
      (furtherWords es ++ .mark closer :: tail) program
  | [], _, listing, behind => by
    rw [relocateExprs, List.append_nil] at behind
    exact .cons (listing.close listed x) behind
  | e :: es, h, listing, behind => by
    rw [areWritable, Bool.and_eq_true] at h
    obtain ⟨m, more, same, follows⟩ := exists_mark_further listing.closes es tail
    have reads := readAs_words h.1 s goal (frame (x.expr :: listed) :: frames) m more program
      (listing.holds _ _) (follows _)
    rw [furtherWords, List.cons_append, List.append_assoc, same]
    refine .cons (listing.further listed x) (reads ?_)
    rw [← same]
    refine becomes_furtherWords h.2 listing ?_
    rw [List.reverse_cons, List.append_assoc]
    exact behind

end

/-! Statements. -/

variable {statements : List Decl} {levels : List Level} {fault : Option LiteralFault}
  {tail : List Word}

/-- It does not matter whether the last statement ended with a brace. -/
theorem becomes_statement {afterBrace : Bool} (afterBrace' : Bool)
    (h : (⟨statements, levels, .statement afterBrace, fault⟩ : Unfinished).Becomes words program) :
    (⟨statements, levels, .statement afterBrace', fault⟩ : Unfinished).Becomes words program := by
  cases words with
  | nil =>
    obtain ⟨_, ⟨⟩, ends, faultless⟩ := h
    cases levels with
    | nil => exact ⟨_, rfl, ends, faultless⟩
    | cons level levels => cases ends
  | cons word words =>
    obtain ⟨next, fed, h⟩ := becomes_cons.mp h
    exact .cons fed h

/-- What is read as an operand can start a statement. -/
theorem becomes_eval (afterBrace : Bool)
    (h : (s.goTo (.operand .eval [])).Becomes words program) :
    (s.goTo (.statement afterBrace)).Becomes words program := by
  cases words with
  | nil =>
    obtain ⟨_, ⟨⟩, ends, -⟩ := h
    cases levels : s.levels <;> simp [program?, goTo, levels] at ends
  | cons word words =>
    obtain ⟨next, fed, h⟩ := becomes_cons.mp h
    have starts : s.feedStatement word.token = some next := by
      have operand : s.feedOperand .eval [] word.token = some next := fed
      obtain ⟨t, lexeme⟩ := word
      cases t with
      | keyword k => cases k <;> first | exact operand | cases operand
      | mark m => cases m <;> first | exact operand | cases operand
      | _ => exact operand
    exact .cons starts h

theorem becomes_afterArm {last : Arm} {earlier : List Arm}
    (h : (⟨.stmt (branchOf last .nothing earlier) :: statements, levels, .statement true, fault⟩ :
      Unfinished).Becomes words program) :
    (⟨statements, levels, .afterArm last earlier, fault⟩ : Unfinished).Becomes words program := by
  cases words with
  | nil =>
    obtain ⟨_, ⟨⟩, ends, faultless⟩ := h
    cases levels with
    | nil => exact ⟨_, rfl, ends, faultless⟩
    | cons level levels => cases ends
  | cons word words =>
    obtain ⟨next, fed, h⟩ := becomes_cons.mp h
    have other : word.token.terminal ≠ .keyword .else_ := by
      obtain ⟨t, lexeme⟩ := word
      rintro ⟨⟩
      cases fed
    exact .cons ((feed_afterArm _ last earlier rfl other).trans fed) h

/-- The program that closing a block leads to. -/
def Opener.closed (body statements : List Decl) (levels : List Level)
    (fault : Option LiteralFault) : Opener → Unfinished
  | block => ⟨.stmt (.block body) :: statements, levels, .statement true, fault⟩
  | function name parameters =>
    ⟨.function name parameters body :: statements, levels, .statement true, fault⟩
  | branch condition earlier => ⟨statements, levels, .afterArm ⟨condition, body⟩ earlier, fault⟩
  | otherwise last earlier =>
    ⟨.stmt (branchOf last (.stmt (.block body)) earlier) :: statements, levels, .statement true,
      fault⟩
  | loop condition =>
    ⟨.stmt (.loop condition (.block body)) :: statements, levels, .statement true, fault⟩

theorem becomes_block (opener : Opener) {body : List Decl}
    (reads : (⟨body.reverse ++ [], ⟨opener, statements⟩ :: levels, .statement true, fault⟩ :
        Unfinished).Becomes (.mark .rightBrace :: tail) program →
      (⟨[], ⟨opener, statements⟩ :: levels, .statement true, fault⟩ : Unfinished).Becomes
        (words ++ .mark .rightBrace :: tail) program)
    (h : (opener.closed body statements levels fault).Becomes tail program) :
    (⟨[], ⟨opener, statements⟩ :: levels, .statement false, fault⟩ : Unfinished).Becomes
      (words ++ .mark .rightBrace :: tail) program := by
  refine becomes_statement false (reads (.cons ?_ h))
  cases opener <;>
    simp [feed, feedStatement, Word.token, Word.mark, closeBlock?, Opener.closed, add, goTo]

theorem becomes_names (function : Name) (parameters : List Name)
    (h : (s.goTo (.functionBody function parameters)).Becomes tail program) :
    (s.goTo (.firstParameter function)).Becomes
      (Word.names parameters ++ .mark .rightParen :: tail) program := by
  have further (names parameters : List Name)
      (h : (s.goTo (.functionBody function (parameters ++ names))).Becomes tail program) :
      (s.goTo (.afterParameter function parameters)).Becomes
        ((names.flatMap fun n => [.mark .comma, .name n]) ++ .mark .rightParen :: tail)
        program := by
    induction names generalizing parameters with
    | nil =>
      rw [List.append_nil] at h
      exact .cons rfl h
    | cons n names ih =>
      rw [← List.singleton_append, ← List.append_assoc] at h
      exact .cons rfl (.cons rfl (ih _ h))
  cases parameters with
  | nil => exact .cons rfl h
  | cons n names => exact .cons rfl (further names [n] h)

mutual

theorem becomes_words : ∀ {statement : Stmt} {statements : List Decl} {levels : List Level}
    {tail : List Word}, statement.isWritable →
    (⟨.stmt (statement.relocate .forget) :: statements, levels, .statement true, fault⟩ :
      Unfinished).Becomes tail program →
    (⟨statements, levels, .statement true, fault⟩ : Unfinished).Becomes
      (statement.words ++ tail) program
  | .block body, statements, levels, tail, h, behind => by
    have block := becomes_block .block (becomes_bodyWords h) behind
    rw [Stmt.words, Word.braced, List.cons_append, List.append_assoc]
    exact .cons rfl block
  | .declare name value, statements, levels, tail, h, behind => by
    rw [Stmt.isWritable, Bool.and_eq_true] at h
    have value_ := readAs_words h.2 ⟨statements, levels, .statement true, fault⟩
      (.declare name) [] .semicolon tail program rfl rfl
      (.cons rfl (becomes_statement false behind))
    rw [Stmt.words, List.cons_append, List.cons_append, List.cons_append, List.append_assoc]
    exact .cons rfl (.cons rfl (.cons rfl value_))
  | .assign name value _, statements, levels, tail, h, behind => by
    rw [Stmt.isWritable, Bool.and_eq_true] at h
    have value_ := readAs_words h.2 ⟨statements, levels, .statement true, fault⟩
      (.assign name .nowhere) [] .semicolon tail program rfl rfl
      (.cons rfl (becomes_statement false behind))
    rw [Stmt.words, List.cons_append, List.cons_append, List.append_assoc]
    exact .cons rfl (.cons rfl value_)
  | .eval value, statements, levels, tail, h, behind => by
    have value_ := readAs_words (e := value) h ⟨statements, levels, .statement true, fault⟩
      .eval [] .semicolon tail program rfl rfl (.cons rfl (becomes_statement false behind))
    rw [Stmt.words, List.append_assoc]
    exact becomes_eval true value_
  | .branch condition body otherwise, statements, levels, tail, h, behind => by
    rw [Stmt.isWritable, Bool.and_eq_true, Bool.and_eq_true, Bool.and_eq_true] at h
    obtain ⟨⟨⟨form, first⟩, second⟩, third⟩ := h
    cases body with
    | block body =>
      have block := becomes_block (.branch (condition.relocate .forget) [])
        (becomes_bodyWords second) (becomes_elseWords third behind)
      have condition_ := readAs_words first ⟨statements, levels, .statement true, fault⟩
        (.branch []) [] .leftBrace _ program rfl rfl (.cons rfl block)
      rw [Stmt.words, Stmt.words, List.cons_append, List.append_assoc, Word.braced,
        List.append_assoc, List.cons_append, List.append_assoc]
      exact .cons rfl condition_
    | _ => cases form
  | .loop condition body, statements, levels, tail, h, behind => by
    rw [Stmt.isWritable, Bool.and_eq_true, Bool.and_eq_true] at h
    obtain ⟨⟨form, first⟩, second⟩ := h
    cases body with
    | block body =>
      have block := becomes_block (.loop (condition.relocate .forget)) (becomes_bodyWords second)
        behind
      have condition_ := readAs_words first ⟨statements, levels, .statement true, fault⟩
        .loop [] .leftBrace _ program rfl rfl (.cons rfl block)
      rw [Stmt.words, Stmt.words, List.cons_append, List.append_assoc, Word.braced,
        List.cons_append, List.append_assoc]
      exact .cons rfl condition_
    | _ => cases form
  | .return_ none, statements, levels, tail, _, behind =>
    .cons rfl (.cons rfl (becomes_statement false behind))
  | .return_ (some value), statements, levels, tail, h, behind => by
    have value_ := readAs_words (e := value) h ⟨statements, levels, .statement true, fault⟩
      .return_ [] .semicolon tail program rfl rfl (.cons rfl (becomes_statement false behind))
    rw [Stmt.words, List.cons_append, List.append_assoc]
    exact .cons rfl value_

theorem becomes_elseWords : ∀ {otherwise : Otherwise} {statements : List Decl}
    {levels : List Level} {tail : List Word} {last : Arm} {earlier : List Arm},
    otherwise.isWritable →
    (⟨.stmt (branchOf last (otherwise.relocate .forget) earlier) :: statements, levels,
      .statement true, fault⟩ : Unfinished).Becomes tail program →
    (⟨statements, levels, .afterArm last earlier, fault⟩ : Unfinished).Becomes
      (otherwise.words ++ tail) program
  | .nothing, _, _, _, _, _, _, behind => becomes_afterArm behind
  | .stmt s, statements, levels, tail, last, earlier, h, behind => by
    rw [Otherwise.isWritable, Bool.and_eq_true] at h
    cases s with
    | block body =>
      have block := becomes_block (.otherwise last earlier) (becomes_bodyWords h.2) behind
      rw [Otherwise.words, Stmt.words, Word.braced, List.cons_append, List.cons_append,
        List.append_assoc]
      exact .cons rfl (.cons rfl block)
    | branch condition body otherwise =>
      rw [Stmt.isWritable, Bool.and_eq_true, Bool.and_eq_true, Bool.and_eq_true] at h
      obtain ⟨-, ⟨⟨form, first⟩, second⟩, third⟩ := h
      cases body with
      | block body =>
        have block := becomes_block (.branch (condition.relocate .forget) (last :: earlier))
          (becomes_bodyWords second) (becomes_elseWords third behind)
        have condition_ := readAs_words first ⟨statements, levels, .statement true, fault⟩
          (.branch (last :: earlier)) [] .leftBrace _ program rfl rfl (.cons rfl block)
        rw [Otherwise.words, Stmt.words, Stmt.words, List.cons_append, List.cons_append,
          List.append_assoc, Word.braced, List.append_assoc, List.cons_append, List.append_assoc]
        exact .cons rfl (.cons rfl condition_)
      | _ => cases form
    | _ => cases h.1

theorem becomes_declWords : ∀ {d : Decl} {statements : List Decl} {levels : List Level}
    {tail : List Word}, d.isWritable →
    (⟨d.relocate .forget :: statements, levels, .statement true, fault⟩ :
      Unfinished).Becomes tail program →
    (⟨statements, levels, .statement true, fault⟩ : Unfinished).Becomes (d.words ++ tail) program
  | .function name parameters body, statements, levels, tail, h, behind => by
    rw [Decl.isWritable, Bool.and_eq_true] at h
    have block := becomes_block (.function name parameters) (becomes_bodyWords h.2) behind
    have body_ : (⟨statements, levels, .functionBody name parameters, fault⟩ : Unfinished).Becomes
        (.mark .leftBrace :: (bodyWords body ++ .mark .rightBrace :: tail)) program :=
      .cons rfl block
    have named := becomes_names (s := ⟨statements, levels, .statement true, fault⟩) name parameters
      body_
    rw [Decl.words, List.cons_append, List.cons_append, List.cons_append, List.append_assoc,
      List.cons_append, Word.braced, List.cons_append, List.append_assoc]
    exact .cons rfl (.cons rfl (.cons rfl named))
  | .stmt s, _, _, _, h, behind => by
    have writable : s.isWritable := h
    exact becomes_words writable behind

theorem becomes_bodyWords : ∀ {body : List Decl} {statements : List Decl} {levels : List Level}
    {tail : List Word}, isWritableBody body →
    (⟨(relocateBody .forget body).reverse ++ statements, levels, .statement true, fault⟩ :
      Unfinished).Becomes tail program →
    (⟨statements, levels, .statement true, fault⟩ : Unfinished).Becomes
      (bodyWords body ++ tail) program
  | [], _, _, _, _, behind => behind
  | d :: rest, statements, levels, tail, h, behind => by
    rw [isWritableBody, Bool.and_eq_true] at h
    rw [relocateBody, List.reverse_cons, List.append_assoc] at behind
    rw [bodyWords, List.append_assoc]
    exact becomes_declWords h.1 (becomes_bodyWords h.2 behind)

end

end Feeding

end Unfinished

namespace Program

theorem becomes_unplaced [CharacterNames] {program : Program} (h : program.isWritable) :
    Unfinished.empty.Becomes (bodyWords program) program.unplaced := by
  have ends : (⟨(relocateBody .forget program).reverse ++ [], [], .statement true, none⟩ :
      Unfinished).Becomes [] program.unplaced :=
    ⟨_, rfl, by simp [Unfinished.program?, unplaced], rfl⟩
  have reads := Unfinished.becomes_bodyWords h ends
  rw [List.append_nil] at reads
  exact Unfinished.becomes_statement false reads

theorem relocate_place (p : Position) (words : List Word) :
    (Word.place p words).map (Token.relocate .forget) = words.map Word.token := by
  induction words generalizing p with
  | nil => rfl
  | cons word words ih =>
    rw [Word.place, List.map_cons, List.map_cons, ih]
    rfl

/-- Parsing a written program gives it back up to its positions. -/
theorem parse_written [CharacterNames] (program : Program) (h : program.isWritable) :
    ∃ read, Program.parse program.written = .ok read ∧ read.unplaced = program.unplaced := by
  obtain ⟨t, fed, ends, faultless⟩ := becomes_unplaced h
  rw [← relocate_place .start] at fed
  have moved := Unfinished.relocate_feedAll .forget .empty (Word.place .start (bodyWords program))
  rw [show Unfinished.empty.relocate .forget = .empty from rfl, fed] at moved
  obtain ⟨u, placed, rfl⟩ := Option.map_eq_some_iff.mp moved
  rw [← Unfinished.relocate_program?] at ends
  obtain ⟨read, finished, same⟩ := Option.map_eq_some_iff.mp ends
  have faultless : u.fault = none := faultless
  obtain ⟨last, parsed⟩ := Unfinished.read_written (areProper_bodyWords h) .start .start .nil placed
  refine ⟨read, ?_, same⟩
  rw [Unfinished.finish, finished, faultless] at parsed
  exact parsed

/-- Parentheses stand around the sum that is negated and around the difference on the right, and
the quotation mark and the line feed in the string are escaped. -/
theorem parse_written_nested :
    letI : CharacterNames := .ofList []
    let a := Expr.name (text "a") ⟨3, 14⟩
    let body : List Decl :=
      [.stmt (.return_ (some (.binary .sub
        (.unary .negate (.binary .add a (.index a a .start) .start) .nowhere)
        (.binary .sub a (.literal (.integer 10)) .start) .start)))]
    let program : Program :=
      [.function (text "f") [text "a"] body,
        .stmt (.branch (.call (text "f") [.literal (.string [0x22, 0x0A])] .start) (.block [])
          (.stmt (.block []))),
        .stmt (.assign (text "b") (.array []) .start)]
    program.isWritable ∧
      program.written = text "fun f ( a ) \x7b return - ( a + a [ a ] ) - ( a - 10 ) ; \x7d" ++
        text " if f ( \"\\\"\\n\" ) \x7b \x7d else \x7b \x7d b = [ ] ;" ∧
      ∃ read, Program.parse program.written = .ok read ∧ read.unplaced = program.unplaced := by
  intro a body program
  let _ : CharacterNames := .ofList []
  have writable : program.isWritable := by decide
  exact ⟨writable, by decide +kernel, parse_written program writable⟩

end Program

end Script
