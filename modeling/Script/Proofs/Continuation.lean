import Script.Program.Unfinished
import Script.Proofs.PhraseLanguage

/-!
# What may come next

For each unfinished program, the language of everything that would finish it: what the grammar
allows behind the constructs that are open. A token is accepted exactly if some list in this
language starts with its terminal, and the program that it leads to is finished by what may follow
there. So the lists of terminals that are accepted from the start are those of the grammar.
-/

namespace Script.Unfinished
open Nonterminal Terminal
open scoped Computability

/-- What may follow the brace that closes a block, if a statement does not. -/
def Opener.rest : Opener → Language Terminal
  | branch _ _ => elsePart
  | block | function _ _ | otherwise _ _ | loop _ => 1

/-- What may follow the last statement of a block. -/
def restOfLevels : List Level → Language Terminal
  | [] => 1
  | level :: levels =>
    alone (.mark .rightBrace) *
      (level.opener.rest * (declaration.language∗ * restOfLevels levels))

/-- What may come where a statement may start. -/
def restOfBody (levels : List Level) : Language Terminal :=
  declaration.language∗ * restOfLevels levels

/-- What completes a statement behind its expression. -/
def Goal.rest : Goal → Language Terminal
  | branch _ => block.language * elsePart
  | loop => block.language
  | eval | declare _ | assign _ _ | return_ => alone (.mark .semicolon)

section Expressions
variable (goal : Goal) (rest : Language Terminal)

/-- What may come behind a complete expression inside some frames, where `rest` may follow the
statement. The operators among the frames have their operand already. -/
def behindExpr : List Frame → Language Terminal
  | [] => goal.rest * rest
  | .unary _ _ :: frames | .binary _ _ :: frames => behindExpr frames
  | .group _ :: frames =>
    alone (.mark .rightParen) * (subscript∗ * (operations * behindExpr frames))
  | .index _ :: frames =>
    alone (.mark .rightBracket) * (subscript∗ * (operations * behindExpr frames))
  | .call _ _ _ :: frames =>
    (alone (.mark .comma) * expression.language)∗ *
      (alone (.mark .rightParen) * (subscript∗ * (operations * behindExpr frames)))
  | .array _ _ :: frames =>
    (alone (.mark .comma) * expression.language)∗ *
      (alone (.mark .rightBracket) * (subscript∗ * (operations * behindExpr frames)))

def behindOperand (frames : List Frame) : Language Terminal :=
  subscript∗ * (operations * behindExpr goal rest frames)

/-- What may come in place of an operand, since the construct around it may be empty. -/
def inPlace : List Frame → Language Terminal
  | .call _ _ [] :: frames => alone (.mark .rightParen) * behindOperand goal rest frames
  | .array _ [] :: frames => alone (.mark .rightBracket) * behindOperand goal rest frames
  | [] =>
    match goal with
    | .return_ => alone (.mark .semicolon) * rest
    | _ => 0
  | _ => 0

/-- What makes an assignment of a name at the start of a statement. -/
def assigned (frames : List Frame) : Language Terminal :=
  match goal, frames with
  | .eval, [] => alone (.mark .equal) * (expression.language * (alone (.mark .semicolon) * rest))
  | _, _ => 0

/-- What may come where an operand may start. -/
def restOfOperand (frames : List Frame) : Language Terminal :=
  unary.language * (operations * behindExpr goal rest frames) + inPlace goal rest frames +
    alone .name * assigned goal rest frames

end Expressions

/-- What may come at each point, where `rest` may follow the statement. -/
def Control.rest (rest : Language Terminal) : Control → Language Terminal
  | statement _ => rest
  | afterArm _ _ => elsePart * rest
  | afterElse _ _ => (block.language + ifStatement.language) * rest
  | functionName =>
    alone .name * (alone (.mark .leftParen) *
      ((1 + parameters.language) * (alone (.mark .rightParen) * (block.language * rest))))
  | parametersOpen _ =>
    alone (.mark .leftParen) *
      ((1 + parameters.language) * (alone (.mark .rightParen) * (block.language * rest)))
  | firstParameter _ =>
    (1 + parameters.language) * (alone (.mark .rightParen) * (block.language * rest))
  | nextParameter _ _ =>
    parameters.language * (alone (.mark .rightParen) * (block.language * rest))
  | afterParameter _ _ =>
    (alone (.mark .comma) * alone .name)∗ *
      (alone (.mark .rightParen) * (block.language * rest))
  | functionBody _ _ => block.language * rest
  | variableName =>
    alone .name * (alone (.mark .equal) *
      (expression.language * (alone (.mark .semicolon) * rest)))
  | variableEqual _ =>
    alone (.mark .equal) * (expression.language * (alone (.mark .semicolon) * rest))
  | operand goal frames => restOfOperand goal rest frames
  | afterName goal frames _ _ =>
    callPart * behindOperand goal rest frames + assigned goal rest frames
  | afterOperand goal frames _ => behindOperand goal rest frames

/-- What would finish a program. -/
def rest (s : Unfinished) : Language Terminal :=
  s.control.rest (restOfBody s.levels)

/-- What would finish the program that a token leads to, if it is accepted. -/
def restAfter (s : Option Unfinished) : Language Terminal :=
  s.elim 0 rest

section Steps
variable (s : Unfinished) (goal : Goal) (frames : List Frame) {w : List Terminal}

@[simp] theorem restAfter_none : restAfter none = 0 := rfl

@[simp] theorem restAfter_goTo (control : Control) :
    restAfter (some (s.goTo control)) = control.rest (restOfBody s.levels) := rfl

@[simp] theorem restAfter_add (d : Decl) (afterBrace : Bool) :
    restAfter (some (s.add d afterBrace)) = restOfBody s.levels := rfl

@[simp] theorem restAfter_openBlock (opener : Opener) :
    restAfter (some (s.openBlock opener)) = declaration.language∗ *
      (alone (.mark .rightBrace) * (opener.rest * restOfBody s.levels)) := rfl

/-- A literal is an operand whether it can be read or not. -/
@[simp] theorem restAfter_fault (control : Control) (fault : Option LiteralFault) :
    restAfter (some { s with control, fault }) = control.rest (restOfBody s.levels) := rfl

theorem notMem_inPlace {rest : Language Terminal} {t : Terminal} (paren : t ≠ .mark .rightParen)
    (bracket : t ≠ .mark .rightBracket) (semicolon : t ≠ .mark .semicolon) :
    t :: w ∉ inPlace goal rest frames := by
  unfold inPlace
  split
  · simp [cons_mem_alone_mul, paren]
  · simp [cons_mem_alone_mul, bracket]
  · split
    · simp [cons_mem_alone_mul, semicolon]
    · exact Language.notMem_zero _
  · exact Language.notMem_zero _

section Frames
variable {rest : Language Terminal}

-- in this section all that makes up what is left of an operand is unfolded
attribute [local simp] restOfOperand behindExpr inPlace assigned behindOperand Goal.rest listed

@[simp] theorem restOfOperand_unary (op : UnaryOp) (position : Position) :
    restOfOperand goal rest (.unary op position :: frames) =
      unary.language * (operations * behindExpr goal rest frames) := by
  simp [-add_eq_sup]

@[simp] theorem restOfOperand_binary (op : BinaryOp) (left : Operand) :
    restOfOperand goal rest (.binary op left :: frames) =
      unary.language * (operations * behindExpr goal rest frames) := by
  simp [-add_eq_sup]

@[simp] theorem restOfOperand_group (start : Position) :
    restOfOperand goal rest (.group start :: frames) =
      expression.language * (alone (.mark .rightParen) * behindOperand goal rest frames) := by
  simp [-add_eq_sup, expression_mul]

@[simp] theorem restOfOperand_index (target : Operand) :
    restOfOperand goal rest (.index target :: frames) =
      expression.language * (alone (.mark .rightBracket) * behindOperand goal rest frames) := by
  simp [-add_eq_sup, expression_mul]

@[simp] theorem restOfOperand_call (callee : Name) (start : Position) (arguments : List Expr) :
    restOfOperand goal rest (.call callee start arguments :: frames) =
      (if arguments = [] then listed else Nonterminal.arguments.language) *
        (alone (.mark .rightParen) * behindOperand goal rest frames) := by
  cases arguments <;>
    simp [-add_eq_sup, arguments_eq, add_mul, expression_mul, mul_assoc, add_comm]

@[simp] theorem restOfOperand_array (start : Position) (elements : List Expr) :
    restOfOperand goal rest (.array start elements :: frames) =
      (if elements = [] then listed else Nonterminal.arguments.language) *
        (alone (.mark .rightBracket) * behindOperand goal rest frames) := by
  cases elements <;>
    simp [-add_eq_sup, arguments_eq, add_mul, expression_mul, mul_assoc, add_comm]

@[simp] theorem restOfOperand_branch (earlier : List Arm) :
    restOfOperand (.branch earlier) rest [] =
      expression.language * (block.language * (elsePart * rest)) := by
  simp [-add_eq_sup, expression_mul, mul_assoc]

@[simp] theorem restOfOperand_loop :
    restOfOperand .loop rest [] = expression.language * (block.language * rest) := by
  simp [-add_eq_sup, expression_mul]

@[simp] theorem restOfOperand_return :
    restOfOperand .return_ rest [] =
      (1 + expression.language) * (alone (.mark .semicolon) * rest) := by
  simp [-add_eq_sup, expression_mul, add_mul, add_comm]

@[simp] theorem restOfOperand_declare (name : Name) :
    restOfOperand (.declare name) rest [] =
      expression.language * (alone (.mark .semicolon) * rest) := by
  simp [-add_eq_sup, expression_mul]

@[simp] theorem restOfOperand_assign (name : Name) (position : Position) :
    restOfOperand (.assign name position) rest [] =
      expression.language * (alone (.mark .semicolon) * rest) := by
  simp [-add_eq_sup, expression_mul]

end Frames

theorem cons_mem_operand [CharacterNames] (token : Token) :
    token.terminal :: w ∈ restOfOperand goal (restOfBody s.levels) frames ↔
      w ∈ restAfter (s.feedOperand goal frames token) := by
  obtain ⟨t, lexeme, p⟩ := token
  simp only [restOfOperand, Language.mem_add, cons_mem_unary_mul, cons_mem_alone_mul]
  cases t with
  | name =>
    simp [-add_eq_sup, notMem_inPlace, afterOperandStart, feedOperand, Control.rest, behindOperand,
      Language.mem_add]
  | number =>
    cases h : numberLiteral lexeme <;>
      simp [-add_eq_sup, notMem_inPlace, feedOperand, h, afterOperandStart, Control.rest,
        behindOperand]
  | string =>
    cases h : stringLiteral lexeme <;>
      simp [-add_eq_sup, notMem_inPlace, feedOperand, h, afterOperandStart, Control.rest,
        behindOperand]
  | keyword k =>
    cases k <;>
      simp [-add_eq_sup, notMem_inPlace, feedOperand, afterOperandStart, Control.rest,
        behindOperand]
  | mark m =>
    cases m with
    | rightParen =>
      rcases frames with _ | ⟨_ | _ | _ | _ | ⟨_, _, _ | _⟩ | ⟨_, _ | _⟩, frames⟩ <;> cases goal <;>
        simp [-add_eq_sup, feedOperand, afterOperandStart, Control.rest, inPlace,
          cons_mem_alone_mul]
    | rightBracket =>
      rcases frames with _ | ⟨_ | _ | _ | _ | ⟨_, _, _ | _⟩ | ⟨_, _ | _⟩, frames⟩ <;> cases goal <;>
        simp [-add_eq_sup, feedOperand, afterOperandStart, Control.rest, inPlace,
          cons_mem_alone_mul]
    | semicolon =>
      rcases frames with _ | ⟨_ | _ | _ | _ | ⟨_, _, _ | _⟩ | ⟨_, _ | _⟩, frames⟩ <;> cases goal <;>
        simp [-add_eq_sup, feedOperand, afterOperandStart, inPlace, cons_mem_alone_mul]
    | _ =>
      simp [-add_eq_sup, notMem_inPlace, feedOperand, afterOperandStart, Control.rest,
        behindOperand]
  | endOfInput => simp [-add_eq_sup, notMem_inPlace, feedOperand, afterOperandStart]

/-- Folding takes operators away, of which nothing is left to come. -/
theorem behindExpr_fold (rest : Language Terminal) (level : Nat) (x : Operand) :
    behindExpr goal rest (fold level frames x).1 = behindExpr goal rest frames := by
  fun_induction fold level frames x with
  | case1 op position frames x ih => exact ih
  | case2 op left frames x binds ih => exact ih
  | case3 => rfl
  | case4 => rfl

/-- Whether the innermost frame is one that a mark closes, if there is a frame. -/
def IsBracketed : List Frame → Prop
  | .unary _ _ :: _ | .binary _ _ :: _ => False
  | _ => True

theorem isBracketed_fold (x : Operand) : IsBracketed (fold 0 frames x).1 := by
  fun_induction fold 0 frames x with
  | case1 op position frames x ih => exact ih
  | case2 op left frames x binds ih => exact ih
  | case3 op left frames x binds => exact absurd (Nat.zero_le _) binds
  | case4 frames x unary binary =>
    cases frames with
    | nil => trivial
    | cons frame frames =>
      cases frame with
      | unary op position => exact unary _ _ _ rfl
      | binary op left => exact binary _ _ _ rfl
      | _ => trivial

theorem cons_mem_close {frames : List Frame} (bracketed : IsBracketed frames) (x : Operand)
    (m : Mark) :
    .mark m :: w ∈ behindExpr goal (restOfBody s.levels) frames ↔
      w ∈ restAfter (s.feedClose goal frames x m) := by
  rcases frames with _ | ⟨frame, frames⟩
  · cases goal <;> cases m <;>
      simp [-add_eq_sup, behindExpr, Goal.rest, feedClose, Goal.statement?, Goal.opener?, block_eq,
        cons_mem_alone_mul, mul_assoc, Opener.rest]
  · cases frame <;> simp only [IsBracketed] at bracketed <;> cases m <;>
      simp [-add_eq_sup, behindExpr, feedClose, cons_mem_alone_mul, mem_kstar_mul, mul_assoc,
        Control.rest, behindOperand, arguments_eq]

theorem mark_of_mem_behindExpr {rest : Language Terminal} {t : Terminal}
    (h : t :: w ∈ behindExpr goal rest frames) : ∃ m, t = .mark m := by
  induction frames with
  | nil =>
    cases goal <;>
      simp only [behindExpr, Goal.rest, block_eq, mul_assoc, cons_mem_alone_mul] at h <;>
      exact ⟨_, h.1⟩
  | cons frame frames ih =>
    cases frame <;> simp only [behindExpr, mem_kstar_mul, mul_assoc, cons_mem_alone_mul] at h
    case unary => exact ih h
    case binary => exact ih h
    case group => exact ⟨_, h.1⟩
    case index => exact ⟨_, h.1⟩
    case call => rcases h with h | h <;> exact ⟨_, h.1⟩
    case array => rcases h with h | h <;> exact ⟨_, h.1⟩

theorem cons_mem_behindOperand {rest : Language Terminal} {t : Terminal} :
    t :: w ∈ behindOperand goal rest frames ↔
      (t = .mark .leftBracket ∧
        w ∈ expression.language * (alone (.mark .rightBracket) * behindOperand goal rest frames)) ∨
      ((∃ op : BinaryOp, t = .mark op.mark) ∧
        w ∈ unary.language * (operations * behindExpr goal rest frames)) ∨
      t :: w ∈ behindExpr goal rest frames := by
  have operation : t :: w ∈ operations * behindExpr goal rest frames ↔
      t :: w ∈ behindExpr goal rest frames ∨ (∃ op : BinaryOp, t = .mark op.mark) ∧
        w ∈ unary.language * (operations * behindExpr goal rest frames) := by
    rw [operations, mem_kstar_mul, mul_assoc, cons_mem_binary_mul]
  rw [behindOperand, mem_kstar_mul, operation, subscript, mul_assoc, mul_assoc, cons_mem_alone_mul]
  tauto

theorem feedClose_operator (x : Operand) (op : BinaryOp) :
    s.feedClose goal frames x op.mark = none := by
  cases op <;> simp [feedClose, BinaryOp.mark]

theorem cons_mem_afterOperand (x : Operand) (token : Token) :
    token.terminal :: w ∈ behindOperand goal (restOfBody s.levels) frames ↔
      w ∈ restAfter (s.feedAfterOperand goal frames x token) := by
  obtain ⟨t, lexeme, p⟩ := token
  rw [cons_mem_behindOperand]
  cases t with
  | mark m =>
    have close : .mark m :: w ∈ behindExpr goal (restOfBody s.levels) frames ↔
        w ∈ restAfter (s.feedClose goal (fold 0 frames x).1 (fold 0 frames x).2 m) := by
      rw [← behindExpr_fold goal frames _ 0 x]
      exact s.cons_mem_close goal (isBracketed_fold frames x) _ m
    dsimp only
    rw [close]
    have binary : (∃ op : BinaryOp, mark m = .mark op.mark) ↔ ∃ op, BinaryOp.ofMark? m = some op :=
      exists_congr fun op => by
        rw [BinaryOp.ofMark?_eq_some_iff, Terminal.mark.injEq, eq_comm]
    rw [binary]
    by_cases bracket : m = .leftBracket
    · subst bracket
      simp [-add_eq_sup, feedAfterOperand, feedClose, BinaryOp.ofMark?, Control.rest]
    · cases operator : BinaryOp.ofMark? m with
      | some op =>
        obtain rfl := BinaryOp.ofMark?_eq_some_iff.mp operator
        simp [-add_eq_sup, feedAfterOperand, feedClose_operator, operator, bracket, Control.rest,
          behindExpr_fold]
      | none => simp [-add_eq_sup, feedAfterOperand, operator, bracket]
  | _ =>
    simp only [feedAfterOperand, restAfter_none, Language.notMem_zero, iff_false]
    rintro (⟨other, -⟩ | ⟨⟨op, other⟩, -⟩ | closing)
    · cases other
    · cases other
    · obtain ⟨m, other⟩ := mark_of_mem_behindExpr _ _ closing
      cases other

theorem notMem_assigned {rest : Language Terminal} {t : Terminal} (other : t ≠ .mark .equal) :
    t :: w ∉ assigned goal rest frames := by
  unfold assigned
  split
  · simp [cons_mem_alone_mul, other]
  · exact Language.notMem_zero _

theorem feedAfterName_of_ne (name : Name) (position : Position) {token : Token}
    (paren : token.terminal ≠ .mark .leftParen) (equal : token.terminal ≠ .mark .equal) :
    s.feedAfterName goal frames name position token =
      s.feedAfterOperand goal frames ⟨.name name position, position⟩ token := by
  unfold feedAfterName
  split
  · next same => exact absurd same paren
  · next same => exact absurd same equal
  · rfl

theorem cons_mem_afterName (name : Name) (position : Position) (token : Token) :
    token.terminal :: w ∈
        callPart * behindOperand goal (restOfBody s.levels) frames +
          assigned goal (restOfBody s.levels) frames ↔
      w ∈ restAfter (s.feedAfterName goal frames name position token) := by
  have operand := s.cons_mem_afterOperand (w := w) goal frames ⟨.name name position, position⟩ token
  obtain ⟨t, lexeme, p⟩ := token
  rw [Language.mem_add, callPart, mem_optional_mul, mul_assoc, cons_mem_alone_mul, operand]
  by_cases paren : t = .mark .leftParen
  · subst paren
    simp [-add_eq_sup, notMem_assigned, feedAfterName, feedAfterOperand, feedClose,
      BinaryOp.ofMark?, Control.rest, mul_assoc]
  by_cases equal : t = .mark .equal
  · subst equal
    have closed (frames : List Frame) (x : Operand) :
        s.feedClose goal frames x .equal = none := by simp [feedClose]
    cases goal <;> cases frames <;>
      simp [-add_eq_sup, assigned, feedAfterName, feedAfterOperand, closed, BinaryOp.ofMark?,
        Control.rest, cons_mem_alone_mul, restOfOperand, inPlace, behindExpr, Goal.rest,
        expression_mul]
  · rw [s.feedAfterName_of_ne goal frames name position paren equal]
    simp [paren, notMem_assigned goal frames equal]

theorem cons_mem_levels {t : Terminal} {levels : List Level} :
    t :: w ∈ restOfLevels levels ↔ ∃ level outer, levels = level :: outer ∧
      t = .mark .rightBrace ∧ w ∈ level.opener.rest * restOfBody outer := by
  cases levels with
  | nil => simp [restOfLevels, Language.mem_one]
  | cons level outer => simp [restOfLevels, cons_mem_alone_mul, restOfBody]

theorem cons_mem_statement [CharacterNames] (token : Token) :
    token.terminal :: w ∈ restOfBody s.levels ↔ w ∈ restAfter (s.feedStatement token) := by
  have operand := s.cons_mem_operand (w := w) .eval [] token
  have start : token.terminal :: w ∈ restOfBody s.levels ↔
      token.terminal :: w ∈ restOfLevels s.levels ∨
        w ∈ afterDeclarationStart (restOfBody s.levels) token.terminal := by
    rw [restOfBody, mem_kstar_mul, cons_mem_declaration_mul]
  rw [start, cons_mem_levels]
  obtain ⟨t, lexeme, p⟩ := token
  simp only [restOfOperand, Language.mem_add, cons_mem_unary_mul, cons_mem_alone_mul, inPlace,
    assigned, behindExpr, Goal.rest, Language.notMem_zero, or_false] at operand
  cases t with
  | keyword k =>
    cases k <;>
      simp [-add_eq_sup, feedStatement, afterDeclarationStart, Control.rest, ← operand]
  | mark m =>
    cases m with
    | leftBrace => simp [-add_eq_sup, feedStatement, afterDeclarationStart, Opener.rest]
    | rightBrace =>
      rcases levels : s.levels with _ | ⟨⟨opener, before⟩, outer⟩
      · simp [-add_eq_sup, feedStatement, closeBlock?, levels, afterDeclarationStart,
          afterOperandStart]
      · cases opener <;>
          simp [-add_eq_sup, feedStatement, closeBlock?, levels, afterDeclarationStart,
            afterOperandStart, Opener.rest, Control.rest]
    | _ => simp [-add_eq_sup, feedStatement, afterDeclarationStart, ← operand]
  | name =>
    simp [-add_eq_sup, feedStatement, afterDeclarationStart, ← operand, Language.mem_add, or_comm]
  | _ => simp [-add_eq_sup, feedStatement, afterDeclarationStart, ← operand]

theorem feed_afterArm [CharacterNames] (last : Arm) (earlier : List Arm) {token : Token}
    (here : s.control = .afterArm last earlier) (other : token.terminal ≠ .keyword .else_) :
    s.feed token = (s.add (.stmt (branchOf last .nothing earlier)) true).feedStatement token := by
  unfold feed
  rw [here]
  split <;> simp_all

/-- What would finish a program starts with the terminals that it accepts, and goes on with what
would finish the program that they lead to. -/
theorem cons_mem_rest [CharacterNames] (token : Token) :
    token.terminal :: w ∈ s.rest ↔ w ∈ restAfter (s.feed token) := by
  obtain ⟨statements, levels, control, fault⟩ := s
  cases control with
  | statement afterBrace => exact cons_mem_statement _ token
  | operand goal frames => exact cons_mem_operand _ goal frames token
  | afterName goal frames name position =>
    exact cons_mem_afterName _ goal frames name position token
  | afterOperand goal frames x => exact cons_mem_afterOperand _ goal frames x token
  | afterArm last earlier =>
    have next := cons_mem_statement (w := w)
      ((⟨statements, levels, .afterArm last earlier, fault⟩ : Unfinished).add
        (.stmt (branchOf last .nothing earlier)) true) token
    change token.terminal :: w ∈ restOfBody levels ↔ _ at next
    obtain ⟨t, lexeme, p⟩ := token
    rw [rest, Control.rest, elsePart, mem_optional_mul, mul_assoc, cons_mem_alone_mul, next]
    by_cases other : t = .keyword .else_
    · subst other
      simp [-add_eq_sup, feed, feedStatement, feedOperand, Control.rest]
    · rw [feed_afterArm _ last earlier rfl other]
      simp [other]
  | _ =>
    obtain ⟨t, lexeme, p⟩ := token
    unfold rest
    cases t
    case' keyword k => cases k
    case' mark m => cases m
    all_goals
      simp [-add_eq_sup, feed, Control.rest, cons_mem_alone_mul, parameters_eq, block_eq,
        ifStatement_eq, mem_kstar_mul, mul_assoc, add_mul, Language.mem_add, Opener.rest]

theorem nil_notMem_behindExpr {rest : Language Terminal} : [] ∉ behindExpr goal rest frames := by
  induction frames with
  | nil => cases goal <;> simp [behindExpr, Goal.rest, block_eq, nil_mem_mul, nil_notMem_alone]
  | cons frame frames ih =>
    cases frame <;> simp [behindExpr, nil_mem_mul, nil_notMem_alone, ih]

theorem nil_notMem_inPlace {rest : Language Terminal} : [] ∉ inPlace goal rest frames := by
  unfold inPlace
  split
  · simp [nil_mem_mul, nil_notMem_alone]
  · simp [nil_mem_mul, nil_notMem_alone]
  · split
    · simp [nil_mem_mul, nil_notMem_alone]
    · exact Language.notMem_zero _
  · exact Language.notMem_zero _

theorem nil_notMem_assigned {rest : Language Terminal} : [] ∉ assigned goal rest frames := by
  unfold assigned
  split
  · simp [nil_mem_mul, nil_notMem_alone]
  · exact Language.notMem_zero _

/-- What would finish a program may be nothing exactly if the program may end. -/
theorem nil_mem_rest : [] ∈ s.rest ↔ s.program?.isSome := by
  obtain ⟨statements, levels, control, fault⟩ := s
  have body : [] ∈ restOfBody levels ↔ levels = [] := by
    rw [restOfBody, nil_mem_mul]
    cases levels with
    | nil => exact iff_of_true ⟨Language.nil_mem_kstar _, rfl⟩ rfl
    | cons level levels => simp [restOfLevels, nil_mem_mul, nil_notMem_alone]
  have ends : [] ∈ Control.rest (restOfBody levels) control ↔ levels = [] ∧
      ((∃ afterBrace, control = .statement afterBrace) ∨
        ∃ last earlier, control = .afterArm last earlier) := by
    cases control <;>
      simp [-add_eq_sup, Control.rest, restOfOperand, behindOperand, body, nil_mem_mul,
        Language.mem_add, nil_notMem_alone, nil_notMem_unary, nil_notMem_behindExpr,
        nil_notMem_inPlace, nil_notMem_assigned, nil_mem_elsePart, nil_notMem_block,
        nil_notMem_ifStatement]
  rw [rest, ends]
  cases levels <;> cases control <;> simp [program?]

end Steps

section Nonempty
variable {a b : Language Terminal} (goal : Goal) (frames : List Frame)

theorem exists_mem_mul : (∃ w, w ∈ a * b) ↔ (∃ w, w ∈ a) ∧ ∃ w, w ∈ b := by
  constructor
  · rintro ⟨_, u, hu, v, hv, -⟩
    exact ⟨⟨u, hu⟩, v, hv⟩
  · rintro ⟨⟨u, hu⟩, v, hv⟩
    exact ⟨u ++ v, Language.append_mem_mul hu hv⟩

theorem exists_mem_add : (∃ w, w ∈ a + b) ↔ (∃ w, w ∈ a) ∨ ∃ w, w ∈ b := by
  simp only [Language.mem_add, exists_or]

theorem exists_mem_alone (t : Terminal) : ∃ w, w ∈ t.alone := ⟨[t], rfl⟩

theorem exists_mem_kstar : ∃ w, w ∈ a∗ := ⟨[], Language.nil_mem_kstar a⟩

theorem exists_mem_unary : ∃ w, w ∈ unary.language := by
  refine ⟨[.number], ?_⟩
  rw [← mul_one unary.language, cons_mem_unary_mul]
  exact mem_kstar_mul.mpr (.inl rfl)

theorem exists_mem_expression : ∃ w, w ∈ expression.language := by
  rw [expression_eq]
  exact exists_mem_mul.mpr ⟨exists_mem_unary, exists_mem_kstar⟩

theorem exists_mem_block : ∃ w, w ∈ block.language := by
  rw [block_eq]
  simp only [exists_mem_mul, exists_mem_alone, exists_mem_kstar, and_self]

theorem exists_mem_behindExpr (h : ∃ w, w ∈ a) : ∃ w, w ∈ behindExpr goal a frames := by
  induction frames with
  | nil =>
    cases goal <;>
      simp only [behindExpr, Goal.rest, exists_mem_mul, exists_mem_block, exists_mem_alone, h,
        true_and, and_true]
    exact ⟨[], nil_mem_elsePart⟩
  | cons frame frames ih =>
    cases frame <;>
      simp only [behindExpr, operations, exists_mem_mul, exists_mem_kstar, exists_mem_alone, ih,
        and_self]

theorem exists_mem_levels (levels : List Level) : ∃ w, w ∈ restOfLevels levels := by
  induction levels with
  | nil => exact ⟨[], rfl⟩
  | cons level levels ih =>
    have closed : ∃ w, w ∈ level.opener.rest := by
      cases level.opener <;> exact ⟨[], by first | rfl | exact nil_mem_elsePart⟩
    simp only [restOfLevels, exists_mem_mul, exists_mem_alone, exists_mem_kstar, closed, ih,
      and_self]

theorem exists_mem_rest (s : Unfinished) : ∃ w, w ∈ s.rest := by
  have body : ∃ w, w ∈ restOfBody s.levels := by
    simp only [restOfBody, exists_mem_mul, exists_mem_kstar, exists_mem_levels, and_self]
  have elsewhere : ∃ w, w ∈ elsePart := ⟨[], nil_mem_elsePart⟩
  have one : ∃ w : List Terminal, w ∈ (1 : Language Terminal) := ⟨[], rfl⟩
  unfold rest
  cases s.control <;>
    simp only [Control.rest, restOfOperand, behindOperand, callPart, operations, exists_mem_mul,
      exists_mem_add, exists_mem_alone, exists_mem_kstar, exists_mem_unary, exists_mem_expression,
      exists_mem_block, exists_mem_behindExpr _ _ body, parameters_eq, elsewhere, one, body,
      true_or, and_self]

end Nonempty

/-- A token is accepted if some list that would finish the program starts with its terminal. -/
theorem isSome_feed [CharacterNames] (s : Unfinished) (token : Token) :
    (s.feed token).isSome ↔ ∃ w, token.terminal :: w ∈ s.rest := by
  simp only [cons_mem_rest]
  cases s.feed token with
  | none => simp [Language.notMem_zero]
  | some next => exact iff_of_true rfl next.exists_mem_rest

/-- Reads tokens one after the other until one is refused. -/
def feedAll [CharacterNames] (s : Unfinished) (tokens : List Token) : Option Unfinished :=
  tokens.foldlM feed s

theorem feedAll_cons [CharacterNames] (s : Unfinished) (token : Token) (tokens : List Token) :
    s.feedAll (token :: tokens) = (s.feed token).bind (feedAll · tokens) := by
  rw [feedAll, List.foldlM_cons]
  rfl

/-- The tokens that an unfinished program accepts up to a place where it may end are those whose
terminals would finish it. -/
theorem mem_rest_iff [CharacterNames] (s : Unfinished) (tokens : List Token) :
    tokens.map Token.terminal ∈ s.rest ↔
      ∃ t, s.feedAll tokens = some t ∧ t.program?.isSome := by
  induction tokens generalizing s with
  | nil => simp [feedAll, nil_mem_rest]
  | cons token tokens ih =>
    rw [List.map_cons, cons_mem_rest]
    cases h : s.feed token with
    | none => simp [feedAll, h]
    | some next =>
      simp only [feedAll, List.foldlM_cons, h]
      exact ih next

/-- Lists of terminals are accepted from the start exactly if they can be derived. -/
theorem rest_empty : empty.rest = start.language := by
  have program_ : program.language = _ := language_eq _
  have start_ : start.language = _ := language_eq _
  simp only [Nonterminal.pattern, language_nonterminal, Pattern.language_star] at program_ start_
  rw [start_, program_]
  simp [-add_eq_sup, rest, empty, Control.rest, restOfBody, restOfLevels]

end Script.Unfinished
