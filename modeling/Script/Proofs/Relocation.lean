import Script.Program.Unfinished
import Script.Proofs.Continuation

/-!
# Moving positions

Every position of a program, of an unfinished one or of a token can be replaced by its image under a
function. Reading never looks at a position: what is read of moved tokens is what is read of the
tokens, moved. In particular programs can be compared without their positions, by moving everything
to no place.
-/

namespace Script

section Programs
variable (f : Position → Position)

mutual

def Expr.relocate : Expr → Expr
  | .literal value => .literal value
  | .name name position => .name name (f position)
  | .call callee arguments position => .call callee (relocateExprs arguments) (f position)
  | .array elements => .array (relocateExprs elements)
  | .index target index position => .index target.relocate index.relocate (f position)
  | .unary op operand position => .unary op operand.relocate (f position)
  | .binary op left right position => .binary op left.relocate right.relocate (f position)
termination_by structural e => e

def relocateExprs : List Expr → List Expr
  | [] => []
  | e :: rest => e.relocate :: relocateExprs rest
termination_by structural es => es

end

mutual

def Stmt.relocate : Stmt → Stmt
  | .block body => .block (relocateBody body)
  | .declare name value => .declare name (value.relocate f)
  | .assign name value position => .assign name (value.relocate f) (f position)
  | .eval value => .eval (value.relocate f)
  | .branch condition body otherwise =>
    .branch (condition.relocate f) body.relocate otherwise.relocate
  | .loop condition body => .loop (condition.relocate f) body.relocate
  | .return_ value => .return_ (value.map (Expr.relocate f))
termination_by structural s => s

def Otherwise.relocate : Otherwise → Otherwise
  | .nothing => .nothing
  | .stmt s => .stmt s.relocate
termination_by structural o => o

def Decl.relocate : Decl → Decl
  | .function name parameters body => .function name parameters (relocateBody body)
  | .stmt s => .stmt s.relocate
termination_by structural d => d

def relocateBody : List Decl → List Decl
  | [] => []
  | d :: rest => d.relocate :: relocateBody rest
termination_by structural body => body

end

@[simp] theorem relocateExprs_eq (es : List Expr) :
    relocateExprs f es = es.map (Expr.relocate f) := by
  induction es with
  | nil => rfl
  | cons e es ih => rw [relocateExprs, ih, List.map_cons]

@[simp] theorem relocateBody_eq (body : List Decl) :
    relocateBody f body = body.map (Decl.relocate f) := by
  induction body with
  | nil => rfl
  | cons d body ih => rw [relocateBody, ih, List.map_cons]

def Token.relocate (token : Token) : Token :=
  { token with position := f token.position }

def Operand.relocate (x : Operand) : Operand :=
  ⟨x.expr.relocate f, f x.start⟩

def Arm.relocate (arm : Arm) : Arm :=
  ⟨arm.condition.relocate f, relocateBody f arm.body⟩

theorem relocate_branchOf (last : Arm) (otherwise : Otherwise) (earlier : List Arm) :
    (branchOf last otherwise earlier).relocate f =
      branchOf (last.relocate f) (otherwise.relocate f) (earlier.map (Arm.relocate f)) := by
  induction earlier generalizing last otherwise with
  | nil => rfl
  | cons arm earlier ih => exact ih arm (.stmt (last.branch otherwise))

end Programs

namespace Unfinished

section Parts
variable (f : Position → Position)

def Goal.relocate : Goal → Goal
  | assign name position => assign name (f position)
  | branch earlier => branch (earlier.map (Arm.relocate f))
  | eval => eval
  | declare name => declare name
  | return_ => return_
  | loop => loop

def Frame.relocate : Frame → Frame
  | unary op position => unary op (f position)
  | binary op left => binary op (left.relocate f)
  | group start => group (f start)
  | index target => index (target.relocate f)
  | call callee position arguments =>
    call callee (f position) (arguments.map (Expr.relocate f))
  | array start elements => array (f start) (elements.map (Expr.relocate f))

def Opener.relocate : Opener → Opener
  | block => block
  | function name parameters => function name parameters
  | branch condition earlier => branch (condition.relocate f) (earlier.map (Arm.relocate f))
  | otherwise last earlier => otherwise (last.relocate f) (earlier.map (Arm.relocate f))
  | loop condition => loop (condition.relocate f)

def Level.relocate (level : Level) : Level :=
  ⟨level.opener.relocate f, level.before.map (Decl.relocate f)⟩

def Control.relocate : Control → Control
  | statement afterBrace => statement afterBrace
  | afterArm last earlier => afterArm (last.relocate f) (earlier.map (Arm.relocate f))
  | afterElse last earlier => afterElse (last.relocate f) (earlier.map (Arm.relocate f))
  | functionName => functionName
  | parametersOpen function => parametersOpen function
  | firstParameter function => firstParameter function
  | nextParameter function parameters => nextParameter function parameters
  | afterParameter function parameters => afterParameter function parameters
  | functionBody function parameters => functionBody function parameters
  | variableName => variableName
  | variableEqual name => variableEqual name
  | operand goal frames => operand (goal.relocate f) (frames.map (Frame.relocate f))
  | afterName goal frames name position =>
    afterName (goal.relocate f) (frames.map (Frame.relocate f)) name (f position)
  | afterOperand goal frames x =>
    afterOperand (goal.relocate f) (frames.map (Frame.relocate f)) (x.relocate f)

end Parts

def relocate (f : Position → Position) (s : Unfinished) : Unfinished :=
  ⟨s.statements.map (Decl.relocate f), s.levels.map (Level.relocate f), s.control.relocate f,
    s.fault⟩

section Steps
variable (f : Position → Position) (s : Unfinished) (goal : Goal) (frames : List Frame)

@[simp] theorem relocate_goTo (control : Control) :
    (s.goTo control).relocate f = (s.relocate f).goTo (control.relocate f) := rfl

@[simp] theorem relocate_add (d : Decl) (afterBrace : Bool) :
    (s.add d afterBrace).relocate f = (s.relocate f).add (d.relocate f) afterBrace := rfl

@[simp] theorem relocate_openBlock (opener : Opener) :
    (s.openBlock opener).relocate f = (s.relocate f).openBlock (opener.relocate f) := rfl

theorem relocate_closeBlock? :
    s.closeBlock?.map (relocate f) = (s.relocate f).closeBlock? := by
  obtain ⟨statements, levels, control, fault⟩ := s
  cases levels with
  | nil => rfl
  | cons level levels =>
    obtain ⟨opener, before⟩ := level
    cases opener <;>
      simp [closeBlock?, relocate, Level.relocate, Opener.relocate, add, goTo, Control.relocate,
        Arm.relocate, Stmt.relocate, Otherwise.relocate, Decl.relocate, relocate_branchOf]

theorem relocate_fold (level : Nat) (x : Operand) :
    fold level (frames.map (Frame.relocate f)) (x.relocate f) =
      ((fold level frames x).1.map (Frame.relocate f), (fold level frames x).2.relocate f) := by
  induction frames generalizing x with
  | nil => rfl
  | cons frame frames ih =>
    cases frame with
    | unary op position => exact ih ⟨.unary op x.expr position, position⟩
    | binary op left =>
      rw [List.map_cons, Frame.relocate, fold, fold]
      split
      · exact ih ⟨.binary op left.expr x.expr left.start, left.start⟩
      · rfl
    | _ => rfl

theorem relocate_feedOperand [CharacterNames] (token : Token) :
    (s.feedOperand goal frames token).map (relocate f) =
      (s.relocate f).feedOperand (goal.relocate f) (frames.map (Frame.relocate f))
        (token.relocate f) := by
  obtain ⟨t, lexeme, p⟩ := token
  cases t with
  | number =>
    simp only [feedOperand, Token.relocate]
    cases numberLiteral lexeme <;> rfl
  | string =>
    simp only [feedOperand, Token.relocate]
    cases stringLiteral lexeme <;> rfl
  | keyword k => cases k <;> rfl
  | mark m =>
    cases m with
    | rightParen =>
      rcases frames with _ | ⟨⟨⟩ | ⟨⟩ | ⟨⟩ | ⟨⟩ | ⟨callee, start, _ | _⟩ | ⟨⟩, frames⟩ <;> rfl
    | rightBracket =>
      rcases frames with _ | ⟨⟨⟩ | ⟨⟩ | ⟨⟩ | ⟨⟩ | ⟨⟩ | ⟨start, _ | _⟩, frames⟩ <;> rfl
    | semicolon => cases goal <;> cases frames <;> rfl
    | _ => rfl
  | _ => rfl

theorem relocate_feedClose (x : Operand) (mark : Mark) :
    (s.feedClose goal frames x mark).map (relocate f) =
      (s.relocate f).feedClose (goal.relocate f) (frames.map (Frame.relocate f)) (x.relocate f)
        mark := by
  cases frames with
  | nil => cases mark <;> cases goal <;> rfl
  | cons frame frames =>
    cases frame <;> cases mark <;>
      first
      | rfl
      | simp [feedClose, Frame.relocate, Control.relocate, Operand.relocate, Expr.relocate]

theorem relocate_feedAfterOperand (x : Operand) (token : Token) :
    (s.feedAfterOperand goal frames x token).map (relocate f) =
      (s.relocate f).feedAfterOperand (goal.relocate f) (frames.map (Frame.relocate f))
        (x.relocate f) (token.relocate f) := by
  obtain ⟨t, lexeme, p⟩ := token
  cases t with
  | mark m =>
    by_cases bracket : m = .leftBracket
    · subst bracket
      rfl
    · cases operator : BinaryOp.ofMark? m with
      | some op =>
        simp [feedAfterOperand, Token.relocate, operator, relocate_fold, Control.relocate,
          Frame.relocate]
      | none =>
        simp [feedAfterOperand, Token.relocate, operator, relocate_fold, relocate_feedClose]
  | _ => rfl

theorem relocate_feedAfterName (name : Name) (position : Position) (token : Token) :
    (s.feedAfterName goal frames name position token).map (relocate f) =
      (s.relocate f).feedAfterName (goal.relocate f) (frames.map (Frame.relocate f)) name
        (f position) (token.relocate f) := by
  by_cases paren : token.terminal = .mark .leftParen
  · obtain ⟨t, lexeme, p⟩ := token
    subst paren
    rfl
  by_cases equal : token.terminal = .mark .equal
  · obtain ⟨t, lexeme, p⟩ := token
    subst equal
    have closed (s : Unfinished) (goal : Goal) (frames : List Frame) (x : Operand) :
        s.feedClose goal frames x .equal = none := by simp [feedClose]
    cases goal <;> cases frames <;>
      simp [feedAfterName, feedAfterOperand, closed, Token.relocate, Goal.relocate,
        BinaryOp.ofMark?, Control.relocate]
  · rw [s.feedAfterName_of_ne goal frames name position paren equal,
      feedAfterName_of_ne _ _ _ _ _ (by exact paren) (by exact equal),
      relocate_feedAfterOperand]
    rfl

theorem relocate_feedStatement [CharacterNames] (token : Token) :
    (s.feedStatement token).map (relocate f) = (s.relocate f).feedStatement (token.relocate f) := by
  have operand := relocate_feedOperand f s .eval [] token
  obtain ⟨t, lexeme, p⟩ := token
  cases t with
  | keyword k => cases k <;> rfl
  | mark m =>
    cases m with
    | rightBrace => exact relocate_closeBlock? f s
    | leftBrace => rfl
    | _ => exact operand
  | _ => exact operand

theorem relocate_feed [CharacterNames] (token : Token) :
    (s.feed token).map (relocate f) = (s.relocate f).feed (token.relocate f) := by
  obtain ⟨statements, levels, control, fault⟩ := s
  cases control with
  | statement afterBrace => exact relocate_feedStatement f _ token
  | operand goal frames => exact relocate_feedOperand f _ goal frames token
  | afterName goal frames name position =>
    exact relocate_feedAfterName f _ goal frames name position token
  | afterOperand goal frames x => exact relocate_feedAfterOperand f _ goal frames x token
  | afterArm last earlier =>
    by_cases other : token.terminal = .keyword .else_
    · obtain ⟨t, lexeme, p⟩ := token
      subst other
      rfl
    · rw [feed_afterArm _ last earlier rfl other, relocate_feedStatement, relocate_add,
        Decl.relocate, relocate_branchOf]
      symm
      exact feed_afterArm (relocate f ⟨statements, levels, .afterArm last earlier, fault⟩)
        (last.relocate f) (earlier.map (Arm.relocate f)) rfl other
  | _ =>
    obtain ⟨t, lexeme, p⟩ := token
    cases t
    case keyword k => cases k <;> rfl
    case mark m => cases m <;> rfl
    all_goals rfl

theorem relocate_feedAll [CharacterNames] (tokens : List Token) :
    (s.feedAll tokens).map (relocate f) =
      (s.relocate f).feedAll (tokens.map (Token.relocate f)) := by
  induction tokens generalizing s with
  | nil => rfl
  | cons token tokens ih =>
    rw [List.map_cons, feedAll_cons, feedAll_cons, ← relocate_feed]
    cases s.feed token with
    | none => rfl
    | some next => exact ih next

theorem relocate_program? : s.program?.map (List.map (Decl.relocate f)) =
    (s.relocate f).program? := by
  obtain ⟨statements, levels, control, fault⟩ := s
  cases levels <;> cases control <;>
    simp [program?, relocate, Control.relocate, Decl.relocate, relocate_branchOf,
      Otherwise.relocate]

end Steps

end Unfinished

end Script
