import Script.Program.Stmt
import Script.Source.StringLiteral

/-!
# Unfinished programs

An unfinished program is what has been understood of a source up to some token: the blocks that are
still open, the statements before them, and the statement that is being read. One token at a time
is fed to it, and a token that cannot come at that place is refused. The machine never goes back:
one token is enough for every choice, so nothing behind a refused token could have saved it.

An expression that is being read is a stack of frames around the operand that is read next. When an
operator or a closing mark comes, the frames that bind at least as tightly are folded into the
operand. A literal that cannot be read is remembered and does not stop the machine.
-/

namespace Script

/-- Why a literal is refused once the whole source has been read. -/
inductive LiteralFault where
  | longNumber
  | string (fault : StringLiteral.Fault)
  deriving Repr, DecidableEq

/-- The largest number of digits of a number. -/
def maxDigits : Nat := 4300

def numberLiteral (lexeme : Text) : Except LiteralFault Literal :=
  if lexeme.length ≤ maxDigits then .ok (.integer (Text.digitsValue lexeme)) else .error .longNumber

/-- The literal of a string token, which has a quotation mark at each end. -/
def stringLiteral [CharacterNames] (lexeme : Text) : Except LiteralFault Literal :=
  match StringLiteral.decode (lexeme.drop 1).dropLast with
  | .ok t => .ok (.string t)
  | .error fault => .error (.string fault)

/-- An expression with the position of its first token, parentheses around it included. -/
structure Operand where
  expr : Expr
  start : Position
  deriving Repr

/-- A branch of which condition and body are complete. -/
structure Arm where
  condition : Expr
  body : List Decl
  deriving Repr

def Arm.branch (arm : Arm) (otherwise : Otherwise) : Stmt :=
  .branch arm.condition (.block arm.body) otherwise

/-- The branch statement of a chain: its last arm, the arms before that one from the last to the
first, and what follows the last arm. -/
def branchOf (last : Arm) (otherwise : Otherwise) : List Arm → Stmt
  | [] => last.branch otherwise
  | arm :: earlier => branchOf arm (.stmt (last.branch otherwise)) earlier

namespace Unfinished

/-- What the expression that is being read is for. -/
inductive Goal where
  | eval
  | declare (name : Name)
  | assign (name : Name) (position : Position)
  | return_
  | branch (earlier : List Arm)
  | loop
  deriving Repr

/-- One construct around the operand that is being read. Arguments and elements that are complete
are listed from the last to the first. -/
inductive Frame where
  | unary (op : UnaryOp) (position : Position)
  | binary (op : BinaryOp) (left : Operand)
  | group (start : Position)
  | index (target : Operand)
  | call (callee : Name) (position : Position) (arguments : List Expr)
  | array (start : Position) (elements : List Expr)
  deriving Repr

/-- What an open block is the body of. -/
inductive Opener where
  | block
  | function (name : Name) (parameters : List Name)
  | branch (condition : Expr) (earlier : List Arm)
  | otherwise (last : Arm) (earlier : List Arm)
  | loop (condition : Expr)
  deriving Repr

/-- An open block together with the statements before it in the enclosing block, from the last to
the first. -/
structure Level where
  opener : Opener
  before : List Decl
  deriving Repr

/-- What has been read since the last complete statement, and hence what may come next. -/
inductive Control where
  | statement (afterBrace : Bool)
  | afterArm (last : Arm) (earlier : List Arm)
  | afterElse (last : Arm) (earlier : List Arm)
  | functionName
  | parametersOpen (function : Name)
  | firstParameter (function : Name)
  | nextParameter (function : Name) (parameters : List Name)
  | afterParameter (function : Name) (parameters : List Name)
  | functionBody (function : Name) (parameters : List Name)
  | variableName
  | variableEqual (variable_ : Name)
  | operand (goal : Goal) (frames : List Frame)
  | afterName (goal : Goal) (frames : List Frame) (name : Name) (position : Position)
  | afterOperand (goal : Goal) (frames : List Frame) (operand : Operand)
  deriving Repr

end Unfinished

open Unfinished in
/-- What has been read of a program: the statements of the innermost open block from the last to
the first, the open blocks from the innermost to the outermost, and the first bad literal. -/
structure Unfinished where
  statements : List Decl
  levels : List Level
  control : Control
  fault : Option LiteralFault
  deriving Repr

namespace Unfinished

def empty : Unfinished := ⟨[], [], .statement false, none⟩

def goTo (s : Unfinished) (control : Control) : Unfinished :=
  { s with control }

/-- Adds a complete statement to the innermost block. -/
def add (s : Unfinished) (d : Decl) (afterBrace : Bool) : Unfinished :=
  { s with statements := d :: s.statements, control := .statement afterBrace }

def openBlock (s : Unfinished) (opener : Opener) : Unfinished :=
  { s with
    statements := [], levels := ⟨opener, s.statements⟩ :: s.levels, control := .statement false }

/-- Closes the innermost block. The body of a branch may be followed by `else`; every other block
completes a statement. -/
def closeBlock? (s : Unfinished) : Option Unfinished :=
  match s.levels with
  | [] => none
  | ⟨opener, before⟩ :: levels =>
    let body := s.statements.reverse
    let outer := { s with statements := before, levels }
    match opener with
    | .block => some (outer.add (.stmt (.block body)) true)
    | .function name parameters => some (outer.add (.function name parameters body) true)
    | .branch condition earlier => some (outer.goTo (.afterArm ⟨condition, body⟩ earlier))
    | .otherwise last earlier =>
      some (outer.add (.stmt (branchOf last (.stmt (.block body)) earlier)) true)
    | .loop condition => some (outer.add (.stmt (.loop condition (.block body))) true)

/-- Folds the operators that bind at least as tightly as `level` into the operand behind them. -/
def fold (level : Nat) : List Frame → Operand → List Frame × Operand
  | .unary op position :: frames, x => fold level frames ⟨.unary op x.expr position, position⟩
  | .binary op left :: frames, x =>
    if level ≤ op.level then
      fold level frames ⟨.binary op left.expr x.expr left.start, left.start⟩
    else (.binary op left :: frames, x)
  | frames, x => (frames, x)

/-- The statement that a complete expression and a semicolon make. -/
def Goal.statement? (value : Expr) : Goal → Option Stmt
  | eval => some (.eval value)
  | declare name => some (.declare name value)
  | assign name position => some (.assign name value position)
  | return_ => some (.return_ (some value))
  | branch _ | loop => none

/-- The block that a complete condition opens. -/
def Goal.opener? (condition : Expr) : Goal → Option Opener
  | branch earlier => some (.branch condition earlier)
  | loop => some (.loop condition)
  | eval | declare _ | assign _ _ | return_ => none

variable [CharacterNames]

/-- Reads a token where an operand may start. A call and an array that have just been opened may be
closed at once, and `return` may stand alone. -/
def feedOperand (s : Unfinished) (goal : Goal) (frames : List Frame) (token : Token) :
    Option Unfinished :=
  let p := token.position
  let operand (start : Position) (frames : List Frame) (expr : Expr) : Option Unfinished :=
    some (s.goTo (.afterOperand goal frames ⟨expr, start⟩))
  let literal : Except LiteralFault Literal → Option Unfinished
    | .ok value => operand p frames (.literal value)
    | .error fault =>
      some { s with
        control := .afterOperand goal frames ⟨.literal .nil, p⟩, fault := s.fault.or (some fault) }
  let inside (frame : Frame) : Option Unfinished := some (s.goTo (.operand goal (frame :: frames)))
  match token.terminal with
  | .name => some (s.goTo (.afterName goal frames token.lexeme p))
  | .number => literal (numberLiteral token.lexeme)
  | .string => literal (stringLiteral token.lexeme)
  | .keyword .true_ => literal (.ok (.boolean true))
  | .keyword .false_ => literal (.ok (.boolean false))
  | .keyword .nil_ => literal (.ok .nil)
  | .mark .minus => inside (.unary .negate p)
  | .mark .bang => inside (.unary .not p)
  | .mark .leftParen => inside (.group p)
  | .mark .leftBracket => inside (.array p [])
  | .mark .rightParen =>
    match frames with
    | .call callee start [] :: frames => operand start frames (.call callee [] start)
    | _ => none
  | .mark .rightBracket =>
    match frames with
    | .array start [] :: frames => operand start frames (.array [])
    | _ => none
  | .mark .semicolon =>
    match goal, frames with
    | .return_, [] => some (s.add (.stmt (.return_ none)) false)
    | _, _ => none
  | _ => none

/-- Reads a mark that closes the innermost construct behind a complete expression. -/
def feedClose (s : Unfinished) (goal : Goal) (frames : List Frame) (x : Operand) (mark : Mark) :
    Option Unfinished :=
  match mark, frames with
  | .rightParen, .group start :: frames => some (s.goTo (.afterOperand goal frames ⟨x.expr, start⟩))
  | .rightParen, .call callee start arguments :: frames =>
    let call := .call callee (x.expr :: arguments).reverse start
    some (s.goTo (.afterOperand goal frames ⟨call, start⟩))
  | .rightBracket, .index target :: frames =>
    let index := .index target.expr x.expr target.start
    some (s.goTo (.afterOperand goal frames ⟨index, target.start⟩))
  | .rightBracket, .array start elements :: frames =>
    let array := .array (x.expr :: elements).reverse
    some (s.goTo (.afterOperand goal frames ⟨array, start⟩))
  | .comma, .call callee start arguments :: frames =>
    some (s.goTo (.operand goal (.call callee start (x.expr :: arguments) :: frames)))
  | .comma, .array start elements :: frames =>
    some (s.goTo (.operand goal (.array start (x.expr :: elements) :: frames)))
  | .semicolon, [] => (goal.statement? x.expr).map fun statement => s.add (.stmt statement) false
  | .leftBrace, [] => (goal.opener? x.expr).map s.openBlock
  | _, _ => none

/-- Reads a token behind a complete operand. -/
def feedAfterOperand (s : Unfinished) (goal : Goal) (frames : List Frame) (x : Operand)
    (token : Token) : Option Unfinished :=
  match token.terminal with
  | .mark .leftBracket => some (s.goTo (.operand goal (.index x :: frames)))
  | .mark m =>
    match BinaryOp.ofMark? m with
    | some op =>
      let (frames, left) := fold op.level frames x
      some (s.goTo (.operand goal (.binary op left :: frames)))
    | none =>
      let (frames, x) := fold 0 frames x
      s.feedClose goal frames x m
  | _ => none

/-- Reads a token behind a name: a call or, at the start of a statement, an assignment; otherwise
the name is an operand. -/
def feedAfterName (s : Unfinished) (goal : Goal) (frames : List Frame) (name : Name)
    (position : Position) (token : Token) : Option Unfinished :=
  match token.terminal, goal, frames with
  | .mark .leftParen, _, _ => some (s.goTo (.operand goal (.call name position [] :: frames)))
  | .mark .equal, .eval, [] => some (s.goTo (.operand (.assign name position) []))
  | _, _, _ => s.feedAfterOperand goal frames ⟨.name name position, position⟩ token

/-- Reads the first token of a statement, or the end of the block. -/
def feedStatement (s : Unfinished) (token : Token) : Option Unfinished :=
  match token.terminal with
  | .keyword .fun_ => some (s.goTo .functionName)
  | .keyword .var_ => some (s.goTo .variableName)
  | .keyword .if_ => some (s.goTo (.operand (.branch []) []))
  | .keyword .while_ => some (s.goTo (.operand .loop []))
  | .keyword .return_ => some (s.goTo (.operand .return_ []))
  | .mark .leftBrace => some (s.openBlock .block)
  | .mark .rightBrace => s.closeBlock?
  | _ => s.feedOperand .eval [] token

/-- Reads one token, or refuses it. -/
def feed (s : Unfinished) (token : Token) : Option Unfinished :=
  match s.control, token.terminal with
  | .statement _, _ => s.feedStatement token
  | .afterArm last earlier, .keyword .else_ => some (s.goTo (.afterElse last earlier))
  | .afterArm last earlier, _ =>
    (s.add (.stmt (branchOf last .nothing earlier)) true).feedStatement token
  | .afterElse last earlier, .keyword .if_ =>
    some (s.goTo (.operand (.branch (last :: earlier)) []))
  | .afterElse last earlier, .mark .leftBrace => some (s.openBlock (.otherwise last earlier))
  | .functionName, .name => some (s.goTo (.parametersOpen token.lexeme))
  | .parametersOpen function, .mark .leftParen => some (s.goTo (.firstParameter function))
  | .firstParameter function, .name => some (s.goTo (.afterParameter function [token.lexeme]))
  | .firstParameter function, .mark .rightParen => some (s.goTo (.functionBody function []))
  | .nextParameter function parameters, .name =>
    some (s.goTo (.afterParameter function (parameters ++ [token.lexeme])))
  | .afterParameter function parameters, .mark .comma =>
    some (s.goTo (.nextParameter function parameters))
  | .afterParameter function parameters, .mark .rightParen =>
    some (s.goTo (.functionBody function parameters))
  | .functionBody function parameters, .mark .leftBrace =>
    some (s.openBlock (.function function parameters))
  | .variableName, .name => some (s.goTo (.variableEqual token.lexeme))
  | .variableEqual name, .mark .equal => some (s.goTo (.operand (.declare name) []))
  | .operand goal frames, _ => s.feedOperand goal frames token
  | .afterName goal frames name position, _ => s.feedAfterName goal frames name position token
  | .afterOperand goal frames x, _ => s.feedAfterOperand goal frames x token
  | _, _ => none

/-- Whether a statement has just been closed by a brace. -/
def isAfterBrace (s : Unfinished) : Bool :=
  match s.control with
  | .statement afterBrace => afterBrace
  | .afterArm _ _ => true
  | _ => false

/-- The terminals under which the next token is looked up: those that are not refused, and `else`
directly behind every closing brace. -/
def mayCome (s : Unfinished) (terminal : Terminal) : Bool :=
  (s.feed ⟨terminal, [], .nowhere⟩).isSome || (terminal == .keyword .else_ && s.isAfterBrace)

/-- The program that has been read, if it may end here. -/
def program? (s : Unfinished) : Option Program :=
  match s.levels, s.control with
  | [], .statement _ => some s.statements.reverse
  | [], .afterArm last earlier =>
    some (.stmt (branchOf last .nothing earlier) :: s.statements).reverse
  | _, _ => none

end Unfinished

end Script
