import Script.Source.Token

/-!
# Expressions

An expression that can fail at run time carries the position that its errors name: a name or a call
that of the name, a unary operator that of the operator, a binary operator or an index that of the
first token of its left operand.
-/

namespace Script

abbrev Name := Text

inductive UnaryOp where
  | negate | not
  deriving Repr, DecidableEq

inductive BinaryOp where
  | equal | unequal | less | lessEqual | greater | greaterEqual | add | sub | mul | div | mod
  deriving Repr, DecidableEq

/-- A constant. Integers are those of the source, of any size. -/
inductive Literal where
  | integer (value : Int)
  | string (value : Text)
  | boolean (value : Bool)
  | nil
  deriving Repr, DecidableEq

inductive Expr where
  | literal (value : Literal)
  | name (name : Name) (position : Position)
  | call (callee : Name) (arguments : List Expr) (position : Position)
  | array (elements : List Expr)
  | index (target index : Expr) (position : Position)
  | unary (op : UnaryOp) (operand : Expr) (position : Position)
  | binary (op : BinaryOp) (left right : Expr) (position : Position)
  deriving Repr, Inhabited

namespace UnaryOp

def mark : UnaryOp → Mark
  | negate => .minus
  | not => .bang

def spelling (op : UnaryOp) : Text :=
  op.mark.spelling

end UnaryOp

namespace BinaryOp

def mark : BinaryOp → Mark
  | equal => .equalEqual
  | unequal => .bangEqual
  | less => .less
  | lessEqual => .lessEqual
  | greater => .greater
  | greaterEqual => .greaterEqual
  | add => .plus
  | sub => .minus
  | mul => .star
  | div => .slash
  | mod => .percent

def spelling (op : BinaryOp) : Text :=
  op.mark.spelling

/-- The operator that a mark between two operands stands for. -/
def ofMark? : Mark → Option BinaryOp
  | .equalEqual => some equal
  | .bangEqual => some unequal
  | .less => some less
  | .lessEqual => some lessEqual
  | .greater => some greater
  | .greaterEqual => some greaterEqual
  | .plus => some add
  | .minus => some sub
  | .star => some mul
  | .slash => some div
  | .percent => some mod
  | _ => none

theorem ofMark?_eq_some_iff {m : Mark} {op : BinaryOp} : ofMark? m = some op ↔ op.mark = m := by
  cases m <;> cases op <;> decide

/-- How tightly an operator binds: equality least, then comparison, sums and products. All
operators of one level group to the left. -/
def level : BinaryOp → Nat
  | equal | unequal => 1
  | less | lessEqual | greater | greaterEqual => 2
  | add | sub => 3
  | mul | div | mod => 4

end BinaryOp

end Script
