import Script.Machine.Basic

/-!
# Operators

Equality is defined on all values and compares arrays and functions by identity. All other operators
want integers, but for the sum of two strings, whose bytes are joined. Operands of two kinds are
reported as such before anything is said about the operator.
-/

namespace Script

def UnaryOp.apply (op : UnaryOp) (value : Value) (position : Position) : Value :=
  match op, value with
  | not, value => .boolean !value.isTruthy
  | negate, .integer n => .integer (Integer64.wrap (-n))
  | negate, value => .error ⟨.notNegatable value.kind, position⟩

/-- The failure of an operator on operands that it is not defined on. -/
def BinaryOp.refuse (op : BinaryOp) (left right : Value) : Cause :=
  if left.kind = right.kind then .unsupportedOperands op left.kind right.kind
  else .mixedOperands op left.kind right.kind

def BinaryOp.onIntegers (op : BinaryOp) (a b : Int) : Except Cause Value :=
  let result (n : Int) : Value := .integer (Integer64.wrap n)
  let quotient : Option Int → Except Cause Value
    | some n => .ok (result n)
    | none => .error .divisionByZero
  match op with
  | equal => .ok (.boolean (a = b))
  | unequal => .ok (.boolean (a ≠ b))
  | less => .ok (.boolean (a < b))
  | lessEqual => .ok (.boolean (a ≤ b))
  | greater => .ok (.boolean (a > b))
  | greaterEqual => .ok (.boolean (a ≥ b))
  | add => .ok (result (a + b))
  | sub => .ok (result (a - b))
  | mul => .ok (result (a * b))
  | div => quotient (Integer64.quotient? a b)
  | mod => quotient (Integer64.remainder? a b)

def BinaryOp.apply (op : BinaryOp) (left right : Value) (position : Position) : Eval Value :=
  match op, left, right with
  | equal, _, _ => return .boolean (left = right)
  | unequal, _, _ => return .boolean (left ≠ right)
  | _, .integer a, .integer b =>
    match op.onIntegers a b with
    | .ok value => return value
    | .error cause => return .error ⟨cause, position⟩
  | add, .string s, .string t =>
    return .string (Utf8.ofBytes ((← Eval.bytesOf s) ++ (← Eval.bytesOf t)))
  | _, _, _ => return .error ⟨op.refuse left right, position⟩

/-- The element of an array or the byte of a string at an index, or nil outside its bounds. -/
def indexValue (target index : Value) (position : Position) : Eval Value :=
  match target, index with
  | .array id, .integer i => do
    let elements := (← get).elements id
    return if 0 ≤ i then elements[i.toNat]?.getD .nil else .nil
  | .string t, .integer i => do
    let bytes ← Eval.bytesOf t
    return if 0 ≤ i then (bytes[i.toNat]?.map fun b => .string (Utf8.ofBytes [b])).getD .nil
      else .nil
  | target, .integer _ => return .error ⟨.notIndexable target.kind, position⟩
  | _, index => return .error ⟨.indexKind index.kind, position⟩

end Script
