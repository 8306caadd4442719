import Script.Program.Expr
import Script.Value.Kind

/-!
# Failures

A failure is a cause together with the position of the expression it arose in. Failures of built-in
functions have no position of their own. A failure is an ordinary value until a statement meets it.
-/

namespace Script

inductive Cause where
  | unboundName (name : Name)
  | notAFunction (kind : Kind)
  | functionArity (function : Name) (expected got : Nat)
  | builtinArity (expected got : Nat)
  | unsupportedArgument (builtin : Builtin) (kind : Kind)
  | unsupportedIndexArgument (builtin : Builtin) (kind : Kind)
  | notPushable (kind : Kind)
  | outOfRange (index : Int) (length : Nat)
  | indexKind (kind : Kind)
  | notIndexable (kind : Kind)
  | notNegatable (kind : Kind)
  | mixedOperands (op : BinaryOp) (left right : Kind)
  | unsupportedOperands (op : BinaryOp) (left right : Kind)
  | divisionByZero
  | custom (message : Text)
  deriving Repr, DecidableEq

def Cause.message : Cause → Text
  | unboundName name => text "identifier not found: " ++ name
  | notAFunction kind => text "not a function: " ++ kind.label
  | functionArity function expected got =>
    text "wrong number of arguments for " ++ function ++ text ": expected " ++
      Text.ofNat expected ++ text ", got " ++ Text.ofNat got
  | builtinArity expected got =>
    text "wrong number of arguments. got '" ++ Text.ofNat got ++ text "', expected '" ++
      Text.ofNat expected ++ text "'"
  | unsupportedArgument builtin kind =>
    text "argument to '" ++ builtin.name ++ text "' not supported, got '" ++ kind.label ++ text "'"
  | unsupportedIndexArgument builtin kind =>
    text "second argument to '" ++ builtin.name ++ text "' not supported, got '" ++ kind.label ++
      text "'"
  | notPushable kind => text "cannot push '" ++ kind.label ++ text "' to string"
  | outOfRange index length =>
    text "index out of range. got '" ++ Text.ofInt index ++ text "', length '" ++
      Text.ofNat length ++ text "'"
  | indexKind kind => text "index must be an INTEGER, got " ++ kind.label
  | notIndexable kind => text "index operator not supported: " ++ kind.label
  | notNegatable kind => text "unknown operator: -" ++ kind.label
  | mixedOperands op left right =>
    text "type mismatch: " ++ left.label ++ text " " ++ op.spelling ++ text " " ++ right.label
  | unsupportedOperands op left right =>
    text "unknown operator: " ++ left.label ++ text " " ++ op.spelling ++ text " " ++ right.label
  | divisionByZero => text "division by zero"
  | custom message => message

structure Failure where
  cause : Cause
  position : Position
  deriving Repr, DecidableEq

namespace Failure

def unplaced (cause : Cause) : Failure := ⟨cause, .nowhere⟩

def message (f : Failure) : Text :=
  f.cause.message

/-- The message behind its position, if it has one. -/
def display (f : Failure) : Text :=
  if f.position = .nowhere then f.message else f.position.display ++ text ": " ++ f.message

end Failure

end Script
