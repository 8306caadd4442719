import Script.Integer64
import Script.Value.Failure

/-!
# Values

Arrays and functions are known by their numbers: two of them are the same value only if they were
made by the same step of the program. All other values are equal when their contents are. The
elements of an array belong to the state of the program and not to the value.
-/

namespace Script

/-- The number of an array, in the order in which arrays are made. -/
abbrev ArrayId := Nat

/-- The number of a function, in the order in which function declarations are executed. -/
abbrev FunctionId := Nat

inductive Value where
  | integer (value : Int)
  | boolean (value : Bool)
  | string (value : Text)
  | nil
  | array (id : ArrayId)
  | error (failure : Failure)
  | builtin (builtin : Builtin)
  | function (id : FunctionId)
  deriving Repr, DecidableEq

namespace Value

instance : Inhabited Value := ⟨nil⟩

def kind : Value → Kind
  | integer _ => .integer
  | boolean _ => .boolean
  | string _ => .string
  | nil => .nil
  | array _ => .array
  | error _ => .error
  | builtin _ => .builtin
  | function _ => .function

/-- Only `nil` and `false` count as false. -/
def isTruthy : Value → Bool
  | nil => false
  | boolean b => b
  | _ => true

def unplacedError (cause : Cause) : Value :=
  error (.unplaced cause)

end Value

/-- The value of a constant. Integers of any size are brought into range. -/
def Literal.value : Literal → Value
  | integer n => .integer (Integer64.wrap n)
  | string t => .string t
  | boolean b => .boolean b
  | nil => .nil

end Script
