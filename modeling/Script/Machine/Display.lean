import Script.Machine.Basic
import Script.Text.Quoted

/-!
# Displaying values

The readable form of a value is what programs print and what traces show. An array shows its
elements, so an array that contains itself has no readable form: when more arrays are open than
exist, some array must be open twice.
-/

namespace Script

namespace Closure

/-- The head of the declaration of a function. -/
def display (f : Closure) : Text :=
  text "fun " ++ f.name ++ text "(" ++ Text.join (text ", ") f.parameters ++ text ")"

end Closure

namespace Machine

def displayAtom (m : Machine) : Value → Except Halt Text
  | .integer n => .ok (Text.ofInt n)
  | .boolean b => .ok (if b then text "true" else text "false")
  | .string t => (Utf8.display t).mapError .unencodable
  | .nil => .ok (text "nil")
  | .array _ => .error .recursion
  | .error failure => .ok failure.display
  | .builtin b => .ok (text "<builtin " ++ b.name ++ text ">")
  | .function id => .ok ((m.functions[id]?.map Closure.display).getD [])

/-- The readable form of a value in which at most `depth` arrays are nested. -/
def displayWithin (m : Machine) : Nat → Value → Except Halt Text
  | 0, value => m.displayAtom value
  | depth + 1, .array id => do
    let shown ← (m.elements id).toList.mapM (m.displayWithin depth)
    return text "[" ++ Text.join (text ", ") shown ++ text "]"
  | _ + 1, value => m.displayAtom value

def display (m : Machine) (value : Value) : Except Halt Text :=
  m.displayWithin m.arrays.size value

/-- The structure of a value that is no array, for readers of the program's state. -/
def describeAtom (m : Machine) : Value → Text
  | .integer n => text "Integer(value=" ++ Text.ofInt n ++ text ")"
  | .boolean b =>
    text "Boolean(value=" ++ (if b then text "True" else text "False") ++ text ")"
  | .string t => text "String(value=" ++ t.quoted ++ text ")"
  | .nil => text "NIL"
  | .array _ => text "..."
  | .error failure =>
    text "Error(message=" ++ failure.message.quoted ++ text ", position=Position(line=" ++
      Text.ofNat failure.position.line ++ text ", column=" ++
      Text.ofNat failure.position.column ++ text "))"
  | .builtin b =>
    text "Builtin(name=" ++ b.name.quoted ++ text ", traced=" ++
      (if b.isReader then text "True" else text "False") ++ text ")"
  | .function id => (m.functions[id]?.map Closure.display).getD []

/-- The structure of a value, with an ellipsis where more than `depth` arrays are nested. -/
def describeWithin (m : Machine) : Nat → Value → Text
  | depth + 1, .array id =>
    let shown := (m.elements id).toList.map (m.describeWithin depth)
    text "Array(elements=[" ++ Text.join (text ", ") shown ++ text "])"
  | _, value => m.describeAtom value

def describe (m : Machine) (value : Value) : Text :=
  m.describeWithin m.arrays.size value

def describeBinding (m : Machine) : Name × Value → Text
  | (name, value) => text "(" ++ name.quoted ++ text ", " ++ m.describe value ++ text ")"

/-- The scopes of an environment from the innermost to the outermost, each with its bindings in
front of its name. -/
def describeEnv (m : Machine) (env : Env) : Text :=
  Text.join (text " -> ") <| (m.scopes.chain env).map fun scope =>
    text "[" ++ Text.join (text ", ") (scope.bindings.map m.describeBinding) ++ text "]:" ++
      scope.name

end Machine

namespace Eval

def display (value : Value) : Eval Text := do
  ofExcept ((← get).display value)

/-- The readable forms of several values, with commas between them. -/
def displayAll (values : List Value) : Eval Text :=
  return Text.join (text ", ") (← values.mapM display)

end Eval

end Script
