import Script.Machine.Display

/-!
# Built-in functions

A call first checks the number of arguments, then their kinds, and only then does anything. Strings
are measured and cut as bytes. Arrays are never changed but by `set`; `rest`, `push` and `alloc`
make new ones that hold the same elements. Readers always give a string: a fault of the input that
can be recovered from is traced, and what was read before it is the result.
-/

namespace Script.Builtin

/-- A count from which on an array does not fit into memory: `2^60`. -/
def tooLarge : Nat := 0x1000000000000000

/-- The string of some bytes, or nil if there are none. -/
def ofBytesOrNil (bytes : List UInt8) (part : List UInt8 → List UInt8) : Value :=
  if bytes.isEmpty then .nil else .string (Utf8.ofBytes (part bytes))

def callLen : Value → Eval Value
  | .string t => return .integer (← Eval.bytesOf t).length
  | .array id => return .integer ((← get).elements id).size
  | value => return .unplacedError (.unsupportedArgument len value.kind)

def callFirst : Value → Eval Value
  | .string t => return ofBytesOrNil (← Eval.bytesOf t) (·.take 1)
  | .array id => return ((← get).elements id)[0]?.getD .nil
  | value => return .unplacedError (.unsupportedArgument first value.kind)

def callLast : Value → Eval Value
  | .string t => return ofBytesOrNil (← Eval.bytesOf t) fun bytes => bytes.drop (bytes.length - 1)
  | .array id => return ((← get).elements id).back?.getD .nil
  | value => return .unplacedError (.unsupportedArgument last value.kind)

def callRest : Value → Eval Value
  | .string t => return ofBytesOrNil (← Eval.bytesOf t) (·.drop 1)
  | .array id => do
    let elements := (← get).elements id
    if elements.isEmpty then return .nil else Eval.newArray (elements.extract 1 elements.size)
  | value => return .unplacedError (.unsupportedArgument rest value.kind)

def callPush : Value → Value → Eval Value
  | .string t, .string u => return .string (Utf8.ofBytes ((← Eval.bytesOf t) ++ (← Eval.bytesOf u)))
  | .string _, value => return .unplacedError (.notPushable value.kind)
  | .array id, value => do Eval.newArray (((← get).elements id).push value)
  | container, _ => return .unplacedError (.unsupportedArgument push container.kind)

/-- A call of `alloc`: all elements of the new array are the same value. -/
def callAlloc : Value → Value → Eval Value
  | .integer n, fill =>
    if n < 0 then return .nil
    else if tooLarge ≤ n.toNat then throw .memory
    else Eval.newArray (Array.replicate n.toNat fill)
  | count, _ => return .unplacedError (.unsupportedArgument alloc count.kind)

def callSet : Value → Value → Value → Eval Value
  | .array id, .integer i, value => do
    let size := ((← get).elements id).size
    if 0 ≤ i ∧ i < size then
      modify fun m => { m with arrays := m.arrays.modify id fun a => a.setIfInBounds i.toNat value }
      return .nil
    else return .unplacedError (.outOfRange i size)
  | .array _, index, _ => return .unplacedError (.unsupportedIndexArgument set index.kind)
  | container, _, _ => return .unplacedError (.unsupportedArgument set container.kind)

/-- Prints the readable forms of values one by one, with `ending` behind each. -/
def printEach (ending : Text) : List Value → Eval Value
  | [] => return .nil
  | value :: others => do
    Eval.print ((← Eval.display value) ++ ending)
    printEach ending others

def faultLine (b : Builtin) (fault : InputFault) : Text :=
  text "[" ++ b.name ++ text " failed: " ++ fault.message ++ text "]"

/-- Takes from the input what a reader reads. -/
def takeInput (b : Builtin) (read : Input → Reading) : Eval Value := do
  let reading := read (← get).input
  modify fun m => { m with input := m.input.leave reading }
  match reading.fault with
  | none => pure ()
  | some fault =>
    if fault.recoverable then
      Eval.traceLine (b.faultLine fault)
    else throw (.brokenInput fault.message)
  return .string reading.result

/-- A call with the right number of arguments. -/
def perform : Builtin → List Value → Eval Value
  | len, [value] => callLen value
  | first, [value] => callFirst value
  | last, [value] => callLast value
  | rest, [value] => callRest value
  | push, [container, value] => callPush container value
  | alloc, [count, fill] => callAlloc count fill
  | set, [array, index, value] => callSet array index value
  | println, values => printEach [.lineFeed] values
  | print, values => printEach [] values
  | readln, [] => takeInput readln Input.readLine
  | read, [] => takeInput read Input.readWord
  | readc, [] => takeInput readc Input.readChar
  | readall, [] => takeInput readall Input.readAll
  | _, _ => return .nil

def call (b : Builtin) (arguments : List Value) : Eval Value :=
  match b.arity? with
  | none => b.perform arguments
  | some expected =>
    if arguments.length = expected then b.perform arguments
    else return .unplacedError (.builtinArity expected arguments.length)

end Script.Builtin
