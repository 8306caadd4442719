import Script.Proofs.Observer

/-!
# Operations that raise

A semantics of programs in which nothing is total by itself. Whatever has a domain raises a mishap
outside of it: a division by zero, an item that a list does not have, a key that a table does not
have, the contents of a value of another kind, a list of the wrong length. Returns and failures of
statements are raised as well. Before each of these operations stands the test that programs are
run with, and what may be raised on purpose is caught where it is.
-/

namespace Script

/-- What an operation raises outside of its domain. -/
inductive Mishap where
  | division
  | item
  | key
  | kind
  | length
  deriving Repr, DecidableEq

/-- What is raised: a mishap, what unwinds statements, or a halt. -/
inductive Raised where
  | mishap (mishap : Mishap)
  | returned (value : Value)
  | aborted (failure : Failure)
  | halted (reason : Halt)
  deriving Repr, DecidableEq

abbrev Raising := EStateM Raised Machine

namespace Raising
variable {α β : Type}

/-- A computation that raises nothing but halts. -/
def halting (x : Eval α) : Raising α := fun m =>
  match x m with
  | .ok a m => .ok a m
  | .error reason m => .error (.halted reason) m

def fail (mishap : Mishap) : Raising α := throw (.mishap mishap)

/-! ### Partial operations -/

def integerOf : Value → Raising Int
  | .integer n => return n
  | _ => fail .kind

def elementsOf : Value → Raising (Array Value)
  | .array id => return (← get).elements id
  | _ => fail .kind

def bytesOf : Value → Raising (List UInt8)
  | .string t => halting (Eval.bytesOf t)
  | _ => fail .kind

/-- The place of an index in a list. A negative index counts from the end. -/
def placeOf (i : Int) (size : Nat) : Raising Nat :=
  let place := if i < 0 then i + size else i
  if 0 ≤ place ∧ place < size then return place.toNat else fail .item

def itemOf (elements : Array Value) (i : Int) : Raising Value := do
  match elements[← placeOf i elements.size]? with
  | some value => return value
  | none => fail .item

def replaceItem (array : Value) (i : Int) (value : Value) : Raising Unit := do
  let place ← placeOf i (← elementsOf array).size
  match array with
  | .array id => modify fun m =>
    { m with arrays := m.arrays.modify id fun a => a.setIfInBounds place value }
  | _ => fail .kind

/-- The value of a name in the innermost scope that has it. -/
def lookup (name : Name) : Env → Raising Value
  | [] => fail .key
  | id :: env => do
    match ((← get).scopes.bindings id).get? name with
    | some value => return value
    | none => lookup name env

/-- Gives a name another value in the innermost scope that has it. -/
def replace (name : Name) (value : Value) : Env → Raising Unit
  | [] => fail .key
  | id :: env => do
    match ((← get).scopes.bindings id).get? name with
    | some _ => modify fun m => { m with scopes := m.scopes.define id name value }
    | none => replace name value env

/-- Goes on otherwise where a key is missing. -/
def orElse (x : Raising α) (missing : Raising α) : Raising α :=
  tryCatch x fun
    | .mishap .key => missing
    | other => throw other

def quotient (a b : Int) : Raising Int :=
  if b = 0 then fail .division else return a.tdiv b

def remainder (a b : Int) : Raising Int :=
  return a - b * (← quotient a b)

/-- The table of the operators on integers. Equality has no place in it. -/
def onIntegers : BinaryOp → Raising (Int → Int → Raising Value)
  | .equal | .unequal => fail .key
  | .less => return fun a b => return .boolean (a < b)
  | .lessEqual => return fun a b => return .boolean (a ≤ b)
  | .greater => return fun a b => return .boolean (a > b)
  | .greaterEqual => return fun a b => return .boolean (a ≥ b)
  | .add => return fun a b => return .integer (Integer64.wrap (a + b))
  | .sub => return fun a b => return .integer (Integer64.wrap (a - b))
  | .mul => return fun a b => return .integer (Integer64.wrap (a * b))
  | .div => return fun a b => return .integer (Integer64.wrap (← quotient a b))
  | .mod => return fun a b => return .integer (Integer64.wrap (← remainder a b))

def unpackOne : List Value → Raising Value
  | [a] => return a
  | _ => fail .length

def unpackTwo : List Value → Raising (Value × Value)
  | [a, b] => return (a, b)
  | _ => fail .length

def unpackThree : List Value → Raising (Value × Value × Value)
  | [a, b, c] => return (a, b, c)
  | _ => fail .length

def pairUp : List α → List β → Raising (List (α × β))
  | [], [] => return []
  | a :: as, b :: bs => return (a, b) :: (← pairUp as bs)
  | _, _ => fail .length

/-! ### Evaluation -/

def resolve (env : Env) (name : Name) (position : Position) : Raising Value :=
  orElse (lookup name env) <|
    match Builtin.ofName? name with
    | some b => return .builtin b
    | none => return .error ⟨.unboundName name, position⟩

def indexValue (target index : Value) (position : Position) : Raising Value := do
  if index.kind ≠ .integer then return .error ⟨.indexKind index.kind, position⟩
  else if target.kind = .array then
    let i ← integerOf index
    let elements ← elementsOf target
    if 0 ≤ i ∧ i < elements.size then itemOf elements i else return .nil
  else if target.kind = .string then
    let bytes ← bytesOf target
    let i ← integerOf index
    if 0 ≤ i ∧ i < bytes.length then
      return .string (Utf8.ofBytes ((bytes.drop i.toNat).take 1))
    else return .nil
  else return .error ⟨.notIndexable target.kind, position⟩

def applyUnary (op : UnaryOp) (value : Value) (position : Position) : Raising Value := do
  if op = .not then return .boolean !value.isTruthy
  else if value.kind = .integer then return .integer (Integer64.wrap (-(← integerOf value)))
  else return .error ⟨.notNegatable value.kind, position⟩

def applyBinary (op : BinaryOp) (left right : Value) (position : Position) : Raising Value := do
  if op = .equal then return .boolean (left = right)
  else if op = .unequal then return .boolean (left ≠ right)
  else if left.kind = .integer ∧ right.kind = .integer then
    let a ← integerOf left
    let b ← integerOf right
    if (op = .div ∨ op = .mod) ∧ b = 0 then return .error ⟨.divisionByZero, position⟩
    else (← onIntegers op) a b
  else if left.kind = .string ∧ right.kind = .string ∧ op = .add then
    return .string (Utf8.ofBytes ((← bytesOf left) ++ (← bytesOf right)))
  else return .error ⟨op.refuse left right, position⟩

/-- A function on one argument, by its kind. -/
def onSequence (b : Builtin) (value : Value) (onBytes : List UInt8 → Value)
    (onElements : Array Value → Raising Value) : Raising Value := do
  if value.kind = .string then return onBytes (← bytesOf value)
  else if value.kind = .array then onElements (← elementsOf value)
  else return .unplacedError (.unsupportedArgument b value.kind)

def callPush (container value : Value) : Raising Value := do
  if container.kind = .string then
    if value.kind = .string then
      return .string (Utf8.ofBytes ((← bytesOf container) ++ (← bytesOf value)))
    else return .unplacedError (.notPushable value.kind)
  else if container.kind = .array then
    halting (Eval.newArray ((← elementsOf container).push value))
  else return .unplacedError (.unsupportedArgument .push container.kind)

def callAlloc (count fill : Value) : Raising Value := do
  if count.kind ≠ .integer then return .unplacedError (.unsupportedArgument .alloc count.kind)
  else
    let n ← integerOf count
    if n < 0 then return .nil
    else if Builtin.tooLarge ≤ n.toNat then throw (.halted .memory)
    else halting (Eval.newArray (Array.replicate n.toNat fill))

def callSet (array index value : Value) : Raising Value := do
  if array.kind ≠ .array then return .unplacedError (.unsupportedArgument .set array.kind)
  else if index.kind ≠ .integer then
    return .unplacedError (.unsupportedIndexArgument .set index.kind)
  else
    let i ← integerOf index
    let size := (← elementsOf array).size
    if 0 ≤ i ∧ i < size then
      replaceItem array i value
      return .nil
    else return .unplacedError (.outOfRange i size)

/-- A call of a built-in function with the right number of arguments. -/
def perform (b : Builtin) (arguments : List Value) : Raising Value := do
  match b with
  | .len =>
    onSequence b (← unpackOne arguments) (fun bytes => .integer bytes.length) fun elements =>
      return .integer elements.size
  | .first =>
    onSequence b (← unpackOne arguments) (Builtin.ofBytesOrNil · (·.take 1)) fun elements =>
      if elements.isEmpty then return .nil else itemOf elements 0
  | .last =>
    onSequence b (← unpackOne arguments)
      (fun bytes => Builtin.ofBytesOrNil bytes fun bytes => bytes.drop (bytes.length - 1))
      fun elements => if elements.isEmpty then return .nil else itemOf elements (-1)
  | .rest =>
    onSequence b (← unpackOne arguments) (Builtin.ofBytesOrNil · (·.drop 1)) fun elements =>
      if elements.isEmpty then return .nil
      else halting (Eval.newArray (elements.extract 1 elements.size))
  | .push => do
    let (container, value) ← unpackTwo arguments
    callPush container value
  | .alloc => do
    let (count, fill) ← unpackTwo arguments
    callAlloc count fill
  | .set => do
    let (array, index, value) ← unpackThree arguments
    callSet array index value
  | .println => halting (Builtin.printEach [.lineFeed] arguments)
  | .print => halting (Builtin.printEach [] arguments)
  | .readln => halting (Builtin.takeInput .readln Input.readLine)
  | .read => halting (Builtin.takeInput .read Input.readWord)
  | .readc => halting (Builtin.takeInput .readc Input.readChar)
  | .readall => halting (Builtin.takeInput .readall Input.readAll)

def callBuiltin (b : Builtin) (arguments : List Value) : Raising Value :=
  match b.arity? with
  | none => perform b arguments
  | some expected =>
    if arguments.length ≠ expected then
      return .unplacedError (.builtinArity expected arguments.length)
    else perform b arguments

mutual

def evalExpr (call : CallerIn Raising) (env : Env) : Expr → Raising Value
  | .literal l => return l.value
  | .name name position => resolve env name position
  | .array elements =>
    onValues (evalAll call env elements) .error fun values =>
      halting (Eval.newArray values.toArray)
  | .call callee arguments position =>
    onValue (resolve env callee position) .error fun function =>
    onValues (evalAll call env arguments) .error fun values =>
    match function with
    | .builtin b => do
      let value ← callBuiltin b values
      halting (traceCall callee values value)
      return value
    | .function id => do
      let value ← call id values position
      halting (traceCall callee values value)
      return value
    | other => return .error ⟨.notAFunction other.kind, position⟩
  | .index target index position =>
    onValue (evalExpr call env target) .error fun target =>
    onValue (evalExpr call env index) .error fun index => indexValue target index position
  | .unary op operand position =>
    onValue (evalExpr call env operand) .error fun operand => do
      let value ← applyUnary op operand position
      halting (traceUnary op operand value)
      return value
  | .binary op left right position =>
    onValue (evalExpr call env left) .error fun left =>
    onValue (evalExpr call env right) .error fun right => do
      let value ← applyBinary op left right position
      halting (traceBinary op left right value)
      return value
termination_by structural e => e

def evalAll (call : CallerIn Raising) (env : Env) :
    List Expr → Raising (Except Failure (List Value))
  | [] => return .ok []
  | e :: rest =>
    onValue (evalExpr call env e) .error fun value =>
    onValues (evalAll call env rest) .error fun values => return .ok (value :: values)
termination_by structural es => es

end

/-- The value that a statement needs. A failure is raised. -/
def need (x : Raising Value) : Raising Value := do
  match ← x with
  | .error failure => throw (.aborted failure)
  | value => return value

def repeatWhile (condition : Raising Value) (body : Raising Unit) : Nat → Raising Unit
  | 0 => throw (.halted .exhausted)
  | rounds + 1 => do
    if (← need condition).isTruthy then
      body
      repeatWhile condition body rounds
    else return ()

def inBlock (env : Env) (run : Env → Raising Unit) : Raising Unit := do
  run (← halting (Eval.newScope (text "block") [] env))

mutual

def execStmt (call : CallerIn Raising) (rounds : Nat) (env : Env) : Stmt → Raising Unit
  | .block body => inBlock env fun env => execBody call rounds env body
  | .declare name value => do
    halting (Eval.define env name (← need (evalExpr call env value)))
  | .assign name value position => do
    let value ← need (evalExpr call env value)
    orElse (replace name value env) (throw (.aborted ⟨.unboundName name, position⟩))
  | .eval value => do
    let _ ← need (evalExpr call env value)
    return ()
  | .branch condition body otherwise => do
    if (← need (evalExpr call env condition)).isTruthy then execStmt call rounds env body
    else execOtherwise call rounds env otherwise
  | .loop condition body =>
    repeatWhile (evalExpr call env condition) (execStmt call rounds env body) rounds
  | .return_ none => throw (.returned .nil)
  | .return_ (some value) => do throw (.returned (← need (evalExpr call env value)))
termination_by structural s => s

def execOtherwise (call : CallerIn Raising) (rounds : Nat) (env : Env) :
    Otherwise → Raising Unit
  | .nothing => return ()
  | .stmt s => execStmt call rounds env s
termination_by structural o => o

def execDecl (call : CallerIn Raising) (rounds : Nat) (env : Env) : Decl → Raising Unit
  | .function name parameters body => do
    halting (Eval.define env name (← halting (Eval.newFunction name parameters body env)))
  | .stmt s => execStmt call rounds env s
termination_by structural d => d

def execBody (call : CallerIn Raising) (rounds : Nat) (env : Env) : List Decl → Raising Unit
  | [] => return ()
  | d :: rest => do
    execDecl call rounds env d
    execBody call rounds env rest
termination_by structural body => body

end

/-- The value of a call with a body: what is returned in it, the failure that aborts it, or nil. -/
def catching (body : Raising Unit) : Raising Value :=
  tryCatch
    (do
      body
      return .nil)
    fun
      | .returned value => return value
      | .aborted failure => return .error failure
      | other => throw other

def indented (body : Raising Unit) : Raising Unit := fun m =>
  match body { m with trace := m.trace.indent } with
  | .ok a m => .ok a { m with trace := m.trace.dedent }
  | .error raised m => .error raised { m with trace := m.trace.dedent }

def callFunction (rounds : Nat) : Nat → CallerIn Raising
  | 0 => fun _ _ _ => throw (.halted .recursion)
  | depth + 1 => fun id arguments position => do
    match ← halting (Eval.closure? id) with
    | none => return .nil
    | some f =>
      if arguments.length ≠ f.parameters.length then
        return .error ⟨.functionArity f.name f.parameters.length arguments.length, position⟩
      else
        let pairs ← pairUp f.parameters arguments
        let env ← halting (Eval.newScope f.name (Bindings.ofList pairs) f.env)
        catching (indented (execBody (callFunction rounds depth) rounds env f.body))

/-- Runs a program. Only failures are caught here. -/
def run (budget : Budget) (program : Program) : Raising (Option Failure) :=
  tryCatch
    (do
      execBody (callFunction budget.rounds budget.depth) budget.rounds Machine.globalEnv program
      return none)
    fun
      | .aborted failure => do
        halting (traceAbort failure)
        return some failure
      | other => throw other

end Raising

end Script
