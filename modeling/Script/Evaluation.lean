import Script.Builtin.Call
import Script.Operators

/-!
# Evaluation

Expressions evaluate to values and statements end with a completion. A failure is a value like any
other inside an expression, where every construct looks for it and gives it on; at the level of
statements it aborts the function that is being executed, or the program. Both kinds of evaluation
recurse on what they evaluate. What is not part of it, the body of a called function and the next
round of a loop, is reached through two budgets: the number of calls that may be nested, and the
number of rounds that one loop may take.

Every call and every operator writes a line with its operands and its result to the trace once it is
done. The readable forms are made even if the trace is off, so a value that has none halts the run.
-/

namespace Script

/-- How a statement ends: the next one follows, the function returns, or a failure aborts it. -/
inductive Completion where
  | normal
  | returned (value : Value)
  | aborted (failure : Failure)
  deriving Repr, DecidableEq

/-- What a name means: the value it is bound to, or else the built-in function of that name. -/
def resolve (env : Env) (name : Name) (position : Position) : Eval Value := do
  match (← get).scopes.lookup? env name with
  | some value => return value
  | none =>
    match Builtin.ofName? name with
    | some b => return .builtin b
    | none => return .error ⟨.unboundName name, position⟩

/-- Goes on with the value of a computation. A failure is not gone on with; the result is then what
`fail` makes of it. -/
@[inline] def onValue [Monad m] (x : m Value) (fail : Failure → α) (next : Value → m α) : m α := do
  match ← x with
  | .error failure => return fail failure
  | value => next value

@[inline] def onValues [Monad m] (x : m (Except Failure (List Value))) (fail : Failure → α)
    (next : List Value → m α) : m α := do
  match ← x with
  | .error failure => return fail failure
  | .ok values => next values

def callLine (callee : Name) (arguments result : Text) : Text :=
  text "[" ++ callee ++ text "(" ++ arguments ++ text ") => " ++ result ++ text "]"

def unaryLine (op : UnaryOp) (operand result : Text) : Text :=
  text "[" ++ op.spelling ++ text "(" ++ operand ++ text ") => " ++ result ++ text "]"

def binaryLine (op : BinaryOp) (left right result : Text) : Text :=
  text "[(" ++ left ++ text ") " ++ op.spelling ++ text " (" ++ right ++ text ") => " ++ result ++
    text "]"

def traceCall (callee : Name) (arguments : List Value) (value : Value) : Eval Unit := do
  let shown ← Eval.displayAll arguments
  let result ← Eval.display value
  Eval.traceLine (callLine callee shown result)

def traceUnary (op : UnaryOp) (operand value : Value) : Eval Unit := do
  let shown ← Eval.display operand
  let result ← Eval.display value
  Eval.traceLine (unaryLine op shown result)

def traceBinary (op : BinaryOp) (left right value : Value) : Eval Unit := do
  let shownLeft ← Eval.display left
  let shownRight ← Eval.display right
  let result ← Eval.display value
  Eval.traceLine (binaryLine op shownLeft shownRight result)

def tracedCall (callee : Name) (arguments : List Value) (run : Eval Value) : Eval Value := do
  let value ← run
  traceCall callee arguments value
  return value

def tracedUnary (op : UnaryOp) (operand : Value) (position : Position) : Eval Value := do
  let value := op.apply operand position
  traceUnary op operand value
  return value

def tracedBinary (op : BinaryOp) (left right : Value) (position : Position) : Eval Value := do
  let value ← op.apply left right position
  traceBinary op left right value
  return value

abbrev Caller := FunctionId → List Value → Position → Eval Value

mutual

/-- The value of an expression, or a failure as a value. -/
def evalExpr (call : Caller) (env : Env) : Expr → Eval Value
  | .literal l => return l.value
  | .name name position => resolve env name position
  | .array elements =>
    onValues (evalAll call env elements) .error fun values => Eval.newArray values.toArray
  | .call callee arguments position =>
    onValue (resolve env callee position) .error fun function =>
    onValues (evalAll call env arguments) .error fun values =>
    match function with
    | .builtin b => tracedCall callee values (b.call values)
    | .function id => tracedCall callee values (call id values position)
    | other => return .error ⟨.notAFunction other.kind, position⟩
  | .index target index position =>
    onValue (evalExpr call env target) .error fun target =>
    onValue (evalExpr call env index) .error fun index => indexValue target index position
  | .unary op operand position =>
    onValue (evalExpr call env operand) .error fun operand => tracedUnary op operand position
  | .binary op left right position =>
    onValue (evalExpr call env left) .error fun left =>
    onValue (evalExpr call env right) .error fun right => tracedBinary op left right position
termination_by structural e => e

/-- The values of several expressions from the first to the last, or the first failure. -/
def evalAll (call : Caller) (env : Env) : List Expr → Eval (Except Failure (List Value))
  | [] => return .ok []
  | e :: rest =>
    onValue (evalExpr call env e) .error fun value =>
    onValues (evalAll call env rest) .error fun values => return .ok (value :: values)
termination_by structural es => es

end

/-- Repeats a body as long as a condition holds, for fewer rounds than the budget. -/
def repeatWhile (condition : Eval Value) (body : Eval Completion) : Nat → Eval Completion
  | 0 => throw .exhausted
  | rounds + 1 =>
    onValue condition .aborted fun value => do
      if value.isTruthy then
        match ← body with
        | .normal => repeatWhile condition body rounds
        | completion => return completion
      else return .normal

@[inline] def inBlock (env : Env) (run : Env → Eval α) : Eval α := do
  run (← Eval.newScope (text "block") [] env)

mutual

/-- Executes a statement. A block has a scope of its own; an arm of a branch and the body of a loop
are executed where the statement stands. -/
def execStmt (call : Caller) (rounds : Nat) (env : Env) : Stmt → Eval Completion
  | .block body => inBlock env fun env => execBody call rounds env body
  | .declare name value =>
    onValue (evalExpr call env value) .aborted fun value => do
      Eval.define env name value
      return .normal
  | .assign name value position =>
    onValue (evalExpr call env value) .aborted fun value => do
      if ← Eval.assign env name value then return .normal
      else return .aborted ⟨.unboundName name, position⟩
  | .eval value => onValue (evalExpr call env value) .aborted fun _ => return .normal
  | .branch condition body otherwise =>
    onValue (evalExpr call env condition) .aborted fun value =>
      if value.isTruthy then execStmt call rounds env body
      else execOtherwise call rounds env otherwise
  | .loop condition body =>
    repeatWhile (evalExpr call env condition) (execStmt call rounds env body) rounds
  | .return_ none => return .returned .nil
  | .return_ (some value) =>
    onValue (evalExpr call env value) .aborted fun value => return .returned value
termination_by structural s => s

def execOtherwise (call : Caller) (rounds : Nat) (env : Env) : Otherwise → Eval Completion
  | .nothing => return .normal
  | .stmt s => execStmt call rounds env s
termination_by structural o => o

def execDecl (call : Caller) (rounds : Nat) (env : Env) : Decl → Eval Completion
  | .function name parameters body => do
    Eval.define env name (← Eval.newFunction name parameters body env)
    return .normal
  | .stmt s => execStmt call rounds env s
termination_by structural d => d

/-- Executes a body up to its end or to the first part that does not end normally. -/
def execBody (call : Caller) (rounds : Nat) (env : Env) : List Decl → Eval Completion
  | [] => return .normal
  | d :: rest => do
    match ← execDecl call rounds env d with
    | .normal => execBody call rounds env rest
    | completion => return completion
termination_by structural body => body

end

/-- Calls a function with its arguments bound in a new scope, which is also the scope of its body.
The call has the value that the body returns, or nil. -/
def callFunction (rounds : Nat) : Nat → Caller
  | 0 => fun _ _ _ => throw .recursion
  | depth + 1 => fun id arguments position => do
    match ← Eval.closure? id with
    | none => return .nil
    | some f =>
      if arguments.length = f.parameters.length then
        let bindings := Bindings.ofList (f.parameters.zip arguments)
        let env ← Eval.newScope f.name bindings f.env
        match ← Eval.indented (execBody (callFunction rounds depth) rounds env f.body) with
        | .normal => return .nil
        | .returned value => return value
        | .aborted failure => return .error failure
      else return .error ⟨.functionArity f.name f.parameters.length arguments.length, position⟩

end Script
