import Script.Input
import Script.Program.Stmt
import Script.Scope
import Script.Text.Utf8
import Script.Trace

/-!
# The state of a running program

A machine holds everything that a program can see or change: its scopes, functions and arrays, the
input that is left, and what has been printed and traced. Programs run in the monad `Eval`, which
passes a machine along and may halt. A halt is no failure of the program: no statement can catch
it, and what was done before it stays done.
-/

namespace Script

/-- A function with the environment in which its declaration was executed. -/
structure Closure where
  name : Name
  parameters : List Name
  body : List Decl
  env : Env
  deriving Repr

structure Machine where
  scopes : Scopes
  functions : Array Closure
  arrays : Array (Array Value)
  input : Input
  output : Array CodePoint
  trace : Trace
  deriving Repr

/-- Why a run stops altogether: a string has no bytes, calls or arrays are nested without end, an
array is too large, the input breaks for good, a `return` stands outside every function, or a loop
takes more rounds than the run may spend. -/
inductive Halt where
  | unencodable (reason : Utf8.Unencodable)
  | recursion
  | memory
  | brokenInput (message : Text)
  | strayReturn
  | exhausted
  deriving Repr, DecidableEq

abbrev Eval := EStateM Halt Machine

namespace Machine

/-- The scope that every program starts in. -/
def globalScope : ScopeId := 0

def globalEnv : Env := [globalScope]

def initial (input : Input) (trace : Trace) : Machine where
  scopes := #[⟨text "global", []⟩]
  functions := #[]
  arrays := #[]
  input := input
  output := #[]
  trace := trace

def elements (m : Machine) (id : ArrayId) : Array Value :=
  (m.arrays[id]?).getD #[]

end Machine

namespace Eval

def ofExcept : Except Halt α → Eval α
  | .ok a => pure a
  | .error halt => throw halt

def bytesOf (t : Text) : Eval (List UInt8) :=
  ofExcept ((Utf8.toBytes t).mapError .unencodable)

def newArray (elements : Array Value) : Eval Value :=
  modifyGet fun m => (.array m.arrays.size, { m with arrays := m.arrays.push elements })

def newScope (name : Name) (bindings : Bindings) (env : Env) : Eval Env :=
  modifyGet fun m =>
    let (id, scopes) := m.scopes.make name bindings
    (id :: env, { m with scopes })

def define (env : Env) (name : Name) (value : Value) : Eval Unit :=
  match env with
  | [] => pure ()
  | id :: _ => modify fun m => { m with scopes := m.scopes.define id name value }

/-- Gives a bound name another value, and says whether the name was bound. -/
def assign (env : Env) (name : Name) (value : Value) : Eval Bool :=
  modifyGet fun m =>
    match m.scopes.find? name env with
    | some id => (true, { m with scopes := m.scopes.define id name value })
    | none => (false, m)

def newFunction (name : Name) (parameters : List Name) (body : List Decl) (env : Env) :
    Eval Value :=
  modifyGet fun m =>
    (.function m.functions.size,
      { m with functions := m.functions.push ⟨name, parameters, body, env⟩ })

def closure? (id : FunctionId) : Eval (Option Closure) :=
  return (← get).functions[id]?

def print (t : Text) : Eval Unit :=
  modify fun m => { m with output := m.output ++ t }

def traceLine (t : Text) : Eval Unit :=
  modify fun m => { m with trace := m.trace.writeLine t }

/-- Runs a computation with the trace indented by one more step, whatever it ends with. -/
def indented (body : Eval α) : Eval α := fun m =>
  match body { m with trace := m.trace.indent } with
  | .ok a m => .ok a { m with trace := m.trace.dedent }
  | .error halt m => .error halt { m with trace := m.trace.dedent }

end Eval

end Script
