import Script.Program.Stmt
import Script.Text.Quoted

/-!
# Rules on programs

Two rules go beyond the form of a program: the parameters of a function have different names, and
a return statement stands inside a function. The first violation in the order of the source is
reported, where the parameters of a function come before its body.
-/

namespace Script

inductive RuleError where
  | duplicateParameters (function : Name) (names : List Name)
  | strayReturn
  deriving Repr, DecidableEq

/-- Adds a name to an ordered list of names without repetition. -/
def Name.insert (name : Name) : List Name → List Name
  | [] => [name]
  | other :: rest =>
    if name = other then other :: rest
    else if name < other then name :: other :: rest
    else other :: Name.insert name rest

/-- The names that occur more than once, ordered by their code points. -/
def repeated : List Name → List Name
  | [] => []
  | name :: rest => if name ∈ rest then Name.insert name (repeated rest) else repeated rest

def RuleError.message : RuleError → Text
  | duplicateParameters function names =>
    text "duplicate parameter names in " ++ function ++ text ": [" ++
      Text.join (text ", ") (names.map Text.quoted) ++ text "]"
  | strayReturn => text "return is only allowed inside functions"

def checkParameters (function : Name) (parameters : List Name) : Except RuleError Unit :=
  match repeated parameters with
  | [] => .ok ()
  | names => .error (.duplicateParameters function names)

mutual

/-- Checks a statement that stands inside a function or not. -/
def Stmt.check (insideFunction : Bool) : Stmt → Except RuleError Unit
  | .block body => checkBody insideFunction body
  | .branch _ body otherwise => do
    body.check insideFunction
    otherwise.check insideFunction
  | .loop _ body => body.check insideFunction
  | .return_ _ => if insideFunction then .ok () else .error .strayReturn
  | .declare _ _ | .assign _ _ _ | .eval _ => .ok ()
termination_by structural s => s

def Otherwise.check (insideFunction : Bool) : Otherwise → Except RuleError Unit
  | .nothing => .ok ()
  | .stmt s => s.check insideFunction
termination_by structural o => o

def Decl.check (insideFunction : Bool) : Decl → Except RuleError Unit
  | .function name parameters body => do
    checkParameters name parameters
    checkBody true body
  | .stmt s => s.check insideFunction
termination_by structural d => d

def checkBody (insideFunction : Bool) : List Decl → Except RuleError Unit
  | [] => .ok ()
  | d :: rest => do
    d.check insideFunction
    checkBody insideFunction rest
termination_by structural body => body

end

def Program.check (program : Program) : Except RuleError Unit :=
  checkBody false program

end Script
