import Script.Program.Expr

/-!
# Statements and programs

Statements are executed one by one, and the arms of a branch and the body of a loop are statements
of any kind. In the programs that are read from sources all of these are blocks, but for the second
arm of a branch, which may also be another branch. A function is declared in a block, in the body of
a function or at the top of a program, and never in place of an arm.
-/

namespace Script

mutual

inductive Stmt where
  | block (body : List Decl)
  | declare (name : Name) (value : Expr)
  | assign (name : Name) (value : Expr) (position : Position)
  | eval (value : Expr)
  | branch (condition : Expr) (body : Stmt) (otherwise : Otherwise)
  | loop (condition : Expr) (body : Stmt)
  | return_ (value : Option Expr)
  deriving Repr

/-- What a branch does when its condition fails. -/
inductive Otherwise where
  | nothing
  | stmt (s : Stmt)
  deriving Repr

/-- What bodies and programs are lists of. -/
inductive Decl where
  | function (name : Name) (parameters : List Name) (body : List Decl)
  | stmt (s : Stmt)
  deriving Repr

end

instance : Inhabited Stmt := ⟨.block []⟩

instance : Inhabited Decl := ⟨.stmt default⟩

abbrev Program := List Decl

end Script
