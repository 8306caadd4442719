import Script.Text.CodePoint

/-!
# Kinds of values and the built-in functions
-/

namespace Script

inductive Kind where
  | integer | boolean | string | array | nil | error | builtin | function
  deriving Repr, DecidableEq

def Kind.label : Kind → Text
  | integer => text "INTEGER"
  | boolean => text "BOOLEAN"
  | string => text "STRING"
  | array => text "ARRAY"
  | nil => text "NIL"
  | error => text "ERROR"
  | builtin => text "BUILTIN"
  | function => text "FUNCTION"

/-- The functions that every program can use without declaring them. -/
inductive Builtin where
  | len | first | last | rest | push
  | alloc | set
  | println | print
  | readln | read | readc | readall
  deriving Repr, DecidableEq

namespace Builtin

def all : List Builtin :=
  [len, first, last, rest, push, alloc, set, println, print, readln, read, readc, readall]

theorem mem_all (b : Builtin) : b ∈ all := by
  cases b <;> decide

def name : Builtin → Text
  | len => text "len"
  | first => text "first"
  | last => text "last"
  | rest => text "rest"
  | push => text "push"
  | alloc => text "alloc"
  | set => text "set"
  | println => text "println"
  | print => text "print"
  | readln => text "readln"
  | read => text "read"
  | readc => text "readc"
  | readall => text "readall"

def ofName? (n : Text) : Option Builtin :=
  all.find? fun b => b.name == n

/-- The number of arguments, for the functions that do not take any number of them. -/
def arity? : Builtin → Option Nat
  | len | first | last | rest => some 1
  | push | alloc => some 2
  | set => some 3
  | println | print => none
  | readln | read | readc | readall => some 0

/-- The functions that take from the input. -/
def isReader : Builtin → Bool
  | readln | read | readc | readall => true
  | _ => false

end Builtin

end Script
