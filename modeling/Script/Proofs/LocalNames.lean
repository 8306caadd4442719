import Script.Program.Stmt

/-!
# Names in programs

The names that code contains, and code with its names replaced. A name is local to a body if the
body begins with its declaration. To rename it is to replace it in that declaration and in the rest
of the body, but not in the value that it is first given; this needs a name that the rest does not
contain. Names and parameters of functions are seen from outside and cannot be renamed.
-/

namespace Script

mutual

def Expr.names : Expr → List Name
  | .literal _ => []
  | .name name _ => [name]
  | .call callee arguments _ => callee :: listedNames arguments
  | .array elements => listedNames elements
  | .index target index _ => target.names ++ index.names
  | .unary _ operand _ => operand.names
  | .binary _ left right _ => left.names ++ right.names
termination_by structural e => e

def listedNames : List Expr → List Name
  | [] => []
  | e :: rest => e.names ++ listedNames rest
termination_by structural es => es

end

mutual

/-- The names in a statement, those of functions and parameters included. -/
def Stmt.names : Stmt → List Name
  | .block body => bodyNames body
  | .declare name value => name :: value.names
  | .assign name value _ => name :: value.names
  | .eval value => value.names
  | .branch condition body otherwise => condition.names ++ body.names ++ otherwise.names
  | .loop condition body => condition.names ++ body.names
  | .return_ none => []
  | .return_ (some value) => value.names
termination_by structural s => s

def Otherwise.names : Otherwise → List Name
  | .nothing => []
  | .stmt s => s.names
termination_by structural o => o

def Decl.names : Decl → List Name
  | .function name parameters body => name :: (parameters ++ bodyNames body)
  | .stmt s => s.names
termination_by structural d => d

def bodyNames : List Decl → List Name
  | [] => []
  | d :: rest => d.names ++ bodyNames rest
termination_by structural body => body

end

mutual

/-- The names and the parameters of the functions that are declared in a statement. -/
def Stmt.signatures : Stmt → List Name
  | .block body => bodySignatures body
  | .declare _ _ | .assign _ _ _ | .eval _ | .return_ _ => []
  | .branch _ body otherwise => body.signatures ++ otherwise.signatures
  | .loop _ body => body.signatures
termination_by structural s => s

def Otherwise.signatures : Otherwise → List Name
  | .nothing => []
  | .stmt s => s.signatures
termination_by structural o => o

def Decl.signatures : Decl → List Name
  | .function name parameters body => name :: (parameters ++ bodySignatures body)
  | .stmt s => s.signatures
termination_by structural d => d

def bodySignatures : List Decl → List Name
  | [] => []
  | d :: rest => d.signatures ++ bodySignatures rest
termination_by structural body => body

end

section Replacing
variable (σ : Name → Name)

mutual

def Expr.rename : Expr → Expr
  | .literal value => .literal value
  | .name name position => .name (σ name) position
  | .call callee arguments position => .call (σ callee) (renameListed arguments) position
  | .array elements => .array (renameListed elements)
  | .index target index position => .index target.rename index.rename position
  | .unary op operand position => .unary op operand.rename position
  | .binary op left right position => .binary op left.rename right.rename position
termination_by structural e => e

def renameListed : List Expr → List Expr
  | [] => []
  | e :: rest => e.rename :: renameListed rest
termination_by structural es => es

end

mutual

def Stmt.rename : Stmt → Stmt
  | .block body => .block (renameBody body)
  | .declare name value => .declare (σ name) (value.rename σ)
  | .assign name value position => .assign (σ name) (value.rename σ) position
  | .eval value => .eval (value.rename σ)
  | .branch condition body otherwise => .branch (condition.rename σ) body.rename otherwise.rename
  | .loop condition body => .loop (condition.rename σ) body.rename
  | .return_ none => .return_ none
  | .return_ (some value) => .return_ (some (value.rename σ))
termination_by structural s => s

def Otherwise.rename : Otherwise → Otherwise
  | .nothing => .nothing
  | .stmt s => .stmt s.rename
termination_by structural o => o

def Decl.rename : Decl → Decl
  | .function name parameters body => .function (σ name) (parameters.map σ) (renameBody body)
  | .stmt s => .stmt s.rename
termination_by structural d => d

def renameBody : List Decl → List Decl
  | [] => []
  | d :: rest => d.rename :: renameBody rest
termination_by structural body => body

end

end Replacing

mutual

theorem Expr.rename_id : ∀ e : Expr, e.rename id = e
  | .literal _ | .name _ _ => rfl
  | .call _ arguments _ => by simp only [Expr.rename, renameListed_id arguments, id]
  | .array elements => by simp only [Expr.rename, renameListed_id elements]
  | .index target index _ => by
      simp only [Expr.rename, Expr.rename_id target, Expr.rename_id index]
  | .unary _ operand _ => by simp only [Expr.rename, Expr.rename_id operand]
  | .binary _ left right _ => by
      simp only [Expr.rename, Expr.rename_id left, Expr.rename_id right]

theorem renameListed_id : ∀ es : List Expr, renameListed id es = es
  | [] => rfl
  | e :: rest => by rw [renameListed, Expr.rename_id e, renameListed_id rest]

end

mutual

theorem Stmt.rename_id : ∀ s : Stmt, s.rename id = s
  | .block body => by rw [Stmt.rename, renameBody_id body]
  | .declare _ value | .assign _ value _ | .eval value | .return_ (some value) => by
      simp only [Stmt.rename, value.rename_id, id]
  | .branch condition body otherwise => by
      rw [Stmt.rename, condition.rename_id, Stmt.rename_id body, Otherwise.rename_id otherwise]
  | .loop condition body => by rw [Stmt.rename, condition.rename_id, Stmt.rename_id body]
  | .return_ none => rfl

theorem Otherwise.rename_id : ∀ o : Otherwise, o.rename id = o
  | .nothing => rfl
  | .stmt s => by rw [Otherwise.rename, Stmt.rename_id s]

theorem Decl.rename_id : ∀ d : Decl, d.rename id = d
  | .function _ _ body => by simp only [Decl.rename, renameBody_id body, List.map_id, id]
  | .stmt s => by rw [Decl.rename, Stmt.rename_id s]

theorem renameBody_id : ∀ body : List Decl, renameBody id body = body
  | [] => rfl
  | d :: rest => by rw [renameBody, Decl.rename_id d, renameBody_id rest]

end

/-! ### Renaming a local name -/

def replaceName (x y name : Name) : Name :=
  if name = x then y else name

theorem replaceName_self (x y : Name) : replaceName x y x = y := if_pos rfl

theorem replaceName_of_ne {x name : Name} (y : Name) (h : name ≠ x) : replaceName x y name = name :=
  if_neg h

section
variable (x y : Name)

mutual

/-- Statements that differ in a local name of one body in them, which is `x` in the first and `y` in
the second. -/
inductive Stmt.Renamed : Stmt → Stmt → Prop
  | block {body body' : List Decl} : BodyRenamed body body' →
      Stmt.Renamed (.block body) (.block body')
  | branch (condition : Expr) {body body' : Stmt} (otherwise : Otherwise) :
      Stmt.Renamed body body' →
      Stmt.Renamed (.branch condition body otherwise) (.branch condition body' otherwise)
  | otherwise (condition : Expr) (body : Stmt) {s s' : Stmt} : Stmt.Renamed s s' →
      Stmt.Renamed (.branch condition body (.stmt s)) (.branch condition body (.stmt s'))
  | loop (condition : Expr) {body body' : Stmt} : Stmt.Renamed body body' →
      Stmt.Renamed (.loop condition body) (.loop condition body')

inductive Decl.Renamed : Decl → Decl → Prop
  | function (name : Name) (parameters : List Name) {body body' : List Decl} :
      BodyRenamed body body' →
      Decl.Renamed (.function name parameters body) (.function name parameters body')
  | stmt {s s' : Stmt} : Stmt.Renamed s s' → Decl.Renamed (.stmt s) (.stmt s')

/-- Bodies of functions, or blocks, that differ in a local name: their own, or one of a body in
them. -/
inductive BodyRenamed : List Decl → List Decl → Prop
  | here (value : Expr) {rest : List Decl} : y ∉ bodyNames rest → x ∉ bodySignatures rest →
      BodyRenamed (.stmt (.declare x value) :: rest)
        (.stmt (.declare y value) :: renameBody (replaceName x y) rest)
  | inside {body body' : List Decl} : ListedRenamed body body' → BodyRenamed body body'

/-- Lists of declarations that differ in a local name of a body in one of them. -/
inductive ListedRenamed : List Decl → List Decl → Prop
  | first {d d' : Decl} (rest : List Decl) : Decl.Renamed d d' →
      ListedRenamed (d :: rest) (d' :: rest)
  | later (d : Decl) {rest rest' : List Decl} : ListedRenamed rest rest' →
      ListedRenamed (d :: rest) (d :: rest')

end

/-- Programs that differ in a local name of a body in them. The declarations of a program itself
are global. -/
def Program.LocallyRenamed (program program' : Program) : Prop :=
  ListedRenamed x y program program'

end

end Script
