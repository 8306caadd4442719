import Script.Proofs.ReservedWords
import Script.Proofs.TokenReading

/-!
# Where programs can fail

The nodes of a program are the places at which its run can fail: names, calls, indices, operators
and assignments, each with the position that its failures name. A position is in a source if it is
that behind some text at the front of the source, and the tokens that are read of a source stand at
such positions.
-/

namespace Script

/-- A place in a program at which a run can fail. -/
inductive Node where
  | name (name : Name) (position : Position)
  | call (callee : Name) (position : Position)
  | index (position : Position)
  | unary (op : UnaryOp) (position : Position)
  | binary (op : BinaryOp) (position : Position)
  | assign (name : Name) (position : Position)
  deriving Repr, DecidableEq

namespace Node

def position : Node → Position
  | name _ p | call _ p | index p | unary _ p | binary _ p | assign _ p => p

/-- The name that a node begins with, if it must begin with one. -/
def name? : Node → Option Name
  | name n _ | call n _ | assign n _ => some n
  | index _ | unary _ _ | binary _ _ => none

end Node

mutual

def Expr.nodes : Expr → List Node
  | .literal _ => []
  | .name name position => [.name name position]
  | .call callee arguments position => .call callee position :: listedNodes arguments
  | .array elements => listedNodes elements
  | .index target index position => .index position :: (target.nodes ++ index.nodes)
  | .unary op operand position => .unary op position :: operand.nodes
  | .binary op left right position => .binary op position :: (left.nodes ++ right.nodes)
termination_by structural e => e

def listedNodes : List Expr → List Node
  | [] => []
  | e :: rest => e.nodes ++ listedNodes rest
termination_by structural es => es

end

mutual

/-- The nodes of a statement, those in the bodies of its functions included. -/
def Stmt.nodes : Stmt → List Node
  | .block body => bodyNodes body
  | .declare _ value => value.nodes
  | .assign name value position => .assign name position :: value.nodes
  | .eval value => value.nodes
  | .branch condition body otherwise => condition.nodes ++ body.nodes ++ otherwise.nodes
  | .loop condition body => condition.nodes ++ body.nodes
  | .return_ none => []
  | .return_ (some value) => value.nodes
termination_by structural s => s

def Otherwise.nodes : Otherwise → List Node
  | .nothing => []
  | .stmt s => s.nodes
termination_by structural o => o

def Decl.nodes : Decl → List Node
  | .function _ _ body => bodyNodes body
  | .stmt s => s.nodes
termination_by structural d => d

def bodyNodes : List Decl → List Node
  | [] => []
  | d :: rest => d.nodes ++ bodyNodes rest
termination_by structural body => body

end

theorem listedNodes_append (es es' : List Expr) :
    listedNodes (es ++ es') = listedNodes es ++ listedNodes es' := by
  induction es with
  | nil => rfl
  | cons e es ih => rw [List.cons_append, listedNodes, listedNodes, ih, List.append_assoc]

theorem bodyNodes_append (body body' : List Decl) :
    bodyNodes (body ++ body') = bodyNodes body ++ bodyNodes body' := by
  induction body with
  | nil => rfl
  | cons d body ih =>
      rw [List.cons_append, bodyNodes, bodyNodes, ih, List.append_assoc]

/-! ### Positions in a source -/

/-- A position of a source, at which a name is written out in full if one is asked for. -/
def Position.IsIn (source : Text) (name? : Option Name) (p : Position) : Prop :=
  ∃ before behind, source = before ++ behind ∧ p = Position.start.afterText before ∧
    ∀ n ∈ name?, ∃ rest, behind = n ++ rest ∧ Terminal.name.spells n ∧ IsWordEnd rest

theorem Position.IsIn.one_le {source : Text} {name? : Option Name} {p : Position}
    (h : p.IsIn source name?) : 1 ≤ p.line ∧ 1 ≤ p.column := by
  obtain ⟨before, -, -, rfl, -⟩ := h
  rw [start_afterText]
  exact ⟨Nat.le_add_left 1 _, Nat.le_add_left 1 _⟩

theorem isWordEnd_of_lookup? {mayCome : Terminal → Bool} {w rest : Text}
    (h : lookup? mayCome (w ++ rest) = some (.name, w)) : IsWordEnd rest := by
  have ends {mayCome : Terminal → Bool} (found : lexeme? mayCome (w ++ rest) = some (.name, w)) :
      IsWordEnd rest := by
    obtain ⟨c, more, same, -, whole, -⟩ := exists_of_lexeme?_name found
    have behind : rest = more.dropWhile CodePoint.isNamePart := by
      rw [whole, List.cons_append] at same
      have split : more.takeWhile CodePoint.isNamePart ++ rest = more := (List.cons.inj same).2
      exact List.append_cancel_left (split.trans List.takeWhile_append_dropWhile.symm)
    have other := List.head?_dropWhile_not CodePoint.isNamePart more
    rw [← behind] at other
    intro d first
    rw [Option.mem_def.mp first] at other
    simp [show d.isNamePart = false from other]
  obtain found | ⟨-, found⟩ := Option.or_eq_some_iff.mp h
  · exact ends found
  · exact ends found

/-- Every token that is read is found in the source, at its position. -/
theorem Unfinished.Reads.found [CharacterNames] {s t : Unfinished} {place : Cursor}
    {tokens : List Token} (h : s.Reads place tokens t) {source before : Text}
    (same : source = before ++ place.rest)
    (here : place.position = Position.start.afterText before) :
    ∀ token ∈ tokens, ∃ front behind, source = front ++ (token.lexeme ++ behind) ∧
      token.position = Position.start.afterText front ∧
      ∃ mayCome, lookup? mayCome (token.lexeme ++ behind) =
        some (token.terminal, token.lexeme) := by
  induction h generalizing before with
  | done _ => nofun
  | @token _ _ _ place next token tokens found _ _ ih =>
      obtain ⟨gap, -, rest, -, position, looked, behind⟩ := Cursor.next_eq_token_iff.mp found
      have split : source = before ++ gap ++ (token.lexeme ++ next.rest) := by
        rw [same, rest, List.append_assoc]
      have stands : token.position = Position.start.afterText (before ++ gap) := by
        rw [position, here, Position.afterText_append]
      refine List.forall_mem_cons.mpr ⟨⟨_, _, split, stands, _, looked⟩, ?_⟩
      refine @ih (before ++ gap ++ token.lexeme) ?_ ?_
      · rw [split, List.append_assoc _ token.lexeme]
      · rw [behind, stands, ← Position.afterText_append]

end Script
