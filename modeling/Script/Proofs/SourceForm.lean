import Script.Proofs.RuleViolations
import Script.Proofs.ScopedUpkeep
import Script.Proofs.SourcePositions

/-!
# The form of programs that are read

In a program that is read from a source the body of a loop and the first arm of a branch are blocks,
and what follows `else` is a block or another branch. So no arm defines a name outside of itself,
and the only statements that define a name where they stand are the declarations of variables.
-/

namespace Script

theorem bodyPlaces_append (around body body' : List Decl) :
    bodyPlaces around (body ++ body') = bodyPlaces around body ++ bodyPlaces around body' := by
  induction body with
  | nil => rfl
  | cons d rest ih => rw [List.cons_append, bodyPlaces, bodyPlaces, ih, List.append_assoc]

/-- A place where a name is defined by the declaration of a variable, or by no statement. -/
def Place.IsFormed (place : Place) : Prop :=
  ∀ s, place.decl = .stmt s → s.declares = true → ∃ name value, s = .declare name value

theorem Place.isFormed_block (body around : List Decl) :
    IsFormed ⟨.stmt (.block body), around⟩ := by
  rintro _ ⟨⟩ declares
  cases declares

section Formed
variable [CharacterNames] {tokens : List Token}

mutual

theorem StmtAt.exists_of_declares {i j : Nat} {s : Stmt} : StmtAt tokens i j s →
    s.declares = true → ∃ name value, s = .declare name value
  | .block _, declares => by cases declares
  | .declare _ _ _ _ _, _ => ⟨_, _, rfl⟩
  | .assign _ _ _ _, declares => by cases declares
  | .eval _ _, declares => by cases declares
  | .branch _ _ _ otherwise, declares => by cases otherwise.not_declares.symm.trans declares
  | .loop _ _ _, declares => by cases declares
  | .leave _ _, declares => by cases declares
  | .return_ _ _ _, declares => by cases declares

theorem OtherwiseAt.not_declares {i j : Nat} {otherwise : Otherwise} :
    OtherwiseAt tokens i j otherwise → otherwise.declares = false
  | .nothing => rfl
  | .block _ _ => rfl
  | .branch _ branch => by
      refine Bool.eq_false_iff.mpr fun declares => ?_
      obtain ⟨_, _, same⟩ := branch.exists_of_declares declares
      cases same

end

theorem StmtAt.isFormed {i j : Nat} {s : Stmt} (h : StmtAt tokens i j s) (around : List Decl) :
    Place.IsFormed ⟨.stmt s, around⟩ := by
  rintro _ ⟨⟩ declares
  exact h.exists_of_declares declares

mutual

theorem StmtAt.formed {i j : Nat} {s : Stmt} (around : List Decl) : StmtAt tokens i j s →
    ∀ place ∈ s.places around, place.IsFormed
  | .block body =>
      List.forall_mem_cons.mpr ⟨Place.isFormed_block _ _, body.formed _⟩
  | .declare var name equal value semicolon => List.forall_mem_singleton.mpr
      ((StmtAt.declare var name equal value semicolon).isFormed around)
  | .assign name equal value semicolon => List.forall_mem_singleton.mpr
      ((StmtAt.assign name equal value semicolon).isFormed around)
  | .eval value semicolon => List.forall_mem_singleton.mpr
      ((StmtAt.eval value semicolon).isFormed around)
  | .branch if_ condition body otherwise => List.forall_mem_cons.mpr
      ⟨(StmtAt.branch if_ condition body otherwise).isFormed around,
        List.forall_mem_append.mpr ⟨List.forall_mem_cons.mpr
          ⟨Place.isFormed_block _ _, body.formed _⟩, otherwise.formed _⟩⟩
  | .loop while_ condition body => List.forall_mem_cons.mpr
      ⟨(StmtAt.loop while_ condition body).isFormed around,
        List.forall_mem_cons.mpr ⟨Place.isFormed_block _ _, body.formed _⟩⟩
  | .leave return_ semicolon => List.forall_mem_singleton.mpr
      ((StmtAt.leave return_ semicolon).isFormed around)
  | .return_ return_ value semicolon => List.forall_mem_singleton.mpr
      ((StmtAt.return_ return_ value semicolon).isFormed around)

theorem OtherwiseAt.formed {i j : Nat} {otherwise : Otherwise} (around : List Decl) :
    OtherwiseAt tokens i j otherwise → ∀ place ∈ otherwise.places around, place.IsFormed
  | .nothing => List.forall_mem_nil _
  | .block _ body => List.forall_mem_cons.mpr ⟨Place.isFormed_block _ _, body.formed _⟩
  | .branch _ branch => branch.formed around

theorem DeclAt.formed {i j : Nat} {d : Decl} (around : List Decl) : DeclAt tokens i j d →
    ∀ place ∈ d.places around, place.IsFormed
  | .function _ body => by
      refine List.forall_mem_cons.mpr ⟨?_, body.formed _⟩
      rintro _ ⟨⟩
  | .stmt s => s.formed around

theorem BlockAt.formed {i j : Nat} {body : List Decl} (around : List Decl) :
    BlockAt tokens i j body → ∀ place ∈ bodyPlaces around body, place.IsFormed
  | .braces _ body _ => body.formed around

theorem BodyAt.formed {i j : Nat} {body : List Decl} (around : List Decl) :
    BodyAt tokens i j body → ∀ place ∈ bodyPlaces around body, place.IsFormed
  | .nil => List.forall_mem_nil _
  | .concat body last => by
      rw [bodyPlaces_append, bodyPlaces, bodyPlaces, List.append_nil]
      exact List.forall_mem_append.mpr ⟨body.formed around, last.formed around⟩

end

end Formed

/-- Of the statements of a program that is read from a source, the declarations of variables are
those that define a name where they stand. -/
theorem Program.declares_iff_of_parse [CharacterNames] {source : Text} {program : Program}
    (parsed : parse source = .ok program) {s : Stmt} {around : List Decl}
    (here : ⟨.stmt s, around⟩ ∈ program.places) :
    s.declares = true ↔ ∃ name value, s = .declare name value := by
  constructor
  · obtain ⟨-, -, body⟩ := bodyAt_of_parse parsed
    exact body.formed [] _ here s rfl
  · rintro ⟨name, value, rfl⟩
    rfl

end Script
