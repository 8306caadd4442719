import Script.Value.Basic

/-!
# Scopes

A scope binds names to values and keeps the names in the order in which they were first defined. An
environment is a path of scopes from the innermost to the outermost; scopes are known by their
numbers, so several environments can share the outer part of their paths and see each other's
assignments. A name means what the first scope on the path says that binds it.
-/

namespace Script

/-- Names with their values, in the order of first definition. -/
abbrev Bindings := List (Name × Value)

namespace Bindings

def get? (b : Bindings) (name : Name) : Option Value :=
  b.lookup name

/-- Binds a name. A name that is bound keeps its place, and a new one comes last. -/
def put (name : Name) (value : Value) : Bindings → Bindings
  | [] => [(name, value)]
  | (other, old) :: rest =>
    if other = name then (name, value) :: rest else (other, old) :: put name value rest

def ofList (pairs : List (Name × Value)) : Bindings :=
  pairs.foldl (fun b (name, value) => b.put name value) []

@[simp] theorem get?_put_self (b : Bindings) (name : Name) (value : Value) :
    (b.put name value).get? name = some value := by
  induction b with
  | nil => simp [put, get?]
  | cons pair rest ih =>
    obtain ⟨other, old⟩ := pair
    by_cases h : other = name
    · simp [put, get?, h]
    · have h' : (name == other) = false := by simpa using Ne.symm h
      simpa [put, get?, h, List.lookup_cons, h'] using ih

theorem get?_put_of_ne (b : Bindings) {name other : Name} (value : Value) (h : other ≠ name) :
    (b.put name value).get? other = b.get? other := by
  have h' : (other == name) = false := by simpa using h
  induction b with
  | nil => simp [put, get?, List.lookup_cons, h']
  | cons pair rest ih =>
    obtain ⟨first, old⟩ := pair
    by_cases hf : first = name
    · subst hf
      simp [put, get?, List.lookup_cons, h']
    · simp only [put, hf, if_false, get?, List.lookup_cons]
      split
      · rfl
      · exact ih

/-- Binding a name that is bound changes no names and no order. -/
theorem names_put_of_mem {b : Bindings} {name : Name} (value : Value)
    (h : name ∈ b.map Prod.fst) : (b.put name value).map Prod.fst = b.map Prod.fst := by
  induction b with
  | nil => cases h
  | cons pair rest ih =>
    obtain ⟨other, old⟩ := pair
    by_cases same : other = name
    · simp [put, same]
    · have mem : name ∈ rest.map Prod.fst := (List.mem_cons.mp h).resolve_left (Ne.symm same)
      simp only [put, same, if_false, List.map_cons, ih mem]

/-- A new name comes last. -/
theorem names_put_of_not_mem {b : Bindings} {name : Name} (value : Value)
    (h : name ∉ b.map Prod.fst) : (b.put name value).map Prod.fst = b.map Prod.fst ++ [name] := by
  induction b with
  | nil => rfl
  | cons pair rest ih =>
    obtain ⟨other, old⟩ := pair
    obtain ⟨differs, new⟩ := not_or.mp (fun mem => h (List.mem_cons.mpr mem))
    simp only [put, Ne.symm differs, if_false, List.map_cons, ih new, List.cons_append]

theorem mem_put {b : Bindings} {name : Name} {value : Value} {binding : Name × Value}
    (h : binding ∈ b.put name value) : binding = (name, value) ∨ binding ∈ b := by
  induction b with
  | nil => exact .inl (List.mem_singleton.mp h)
  | cons pair rest ih =>
    simp only [put] at h
    split at h
    · exact (List.mem_cons.mp h).imp_right (List.mem_cons_of_mem _)
    · rcases List.mem_cons.mp h with rfl | h
      · exact .inr List.mem_cons_self
      · exact (ih h).imp_right (List.mem_cons_of_mem _)

theorem mem_foldl_put {pairs : List (Name × Value)} {b : Bindings} {binding : Name × Value}
    (h : binding ∈ pairs.foldl (fun b (name, value) => b.put name value) b) :
    binding ∈ b ∨ binding ∈ pairs := by
  induction pairs generalizing b with
  | nil => exact .inl h
  | cons pair rest ih =>
    rcases ih h with h | h
    · rcases mem_put h with rfl | h
      · exact .inr List.mem_cons_self
      · exact .inl h
    · exact .inr (List.mem_cons_of_mem _ h)

theorem mem_ofList {pairs : List (Name × Value)} {binding : Name × Value}
    (h : binding ∈ ofList pairs) : binding ∈ pairs :=
  (mem_foldl_put h).resolve_left List.not_mem_nil

end Bindings

structure Scope where
  name : Name
  bindings : Bindings
  deriving Repr

/-- The number of a scope, in the order in which scopes are made. -/
abbrev ScopeId := Nat

/-- The scopes that are visible at a place, the innermost first. -/
abbrev Env := List ScopeId

abbrev Scopes := Array Scope

namespace Scopes

def make (scopes : Scopes) (name : Name) (bindings : Bindings) : ScopeId × Scopes :=
  (scopes.size, scopes.push ⟨name, bindings⟩)

def bindings (scopes : Scopes) (id : ScopeId) : Bindings :=
  (scopes[id]?.map Scope.bindings).getD []

def define (scopes : Scopes) (id : ScopeId) (name : Name) (value : Value) : Scopes :=
  scopes.modify id fun s => { s with bindings := s.bindings.put name value }

/-- The scope of an environment that says what a name means. -/
def find? (scopes : Scopes) (name : Name) (env : Env) : Option ScopeId :=
  List.find? (fun id => ((scopes.bindings id).get? name).isSome) env

def lookup? (scopes : Scopes) (env : Env) (name : Name) : Option Value :=
  (scopes.find? name env).bind fun id => (scopes.bindings id).get? name

/-- Gives a bound name another value, in the scope that says what it means. -/
def assign? (scopes : Scopes) (env : Env) (name : Name) (value : Value) : Option Scopes :=
  (scopes.find? name env).map fun id => scopes.define id name value

theorem mem_bindings_make {scopes : Scopes} {name : Name} {b : Bindings} {id : ScopeId}
    {binding : Name × Value} (h : binding ∈ bindings (scopes.make name b).2 id) :
    binding ∈ scopes.bindings id ∨ binding ∈ b := by
  simp only [make, bindings, Array.getElem?_push] at h
  split at h
  · exact .inr h
  · exact .inl h

theorem mem_bindings_define {scopes : Scopes} {id id' : ScopeId} {name : Name} {value : Value}
    {binding : Name × Value} (h : binding ∈ bindings (scopes.define id' name value) id) :
    binding = (name, value) ∨ binding ∈ scopes.bindings id := by
  simp only [define, bindings, Array.getElem?_modify] at h
  split at h
  · cases hs : scopes[id]? with
    | none => simp [hs] at h
    | some s =>
      simp only [hs, Option.map_some, Option.getD_some] at h
      simpa [bindings, hs] using Bindings.mem_put h
  · exact .inr h

theorem mem_bindings_of_lookup? {scopes : Scopes} {env : Env} {name : Name} {value : Value}
    (h : scopes.lookup? env name = some value) : ∃ id, (name, value) ∈ scopes.bindings id := by
  obtain ⟨id, -, h⟩ := Option.bind_eq_some_iff.mp h
  obtain ⟨front, back, same, -⟩ := List.lookup_eq_some_iff.mp h
  exact ⟨id, by rw [same]; exact List.mem_append_right _ List.mem_cons_self⟩

def chain (scopes : Scopes) (env : Env) : List Scope :=
  env.filterMap fun id => scopes[id]?

end Scopes

end Script
