import Script.Proofs.ScopeNames

/-!
# Names in paths of scopes

A name means what the first scope says that binds it, on the way outwards from the innermost scope
of an environment. Nothing but the names of the scopes decides which one this is. A definition can
change what a name means only in the environments where the scope of the definition is that scope.
-/

namespace Script

namespace Scopes
variable {s : Scopes} {id : ScopeId} {name : Name}

theorem lookup?_cons (s : Scopes) (id : ScopeId) (env : Env) (name : Name) :
    s.lookup? (id :: env) name = ((s.bindings id).get? name).or (s.lookup? env name) := by
  unfold lookup?
  cases bound : (s.bindings id).get? name with
  | some v =>
      rw [find?_cons_of_some bound]
      exact bound
  | none =>
      rw [find?_cons_of_none bound]
      rfl

theorem lookup?_append (s : Scopes) (front back : Env) (name : Name) :
    s.lookup? (front ++ back) name = (s.lookup? front name).or (s.lookup? back name) := by
  induction front with
  | nil => rfl
  | cons id front ih => rw [List.cons_append, lookup?_cons, lookup?_cons, ih, Option.or_assoc]

theorem lookup?_of_same {s' : Scopes} {env : Env}
    (same : ∀ id ∈ env, s'.bindings id = s.bindings id) (name : Name) :
    s'.lookup? env name = s.lookup? env name := by
  induction env with
  | nil => rfl
  | cons id env ih =>
      obtain ⟨here, others⟩ := List.forall_mem_cons.mp same
      rw [lookup?_cons, lookup?_cons, here, ih others]

theorem isSome_find? (s : Scopes) (env : Env) (name : Name) :
    (s.find? name env).isSome = (s.lookup? env name).isSome := by
  induction env with
  | nil => rfl
  | cons id env ih =>
      rw [lookup?_cons]
      cases bound : (s.bindings id).get? name with
      | some v =>
          rw [find?_cons_of_some bound]
          rfl
      | none =>
          rw [find?_cons_of_none bound, ih]
          rfl

theorem getElem?_make_of_lt (name : Name) (b : Bindings) (lt : id < s.size) :
    (s.make name b).2[id]? = s[id]? := by
  rw [make, Array.getElem?_push, if_neg (Nat.ne_of_lt lt)]

/-- A new scope that does not bind a name gives it no meaning where it had none. -/
theorem lookup?_make_of_none {env : Env} {b : Bindings} (free : b.get? name = none)
    (missing : s.lookup? env name = none) (made : Name) :
    (s.make made b).2.lookup? env name = none := by
  induction env with
  | nil => rfl
  | cons i env ih =>
      rw [lookup?_cons, Option.or_eq_none_iff] at missing
      rw [lookup?_cons, ih missing.2, bindings_make, Option.or_none]
      split
      · exact free
      · exact missing.1

theorem lookup?_define_of_ne {other : Name} (differ : other ≠ name) (id : ScopeId) (value : Value)
    (env : Env) : (s.define id name value).lookup? env other = s.lookup? env other := by
  induction env with
  | nil => rfl
  | cons i env ih =>
      rw [lookup?_cons, lookup?_cons, ih]
      by_cases same : i = id
      · subst same
        by_cases lt : i < s.size
        · rw [bindings_define_self lt, Bindings.get?_put_of_ne _ value differ]
        · rw [bindings, define, Array.getElem?_modify, if_pos rfl,
            Array.getElem?_eq_none (Nat.le_of_not_lt lt), bindings,
            Array.getElem?_eq_none (Nat.le_of_not_lt lt)]
          rfl
      · rw [bindings_define_of_ne name value same]

theorem lookup?_define_self (lt : id < s.size) {front : Env}
    (free : ∀ i ∈ front, (s.bindings i).get? name = none) (value : Value) (back : Env) :
    (s.define id name value).lookup? (front ++ id :: back) name = some value := by
  induction front with
  | nil =>
      rw [List.nil_append, lookup?_cons, bindings_define_self lt, Bindings.get?_put_self]
      rfl
  | cons i front ih =>
      obtain ⟨here, others⟩ := List.forall_mem_cons.mp free
      rw [List.cons_append, lookup?_cons, ih others]
      by_cases same : i = id
      · rw [same, bindings_define_self lt, Bindings.get?_put_self]
        rfl
      · rw [bindings_define_of_ne name value same, here]
        rfl

/-! ### The scope that says what a name means -/

/-- The scope that says what a name means: the first one on the way outwards that binds it. -/
inductive BoundBy (s : Scopes) (name : Name) : Env → ScopeId → Prop
  | here {id : ScopeId} {around : Env} : name ∈ s.names id → BoundBy s name (id :: around) id
  | outward {i id : ScopeId} {around : Env} : name ∉ s.names i → BoundBy s name around id →
      BoundBy s name (i :: around) id

theorem boundBy_cons_of_mem {i : ScopeId} (mem : name ∈ s.names i) (env : Env) :
    s.BoundBy name (i :: env) id ↔ i = id := by
  constructor
  · intro bound
    cases bound with
    | here _ => rfl
    | outward free _ => exact absurd mem free
  · rintro rfl
    exact .here mem

theorem boundBy_cons_of_notMem {i : ScopeId} (free : name ∉ s.names i) (env : Env) :
    s.BoundBy name (i :: env) id ↔ s.BoundBy name env id := by
  constructor
  · intro bound
    cases bound with
    | here mem => exact absurd mem free
    | outward _ bound => exact bound
  · exact .outward free

theorem BoundBy.mem_names {env : Env} (bound : s.BoundBy name env id) : name ∈ s.names id := by
  induction bound with
  | here mem => exact mem
  | outward _ _ ih => exact ih

/-- Which scope says what a name means depends on the names of the scopes only. -/
theorem boundBy_iff_of_names_eq {s' : Scopes} (same : ∀ i, s'.names i = s.names i) {env : Env} :
    s'.BoundBy name env id ↔ s.BoundBy name env id := by
  induction env with
  | nil => exact ⟨nofun, nofun⟩
  | cons i env ih =>
      by_cases mem : name ∈ s.names i
      · rw [boundBy_cons_of_mem mem, boundBy_cons_of_mem (by rwa [same])]
      · rw [boundBy_cons_of_notMem mem, boundBy_cons_of_notMem (by rwa [same]), ih]

theorem get?_eq_none_iff : (s.bindings id).get? name = none ↔ name ∉ s.names id := by
  rw [Bindings.get?, List.lookup_eq_none_iff]
  constructor
  · intro free mem
    obtain ⟨pair, inside, rfl⟩ := List.mem_map.mp mem
    simpa using free pair inside
  · intro free pair inside
    have differs : name ≠ pair.1 := fun same => free (same ▸ List.mem_map_of_mem inside)
    simpa using differs

theorem exists_get?_iff : (∃ v, (s.bindings id).get? name = some v) ↔ name ∈ s.names id := by
  rw [← Option.isSome_iff_exists, Option.isSome_iff_ne_none, Ne, get?_eq_none_iff, not_not]

theorem find?_eq_some_iff {env : Env} : s.find? name env = some id ↔ s.BoundBy name env id := by
  induction env with
  | nil => exact ⟨nofun, nofun⟩
  | cons i env ih =>
      by_cases mem : name ∈ s.names i
      · obtain ⟨v, found⟩ := exists_get?_iff.mpr mem
        rw [find?_cons_of_some found, boundBy_cons_of_mem mem, Option.some.injEq]
      · rw [find?_cons_of_none (get?_eq_none_iff.mpr mem), boundBy_cons_of_notMem mem, ih]

/-- A name has the value that it has in the scope that says what it means. -/
theorem lookup?_eq_some_iff {env : Env} {v : Value} :
    s.lookup? env name = some v ↔
      ∃ id, s.BoundBy name env id ∧ (s.bindings id).get? name = some v := by
  simp only [lookup?, Option.bind_eq_some_iff, find?_eq_some_iff]

theorem lookup?_eq_none_iff {env : Env} :
    s.lookup? env name = none ↔ ∀ id ∈ env, name ∉ s.names id := by
  induction env with
  | nil => exact iff_of_true rfl nofun
  | cons i env ih =>
      rw [lookup?_cons, Option.or_eq_none_iff, get?_eq_none_iff, ih, List.forall_mem_cons]

theorem find?_eq_none_iff {env : Env} :
    s.find? name env = none ↔ s.lookup? env name = none := by
  rw [← Option.not_isSome_iff_eq_none, ← Option.not_isSome_iff_eq_none, isSome_find?]

/-- Where the scope of a definition says what the name means, it means the new value. -/
theorem BoundBy.lookup?_define {env : Env} {value : Value} (lt : id < s.size)
    (bound : (s.define id name value).BoundBy name env id) :
    (s.define id name value).lookup? env name = some value := by
  refine lookup?_eq_some_iff.mpr ⟨id, bound, ?_⟩
  rw [bindings_define_self lt, Bindings.get?_put_self]

/-- Where another scope says what the name means, or none, its meaning stays as it was. -/
theorem lookup?_define_of_not_boundBy {env : Env} {value : Value} (lt : id < s.size)
    (other : ¬(s.define id name value).BoundBy name env id) :
    (s.define id name value).lookup? env name = s.lookup? env name := by
  induction env with
  | nil => rfl
  | cons i env ih =>
      have defined : name ∈ (s.define id name value).names id :=
        exists_get?_iff.mp ⟨value, (defines_define lt name value).bound⟩
      have differs : i ≠ id := by
        rintro rfl
        exact other (.here defined)
      rw [lookup?_cons, lookup?_cons, bindings_define_of_ne name value differs]
      by_cases mem : name ∈ s.names i
      · obtain ⟨v, found⟩ := exists_get?_iff.mpr mem
        rw [found, Option.some_or, Option.some_or]
      · have free : name ∉ (s.define id name value).names i := by
          rwa [names_define_of_ne name value differs]
        rw [ih fun bound => other (.outward free bound)]

end Scopes

end Script
