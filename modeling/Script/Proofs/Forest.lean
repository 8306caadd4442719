import Script.Proofs.ScopePaths

/-!
# Environments as chains of ordered maps

Environments are made one after the other, each with a scope of its own and inside another
environment or not. So they form a forest, in which several environments share the scopes around
them. Whatever is asked of them, an environment acts as the chain of its scopes from the innermost
outwards, each of which is an ordered map: a key has the value that the first scope gives it that
binds it. A definition writes into the environment's own scope. An assignment writes into the scope
that says what the key means, and into none if there is no such scope. What is written is seen by
those environments for which that scope says what the key means, and by no others.
-/

namespace Script

namespace Bindings

theorem nodup_put {b : Bindings} (nodup : (b.map Prod.fst).Nodup) (name : Name) (value : Value) :
    ((b.put name value).map Prod.fst).Nodup := by
  by_cases mem : name ∈ b.map Prod.fst
  · rwa [names_put_of_mem value mem]
  · rw [names_put_of_not_mem value mem]
    refine List.nodup_append.mpr ⟨nodup, List.pairwise_singleton _ _, fun a inside b last => ?_⟩
    rw [List.mem_singleton.mp last]
    exact fun same => mem (same ▸ inside)

theorem nodup_ofList (pairs : List (Name × Value)) : ((ofList pairs).map Prod.fst).Nodup :=
  List.foldlRecOn (motive := fun b : Bindings => (b.map Prod.fst).Nodup) pairs _ List.nodup_nil
    fun _ nodup pair _ => nodup_put nodup pair.1 pair.2

/-- In bindings without repetitions a name has the value that it is paired with. -/
theorem get?_eq_some_iff {b : Bindings} (nodup : (b.map Prod.fst).Nodup) {name : Name}
    {value : Value} : b.get? name = some value ↔ (name, value) ∈ b := by
  induction b with
  | nil => exact ⟨nofun, nofun⟩
  | cons pair b ih =>
      obtain ⟨first, v⟩ := pair
      obtain ⟨free, nodup⟩ := List.nodup_cons.mp nodup
      rw [get?, List.lookup_cons, List.mem_cons, Prod.mk.injEq]
      by_cases same : name = first
      · subst same
        have absent : (name, value) ∉ b := fun mem =>
          free (List.mem_map.mpr ⟨(name, value), mem, rfl⟩)
        simp [absent, eq_comm]
      · rw [beq_eq_false_iff_ne.mpr same, ← ih nodup]
        simp [same, get?]

end Bindings

/-- Environments that have been made, each by the number of its own scope: the path from this scope
outwards. -/
structure Forest where
  scopes : Scopes
  envs : Array Env

namespace Forest

inductive Request where
  | new (name : Name) (arguments : List (Name × Value)) (parent : Option ScopeId)
  | define (env : ScopeId) (key : Name) (value : Value)
  | set (env : ScopeId) (key : Name) (value : Value)
  | get (env : ScopeId) (key : Name)
  | contains (env : ScopeId) (key : Name)

/-- What is answered. A key that no scope binds is an error. -/
inductive Answer where
  | done
  | value (value : Value)
  | truth (holds : Bool)
  | unbound (key : Name)

def empty : Forest := ⟨#[], #[]⟩

def env (f : Forest) (e : ScopeId) : Env :=
  (f.envs[e]?).getD []

def step (f : Forest) : Request → Answer × Forest
  | .new name arguments parent =>
    let (id, scopes) := f.scopes.make name (Bindings.ofList arguments)
    (.done, ⟨scopes, f.envs.push (id :: (parent.map f.env).getD [])⟩)
  | .define e key value =>
    match f.env e with
    | [] => (.done, f)
    | id :: _ => (.done, { f with scopes := f.scopes.define id key value })
  | .set e key value =>
    match f.scopes.assign? (f.env e) key value with
    | some scopes => (.done, { f with scopes })
    | none => (.unbound key, f)
  | .get e key =>
    match f.scopes.lookup? (f.env e) key with
    | some value => (.value value, f)
    | none => (.unbound key, f)
  | .contains e key => (.truth (f.scopes.lookup? (f.env e) key).isSome, f)

def after (requests : List Request) : Forest :=
  requests.foldl (fun f request => (f.step request).2) empty

variable {f : Forest} {e id : ScopeId} {key : Name}

theorem step_define {around : Env} (path : f.env e = id :: around) (key : Name) (value : Value) :
    f.step (.define e key value) =
      (.done, { f with scopes := f.scopes.define id key value }) := by
  simp only [step, path]

theorem step_set_of_boundBy (bound : f.scopes.BoundBy key (f.env e) id) (value : Value) :
    f.step (.set e key value) = (.done, { f with scopes := f.scopes.define id key value }) := by
  rw [step, Scopes.assign?, Scopes.find?_eq_some_iff.mpr bound]
  rfl

theorem step_set_of_unbound (unbound : f.scopes.lookup? (f.env e) key = none) (value : Value) :
    f.step (.set e key value) = (.unbound key, f) := by
  rw [step, Scopes.assign?, Scopes.find?_eq_none_iff.mpr unbound]
  rfl

theorem step_get_of_some {value : Value} (found : f.scopes.lookup? (f.env e) key = some value) :
    f.step (.get e key) = (.value value, f) := by
  rw [step, found]

theorem step_get_of_none (unbound : f.scopes.lookup? (f.env e) key = none) :
    f.step (.get e key) = (.unbound key, f) := by
  rw [step, unbound]

theorem boundBy_or_unbound (f : Forest) (e : ScopeId) (key : Name) :
    (∃ id, f.scopes.BoundBy key (f.env e) id) ∨ f.scopes.lookup? (f.env e) key = none := by
  cases found : f.scopes.find? key (f.env e) with
  | some id => exact .inl ⟨id, Scopes.find?_eq_some_iff.mp found⟩
  | none => exact .inr (Scopes.find?_eq_none_iff.mp found)

/-! ### What requests preserve -/

/-- Every environment leads from its own scope through an environment that was made before it, if
through any, and no scope binds a name twice. -/
structure WellFormed (f : Forest) : Prop where
  size : f.envs.size = f.scopes.size
  path : ∀ e < f.envs.size, ∃ around, f.env e = e :: around ∧
    (around = [] ∨ ∃ parent < e, f.env parent = around)
  nodup : ∀ id, (f.scopes.names id).Nodup

theorem lt_of_env_ne_nil (nonempty : f.env e ≠ []) : e < f.envs.size := by
  by_contra outside
  rw [env, Array.getElem?_eq_none (Nat.le_of_not_lt outside)] at nonempty
  exact nonempty rfl

theorem env_push_of_lt {scopes : Scopes} {path : Env} (lt : e < f.envs.size) :
    env ⟨scopes, f.envs.push path⟩ e = f.env e := by
  rw [env, Array.getElem?_push_lt lt, env, Array.getElem?_eq_getElem lt]

theorem env_push_size (scopes : Scopes) (path : Env) :
    env ⟨scopes, f.envs.push path⟩ f.envs.size = path := by
  rw [env, Array.getElem?_push_size, Option.getD_some]

namespace WellFormed

theorem empty : WellFormed Forest.empty where
  size := rfl
  path _ lt := absurd lt (Nat.not_lt_zero _)
  nodup _ := List.nodup_nil

/-- An environment of its own scope and those of an older environment, if of any. -/
theorem push (h : f.WellFormed) (name : Name) (arguments : List (Name × Value))
    (parent : Option ScopeId) :
    WellFormed ⟨(f.scopes.make name (Bindings.ofList arguments)).2,
      f.envs.push (f.scopes.size :: (parent.map f.env).getD [])⟩ where
  size := by rw [Array.size_push, Scopes.size_make, h.size]
  path e lt := by
    rw [Array.size_push] at lt
    rcases Nat.lt_succ_iff_lt_or_eq.mp lt with old | rfl
    · rw [env_push_of_lt old]
      obtain ⟨around, path, root | ⟨parent, before, same⟩⟩ := h.path e old
      · exact ⟨around, path, .inl root⟩
      · exact ⟨around, path, .inr ⟨parent, before, by
          rw [env_push_of_lt (Nat.lt_trans before old), same]⟩⟩
    · refine ⟨(parent.map f.env).getD [], by rw [env_push_size, h.size], ?_⟩
      by_cases root : (parent.map f.env).getD [] = []
      · exact .inl root
      · cases parent with
        | none => exact absurd rfl root
        | some parent =>
            have before := lt_of_env_ne_nil root
            exact .inr ⟨parent, before, env_push_of_lt before⟩
  nodup id := by
    rw [Scopes.names, Scopes.bindings_make]
    split
    · exact Bindings.nodup_ofList arguments
    · exact h.nodup id

theorem define (h : f.WellFormed) (lt : id < f.scopes.size) (key : Name) (value : Value) :
    WellFormed { f with scopes := f.scopes.define id key value } where
  size := by rw [Scopes.size_define, h.size]
  path := h.path
  nodup i := by
    by_cases same : i = id
    · subst same
      rw [Scopes.names, Scopes.bindings_define_self lt]
      exact Bindings.nodup_put (h.nodup i) key value
    · rw [Scopes.names_define_of_ne key value same]
      exact h.nodup i

theorem lt_of_mem (h : f.WellFormed) (mem : id ∈ f.env e) : id < f.scopes.size := by
  induction e using Nat.strongRecOn with
  | ind e ih =>
      have lt := lt_of_env_ne_nil (List.ne_nil_of_mem mem)
      obtain ⟨around, path, outer⟩ := h.path e lt
      rw [path] at mem
      rcases List.mem_cons.mp mem with rfl | mem
      · rwa [← h.size]
      · rcases outer with rfl | ⟨parent, before, rfl⟩
        · cases mem
        · exact ih parent before mem

theorem step (h : f.WellFormed) (request : Request) : (f.step request).2.WellFormed := by
  cases request with
  | new name arguments parent => exact h.push name arguments parent
  | define e key value =>
      cases path : f.env e with
      | nil => simpa only [Forest.step, path] using h
      | cons id around =>
          have lt : id < f.scopes.size := h.lt_of_mem (path ▸ List.mem_cons_self)
          rw [step_define path]
          exact h.define lt key value
  | set e key value =>
      rcases f.boundBy_or_unbound e key with ⟨id, bound⟩ | unbound
      · rw [step_set_of_boundBy bound]
        exact h.define (Scopes.lt_size_of_mem_names bound.mem_names) key value
      · rwa [step_set_of_unbound unbound]
  | get e key =>
      cases found : f.scopes.lookup? (f.env e) key with
      | some value => rwa [step_get_of_some found]
      | none => rwa [step_get_of_none found]
  | contains e key => exact h

end WellFormed

theorem wellFormed_after (requests : List Request) : (after requests).WellFormed := by
  have fold (f : Forest) (h : f.WellFormed) :
      (requests.foldl (fun f request => (f.step request).2) f).WellFormed := by
    induction requests generalizing f with
    | nil => exact h
    | cons request requests ih => exact ih _ (h.step request)
  exact fold empty .empty

/-! ### What requests do -/

/-- A key is given a value in one scope. It is the value of the key in those environments for which
this scope says what the key means. All else is as it was. -/
structure Writes (id : ScopeId) (key : Name) (value : Value) (f f' : Forest) : Prop where
  envs : f'.envs = f.envs
  scopes : f.scopes.Defines id key value f'.scopes
  labels : f'.scopes.map Scope.name = f.scopes.map Scope.name
  seen {e : ScopeId} : f'.scopes.BoundBy key (f'.env e) id →
    (f'.step (.get e key)).1 = .value value
  unseen {e : ScopeId} {key' : Name} : ¬(key' = key ∧ f'.scopes.BoundBy key (f'.env e) id) →
    (f'.step (.get e key')).1 = (f.step (.get e key')).1

/-- How environments act as chains of ordered maps. -/
structure ActsAsChain (f : Forest) : Prop where
  /-- No map has a key twice. -/
  nodup (id : ScopeId) : (f.scopes.names id).Nodup
  /-- The maps that an environment shows are those of the scopes on its path, its own first. -/
  shown {e : ScopeId} : e < f.envs.size → (f.env e).head? = some e ∧
    (f.scopes.chain (f.env e)).map Scope.bindings = (f.env e).map f.scopes.bindings
  /-- A new environment has a scope of its own in front of those of its parent. -/
  new (name : Name) (arguments : List (Name × Value)) (parent : Option ScopeId) :
    ∃ f', f.step (.new name arguments parent) = (.done, f') ∧
      f'.env f.envs.size = f.envs.size :: (parent.map f.env).getD [] ∧
      (∀ e < f.envs.size, f'.env e = f.env e) ∧
      f'.scopes = f.scopes.push ⟨name, Bindings.ofList arguments⟩
  get {e : ScopeId} {key : Name} {value : Value} :
    f.step (.get e key) = (.value value, f) ↔
      ∃ id, f.scopes.BoundBy key (f.env e) id ∧ (key, value) ∈ f.scopes.bindings id
  unbound {e : ScopeId} {key : Name} :
    f.step (.get e key) = (.unbound key, f) ↔ ∀ id ∈ f.env e, key ∉ f.scopes.names id
  contains (e : ScopeId) (key : Name) : ∃ holds, f.step (.contains e key) = (.truth holds, f) ∧
    (holds ↔ ∃ value, f.step (.get e key) = (.value value, f))
  define {e : ScopeId} (key : Name) (value : Value) : e < f.envs.size →
    ∃ f', f.step (.define e key value) = (.done, f') ∧ Writes e key value f f'
  set {e id : ScopeId} {key : Name} (value : Value) : f.scopes.BoundBy key (f.env e) id →
    ∃ f', f.step (.set e key value) = (.done, f') ∧ Writes id key value f f' ∧
      f'.scopes.names id = f.scopes.names id ∧
      ∀ e' key' id', f'.scopes.BoundBy key' (f'.env e') id' ↔ f.scopes.BoundBy key' (f.env e') id'
  refused {e : ScopeId} {key : Name} {value : Value} :
    f.step (.set e key value) = (.unbound key, f) ↔ f.step (.get e key) = (.unbound key, f)

theorem step_get_fst (f : Forest) (e : ScopeId) (key : Name) :
    (f.step (.get e key)).1 =
      (f.scopes.lookup? (f.env e) key).elim (.unbound key) .value := by
  rw [step]
  cases f.scopes.lookup? (f.env e) key <;> rfl

theorem labels_define (s : Scopes) (id : ScopeId) (key : Name) (value : Value) :
    (s.define id key value).map Scope.name = s.map Scope.name := by
  refine Array.ext_getElem? fun i => ?_
  rw [Array.getElem?_map, Array.getElem?_map, Scopes.define, Array.getElem?_modify]
  split
  · rw [Option.map_map]
    rfl
  · rfl

theorem writes_define (lt : id < f.scopes.size) (key : Name) (value : Value) :
    Writes id key value f { f with scopes := f.scopes.define id key value } where
  envs := rfl
  scopes := Scopes.defines_define lt key value
  labels := labels_define f.scopes id key value
  seen bound := by rw [step_get_fst, bound.lookup?_define lt]; rfl
  unseen {e key'} other := by
    have kept : (f.scopes.define id key value).lookup? (f.env e) key' =
        f.scopes.lookup? (f.env e) key' := by
      by_cases same : key' = key
      · subst same
        exact Scopes.lookup?_define_of_not_boundBy lt fun bound => other ⟨rfl, bound⟩
      · exact Scopes.lookup?_define_of_ne same id value (f.env e)
    rw [step_get_fst, step_get_fst, ← kept]
    rfl

theorem step_get_eq_value_iff {value : Value} :
    f.step (.get e key) = (.value value, f) ↔ f.scopes.lookup? (f.env e) key = some value := by
  constructor
  · intro answered
    cases there : f.scopes.lookup? (f.env e) key with
    | some v =>
        cases (step_get_of_some there).symm.trans answered
        rfl
    | none => cases (step_get_of_none there).symm.trans answered
  · exact step_get_of_some

theorem step_get_eq_unbound_iff :
    f.step (.get e key) = (.unbound key, f) ↔ f.scopes.lookup? (f.env e) key = none := by
  constructor
  · intro answered
    cases there : f.scopes.lookup? (f.env e) key with
    | some v => cases (step_get_of_some there).symm.trans answered
    | none => rfl
  · exact step_get_of_none

theorem step_set_eq_unbound_iff {value : Value} :
    f.step (.set e key value) = (.unbound key, f) ↔ f.scopes.lookup? (f.env e) key = none := by
  constructor
  · intro answered
    rcases f.boundBy_or_unbound e key with ⟨id, bound⟩ | unbound
    · cases (step_set_of_boundBy bound value).symm.trans answered
    · exact unbound
  · exact fun unbound => step_set_of_unbound unbound value

/-- The scopes on a path exist, so none is left out where they are shown. -/
theorem bindings_chain {s : Scopes} {env : Env} (exist : ∀ id ∈ env, id < s.size) :
    (s.chain env).map Scope.bindings = env.map s.bindings := by
  induction env with
  | nil => rfl
  | cons id env ih =>
      obtain ⟨lt, exist⟩ := List.forall_mem_cons.mp exist
      have there := Array.getElem?_eq_getElem lt
      have rest := ih exist
      rw [Scopes.chain] at rest ⊢
      rw [List.filterMap_cons, there, List.map_cons, List.map_cons, rest, Scopes.bindings, there]
      rfl

theorem WellFormed.actsAsChain (h : f.WellFormed) : f.ActsAsChain where
  nodup := h.nodup
  shown {e} lt := by
    obtain ⟨around, path, -⟩ := h.path e lt
    exact ⟨by rw [path]; rfl, bindings_chain fun id mem => h.lt_of_mem mem⟩
  new name arguments parent := by
    refine ⟨_, rfl, ?_, fun e lt => env_push_of_lt lt, rfl⟩
    rw [env_push_size, h.size]
  get := by
    simp only [step_get_eq_value_iff, Scopes.lookup?_eq_some_iff,
      Bindings.get?_eq_some_iff (h.nodup _), implies_true]
  unbound := step_get_eq_unbound_iff.trans Scopes.lookup?_eq_none_iff
  contains e key := by
    refine ⟨_, rfl, ?_⟩
    simp only [Option.isSome_iff_exists, step_get_eq_value_iff]
  define {e} key value lt := by
    obtain ⟨around, path, -⟩ := h.path e lt
    exact ⟨_, step_define path key value, writes_define (h.size ▸ lt) key value⟩
  set {e id key} value bound := by
    have lt := Scopes.lt_size_of_mem_names bound.mem_names
    have names := Scopes.names_define_of_mem value bound.mem_names
    exact ⟨_, step_set_of_boundBy bound value, writes_define lt key value, names id,
      fun e' key' id' => Scopes.boundBy_iff_of_names_eq names⟩
  refused := step_set_eq_unbound_iff.trans step_get_eq_unbound_iff.symm

/-- After any sequence of requests, every environment acts as the chain of ordered maps that it
shows: keys have the values of the first map that binds them, definitions write into the first map
of all, and assignments into the one that binds the key. An assignment fails exactly if there is
none, and then nothing changes. -/
theorem actsAsChain_after (requests : List Request) : (after requests).ActsAsChain :=
  (wellFormed_after requests).actsAsChain

/-- An assignment in the innermost of three environments changes the value in the one around it,
which shadows the outermost. -/
example :
    let f := after [.new (text "root") [(text "x", .integer 1)] none,
      .new [] [(text "x", .integer 10)] (some 0), .new [] [] (some 1),
      .set 2 (text "x") (.integer 11)]
    (f.step (.get 1 (text "x"))).1 = .value (.integer 11) ∧
      (f.step (.get 0 (text "x"))).1 = .value (.integer 1) ∧
      (f.step (.set 2 (text "y") .nil)).1 = .unbound (text "y") :=
  ⟨rfl, rfl, rfl⟩

end Forest

end Script
