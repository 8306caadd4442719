import Script.Proofs.CodeSimulation
import Script.Proofs.ScopeNames

/-!
# Renaming a local name

Two programs that differ in a local name `x` or `y` run alike. Their scopes correspond one to one.
Most of them lie outside of the body in question and have the same bindings in both runs. The scope
of that body is at first like these; once the name is declared it is the root of what lies inside,
where `x` is bound in one run as `y` is in the other. All closures made inside lead through such a
root, so that no lookup of `x` in the one run, or of `y` in the other, gets past it, wherever the
closures are called from.
-/

namespace Script

theorem replaceName_inj {x y n k : Name} (hn : n ≠ y) (hk : k ≠ y)
    (h : replaceName x y n = replaceName x y k) : n = k := by
  unfold replaceName at h
  split at h <;> split at h
  · rename_i first second
    rw [first, second]
  · exact absurd h.symm hk
  · exact absurd h hn
  · exact h

/-- Where a scope lies: outside of the body with the local name, at its start before the name is
declared, at its start after that, or further inside. -/
inductive Region where
  | outside
  | pending
  | root
  | inside
  deriving DecidableEq

section
variable (x y : Name)

/-- Bindings that correspond where code contains no `y`. -/
def Bindings.Corresponds (b b' : Bindings) : Prop :=
  ∀ n, n ≠ y → b'.get? (replaceName x y n) = b.get? n

/-- What the bindings of a scope in two runs have to do with each other. -/
def Region.Matches : Region → Bindings → Bindings → Prop
  | outside, b, b' | pending, b, b' => b' = b
  | root, b, b' => b.Corresponds x y b' ∧ (b.get? x).isSome
  | inside, b, b' => b.Corresponds x y b'

/-- A name that may be bound in a region, and the other name that is bound in the other run. -/
def Region.Takes : Region → Name → Name → Prop
  | outside, n, n' | pending, n, n' => n' = n
  | root, n, n' | inside, n, n' => n ≠ y ∧ n' = replaceName x y n

end

section
variable {x y : Name} {b b' : Bindings} {n n' : Name}

theorem Bindings.Corresponds.put (h : b.Corresponds x y b') (other : n ≠ y) (v : Value) :
    (Bindings.put n v b).Corresponds x y (Bindings.put (replaceName x y n) v b') := by
  intro k hk
  by_cases same : k = n
  · rw [same, Bindings.get?_put_self, Bindings.get?_put_self]
  · have differ : replaceName x y k ≠ replaceName x y n :=
      fun eq => same (replaceName_inj hk other eq)
    rw [Bindings.get?_put_of_ne b' v differ, Bindings.get?_put_of_ne b v same]
    exact h k hk

theorem Bindings.isSome_get?_put {b : Bindings} (h : (b.get? x).isSome) (n : Name) (v : Value) :
    ((Bindings.put n v b).get? x).isSome := by
  by_cases same : x = n
  · rw [same, Bindings.get?_put_self]
    rfl
  · rwa [Bindings.get?_put_of_ne b v same]

theorem Region.Matches.put {region : Region} (h : region.Matches x y b b')
    (takes : region.Takes x y n n') (v : Value) :
    region.Matches x y (Bindings.put n v b) (Bindings.put n' v b') := by
  cases region with
  | outside | pending =>
      change b' = b at h
      change n' = n at takes
      rw [h, takes]
      exact rfl
  | root =>
      obtain ⟨other, rfl⟩ := takes
      exact ⟨h.1.put other v, Bindings.isSome_get?_put h.2 n v⟩
  | inside =>
      obtain ⟨other, rfl⟩ := takes
      exact Bindings.Corresponds.put h other v

/-- The declaration of the local name makes a root of its scope. -/
theorem Region.Matches.declare (h : Region.pending.Matches x y b b') (v : Value) :
    Region.root.Matches x y (Bindings.put x v b) (Bindings.put y v b') := by
  change b' = b at h
  subst h
  refine ⟨fun n hn => ?_, ?_⟩
  · by_cases same : n = x
    · rw [same, replaceName_self, Bindings.get?_put_self, Bindings.get?_put_self]
    · rw [replaceName_of_ne y same, Bindings.get?_put_of_ne _ v hn,
        Bindings.get?_put_of_ne _ v same]
  · rw [Bindings.get?_put_self]
    rfl

theorem Bindings.corresponds_self {b : Bindings}
    (free : ∀ binding ∈ b, binding.1 ≠ y ∧ binding.1 ≠ x) : b.Corresponds x y b := by
  have unbound {n : Name} (other : ∀ binding ∈ b, binding.1 ≠ n) : b.get? n = none := by
    refine List.lookup_eq_none_iff.mpr fun binding mem => ?_
    simpa using (other binding mem).symm
  intro n hn
  by_cases same : n = x
  · rw [same, replaceName_self, unbound fun binding mem => (free binding mem).1,
      unbound fun binding mem => (free binding mem).2]
  · rw [replaceName_of_ne y same]

end

/-! ### Environments -/

/-- An environment in which all scopes lie outside. -/
def OutsideEnv (w : List Region) (env : Env) : Prop :=
  ∀ id ∈ env, w[id]? = some .outside

/-- An environment that leads outside through a root. -/
inductive InsideEnv (w : List Region) : Env → Prop
  | root {id : ScopeId} {env : Env} : w[id]? = some .root → OutsideEnv w env →
      InsideEnv w (id :: env)
  | inside {id : ScopeId} {env : Env} : w[id]? = some .inside → InsideEnv w env →
      InsideEnv w (id :: env)

section
variable {w w' : List Region} {env : Env}

theorem OutsideEnv.later (h : OutsideEnv w env) (le : w <+: w') : OutsideEnv w' env :=
  fun id mem => getElem?_of_later le (h id mem)

theorem InsideEnv.later (h : InsideEnv w env) (le : w <+: w') : InsideEnv w' env := by
  induction h with
  | root here outside => exact .root (getElem?_of_later le here) (outside.later le)
  | inside here _ ih => exact .inside (getElem?_of_later le here) ih

theorem getElem?_set_pending {id i : ScopeId} {region : Region}
    (pending : w[id]? = some .pending) (other : region ≠ .pending) (h : w[i]? = some region) :
    (w.set id .root)[i]? = some region := by
  have differ : id ≠ i := by
    rintro rfl
    exact other (Option.some.inj (h.symm.trans pending))
  rwa [List.getElem?_set_ne differ]

/-- No environment in use contains a scope in which the name is yet to be declared. -/
theorem OutsideEnv.declare {id : ScopeId} (h : OutsideEnv w env)
    (pending : w[id]? = some .pending) : OutsideEnv (w.set id .root) env :=
  fun i mem => getElem?_set_pending pending nofun (h i mem)

theorem InsideEnv.declare {id : ScopeId} (h : InsideEnv w env)
    (pending : w[id]? = some .pending) : InsideEnv (w.set id .root) env := by
  induction h with
  | root here outside =>
      exact .root (getElem?_set_pending pending nofun here) (outside.declare pending)
  | inside here _ ih => exact .inside (getElem?_set_pending pending nofun here) ih

end

namespace Scopes
variable {s s' : Scopes} {env : Env}

theorem find?_of_same (same : ∀ id ∈ env, s'.bindings id = s.bindings id) (n : Name) :
    s'.find? n env = s.find? n env := by
  induction env with
  | nil => rfl
  | cons id env ih =>
      obtain ⟨here, others⟩ := List.forall_mem_cons.mp same
      unfold find? at ih ⊢
      rw [List.find?_cons, List.find?_cons, here, ih others]

theorem map_name_define (s : Scopes) (id : ScopeId) (n : Name) (v : Value) :
    (s.define id n v).map Scope.name = s.map Scope.name := by
  refine Array.ext_getElem? fun i => ?_
  rw [Array.getElem?_map, Array.getElem?_map, define, Array.getElem?_modify]
  split
  · cases s[i]? <;> rfl
  · rfl

end Scopes

/-! ### Machines -/

/-- Functions that are the same, or that differ in what they contain: a body with the local name, or
its rest, which is inside. -/
structure Closure.Related (x y : Name) (w : List Region) (f g : Closure) : Prop where
  name : g.name = f.name
  parameters : g.parameters = f.parameters
  env : g.env = f.env
  code :
    OutsideEnv w f.env ∧ (g.body = f.body ∨ BodyRenamed x y f.body g.body) ∨
    InsideEnv w f.env ∧ (∀ n ∈ f.parameters ++ bodyNames f.body, n ≠ y) ∧
      (∀ n ∈ f.parameters ++ bodySignatures f.body, n ≠ x) ∧
      g.body = renameBody (replaceName x y) f.body

/-- Two machines in runs of programs that differ in a local name. -/
structure Machine.Linked (x y : Name) (w : List Region) (m m' : Machine) : Prop where
  twin : m.Twin m'
  off : m.trace.enabled = false
  names : m'.scopes.map Scope.name = m.scopes.map Scope.name
  size : m.scopes.size = w.length
  bindings (id : ScopeId) (region : Region) : w[id]? = some region →
    region.Matches x y (m.scopes.bindings id) (m'.scopes.bindings id)
  functions (id : FunctionId) (f g : Closure) : m.functions[id]? = some f →
    m'.functions[id]? = some g → f.Related x y w g

section
variable {x y : Name} {w w' : List Region}

theorem Closure.Related.later {f g : Closure} (h : f.Related x y w g) (le : w <+: w') :
    f.Related x y w' g where
  name := h.name
  parameters := h.parameters
  env := h.env
  code := h.code.imp (And.imp_left (·.later le)) (And.imp_left (·.later le))

theorem Closure.Related.declare {f g : Closure} (h : f.Related x y w g) {id : ScopeId}
    (pending : w[id]? = some .pending) : f.Related x y (w.set id .root) g where
  name := h.name
  parameters := h.parameters
  env := h.env
  code := h.code.imp (And.imp_left (·.declare pending)) (And.imp_left (·.declare pending))

namespace Machine.Linked
variable {m m' : Machine}

theorem size' (h : m.Linked x y w m') : m'.scopes.size = w.length := by
  have same := congrArg Array.size h.names
  rw [Array.size_map, Array.size_map] at same
  rw [same, h.size]

theorem initial (x y : Name) (input : Input) {trace : Trace} (off : trace.enabled = false) :
    (Machine.initial input trace).Linked x y [.outside] (.initial input trace) where
  twin := .refl _
  off := off
  names := rfl
  size := rfl
  bindings id region here := by
    have only : region = .outside := by
      cases id with
      | zero => exact (Option.some.inj here).symm
      | succ id => cases here
    rw [only]
    rfl
  functions id f g hf _ := by cases hf

theorem make (h : m.Linked x y w m') (name : Name) (region : Region) {b : Bindings}
    (same : region.Matches x y b b) :
    ({ m with scopes := (m.scopes.make name b).2 } : Machine).Linked x y (w ++ [region])
      { m' with scopes := (m'.scopes.make name b).2 } where
  twin := ⟨h.twin.arrays, h.twin.input, h.twin.output, h.twin.trace, h.twin.heads⟩
  off := h.off
  names := by simp only [Scopes.make, Array.map_push, h.names]
  size := by rw [Scopes.size_make, List.length_append, h.size]; rfl
  bindings id r here := by
    rw [Scopes.bindings_make, Scopes.bindings_make, h.size, h.size']
    by_cases last : id = w.length
    · rw [last, List.getElem?_concat_length] at here
      rw [if_pos last, if_pos last, ← Option.some.inj here]
      exact same
    · have lt : id < (w ++ [region]).length := (List.getElem?_eq_some_iff.mp here).1
      rw [List.length_append, List.length_singleton] at lt
      rw [List.getElem?_append_left (Nat.lt_of_le_of_ne (Nat.le_of_lt_succ lt) last)] at here
      rw [if_neg last, if_neg last]
      exact h.bindings id r here
  functions id f g hf hg := (h.functions id f g hf hg).later (List.prefix_append w [region])

theorem define (h : m.Linked x y w m') {id : ScopeId} {region : Region} {n n' : Name}
    (here : w[id]? = some region) (takes : region.Takes x y n n') (v : Value) :
    ({ m with scopes := m.scopes.define id n v } : Machine).Linked x y w
      { m' with scopes := m'.scopes.define id n' v } where
  twin := ⟨h.twin.arrays, h.twin.input, h.twin.output, h.twin.trace, h.twin.heads⟩
  off := h.off
  names := by rw [Scopes.map_name_define, Scopes.map_name_define, h.names]
  size := by rw [Scopes.size_define, h.size]
  bindings i r there := by
    have lt : i < w.length := (List.getElem?_eq_some_iff.mp there).1
    by_cases same : i = id
    · subst same
      obtain rfl : region = r := Option.some.inj (here.symm.trans there)
      rw [Scopes.bindings_define_self (h.size ▸ lt), Scopes.bindings_define_self (h.size' ▸ lt)]
      exact (h.bindings i region here).put takes v
    · rw [Scopes.bindings_define_of_ne n v same, Scopes.bindings_define_of_ne n' v same]
      exact h.bindings i r there
  functions := h.functions

theorem declare (h : m.Linked x y w m') {id : ScopeId} (pending : w[id]? = some .pending)
    (v : Value) :
    ({ m with scopes := m.scopes.define id x v } : Machine).Linked x y (w.set id .root)
      { m' with scopes := m'.scopes.define id y v } where
  twin := ⟨h.twin.arrays, h.twin.input, h.twin.output, h.twin.trace, h.twin.heads⟩
  off := h.off
  names := by rw [Scopes.map_name_define, Scopes.map_name_define, h.names]
  size := by rw [Scopes.size_define, List.length_set, h.size]
  bindings i r there := by
    have lt : id < w.length := (List.getElem?_eq_some_iff.mp pending).1
    by_cases same : i = id
    · subst same
      rw [List.getElem?_set_self lt] at there
      obtain rfl : Region.root = r := Option.some.inj there
      rw [Scopes.bindings_define_self (h.size ▸ lt), Scopes.bindings_define_self (h.size' ▸ lt)]
      exact (h.bindings i .pending pending).declare v
    · rw [List.getElem?_set_ne (Ne.symm same)] at there
      rw [Scopes.bindings_define_of_ne x v same, Scopes.bindings_define_of_ne y v same]
      exact h.bindings i r there
  functions i f g hf hg := (h.functions i f g hf hg).declare pending

theorem newFunction (h : m.Linked x y w m') {f g : Closure} (related : f.Related x y w g) :
    ({ m with functions := m.functions.push f } : Machine).Linked x y w
      { m' with functions := m'.functions.push g } where
  twin := h.twin.newFunction related.name related.parameters
  off := h.off
  names := h.names
  size := h.size
  bindings := h.bindings
  functions := h.twin.forall_push h.functions related

theorem closure (h : m.Linked x y w m') (id : FunctionId) :
    Option.Rel (fun f g => f.Related x y w g) m.functions[id]? m'.functions[id]? :=
  h.twin.closure h.functions id

end Machine.Linked

end

end Script
