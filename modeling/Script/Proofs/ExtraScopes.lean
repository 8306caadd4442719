import Script.Proofs.CodeSimulation
import Script.Proofs.ScopePaths
import Script.Proofs.ScopedUpkeep

/-!
# Extra scopes

A statement that defines no name where it stands may be put into a block of its own. The two
programs then make different scopes, and closures and environments of the one run lead through
scopes that the other run does not have.

Such a scope is of one of two kinds. If a statement is put into a block, an empty scope stands
around it, in which nothing is ever defined. If the whole body of a function is put into a block,
then what the body defines goes into the new scope instead of the one of the call, and both of them
together have the bindings of the one scope of the other run.
-/

namespace Script

/-! ### Statements in blocks of their own -/

mutual

/-- Statements where the first, or one that is contained in it, is in a block of its own in the
second. What defines a name where it stands is not put into a block, as what follows would not see
the name. -/
inductive Stmt.Wrapped : Stmt → Stmt → Prop
  | here {s : Stmt} : s.declares = false → Stmt.Wrapped s (.block [.stmt s])
  | block {body body' : List Decl} : ListedWrapped body body' →
      Stmt.Wrapped (.block body) (.block body')
  | branch (condition : Expr) {body body' : Stmt} (otherwise : Otherwise) :
      Stmt.Wrapped body body' →
      Stmt.Wrapped (.branch condition body otherwise) (.branch condition body' otherwise)
  | otherwise (condition : Expr) (body : Stmt) {s s' : Stmt} : Stmt.Wrapped s s' →
      Stmt.Wrapped (.branch condition body (.stmt s)) (.branch condition body (.stmt s'))
  | loop (condition : Expr) {body body' : Stmt} : Stmt.Wrapped body body' →
      Stmt.Wrapped (.loop condition body) (.loop condition body')

inductive Decl.Wrapped : Decl → Decl → Prop
  | function (name : Name) (parameters : List Name) {body body' : List Decl} :
      BodyWrapped body body' →
      Decl.Wrapped (.function name parameters body) (.function name parameters body')
  | stmt {s s' : Stmt} : Stmt.Wrapped s s' → Decl.Wrapped (.stmt s) (.stmt s')

/-- The body of a function is a block and may be put into another one. -/
inductive BodyWrapped : List Decl → List Decl → Prop
  | whole (body : List Decl) : BodyWrapped body [.stmt (.block body)]
  | inside {body body' : List Decl} : ListedWrapped body body' → BodyWrapped body body'

inductive ListedWrapped : List Decl → List Decl → Prop
  | first {d d' : Decl} (rest : List Decl) : Decl.Wrapped d d' →
      ListedWrapped (d :: rest) (d' :: rest)
  | later (d : Decl) {rest rest' : List Decl} : ListedWrapped rest rest' →
      ListedWrapped (d :: rest) (d :: rest')

end

/-- Programs where a statement is in a block of its own in the second. -/
def Program.Wrapped (program program' : Program) : Prop :=
  ListedWrapped program program'

/-! ### Scopes that stand for others -/

theorem getElem?_concat_cases {α : Type} {l : List α} {i : Nat} {a b : α}
    (h : (l ++ [a])[i]? = some b) : i = l.length ∧ b = a ∨ l[i]? = some b := by
  by_cases last : i = l.length
  · rw [last, List.getElem?_concat_length] at h
    exact .inl ⟨last, (Option.some.inj h).symm⟩
  · have lt : i < (l ++ [a]).length := (List.getElem?_eq_some_iff.mp h).1
    rw [List.length_append, List.length_singleton] at lt
    rw [List.getElem?_append_left (by omega)] at h
    exact .inr h

/-- What the scopes of the second run stand for. `owners` says of each of them which scope of the
first run it belongs to, or that it is extra, and `groups` has for each scope of the first run those
that belong to it, the innermost first. The global scopes correspond to each other. -/
structure Layout where
  owners : List (Option ScopeId)
  groups : List (List ScopeId)
  owned {i : ScopeId} {group : List ScopeId} : groups[i]? = some group →
    group ≠ [] ∧ ∀ k ∈ group, owners[k]? = some (some i)
  global : groups[Machine.globalScope]? = some [Machine.globalScope]

/-- An environment of the second run that stands for one of the first run: it consists of the groups
of its scopes, with extra scopes between them. -/
inductive Layout.Stands (w : Layout) : Env → Env → Prop
  | nil : w.Stands [] []
  | extra {k : ScopeId} {env env' : Env} : w.owners[k]? = some none → w.Stands env env' →
      w.Stands env (k :: env')
  | group {i : ScopeId} {group : List ScopeId} {env env' : Env} : w.groups[i]? = some group →
      w.Stands env env' → w.Stands (i :: env) (group ++ env')

/-- The same where the innermost scope is not extra, so that definitions go into corresponding
scopes. -/
inductive Layout.Opens (w : Layout) : Env → Env → Prop
  | group {i : ScopeId} {group : List ScopeId} {env env' : Env} : w.groups[i]? = some group →
      w.Stands env env' → w.Opens (i :: env) (group ++ env')

/-- A layout with more scopes. -/
structure Layout.Later (w w' : Layout) : Prop where
  owners : w.owners <+: w'.owners
  groups : w.groups <+: w'.groups

namespace Layout
variable {w w' w'' : Layout} {env env' : Env}

theorem Later.refl (w : Layout) : w.Later w :=
  ⟨List.prefix_refl _, List.prefix_refl _⟩

theorem Later.trans (h : w.Later w') (h' : w'.Later w'') : w.Later w'' :=
  ⟨h.owners.trans h'.owners, h.groups.trans h'.groups⟩

theorem Stands.later (h : w.Stands env env') (le : w.Later w') : w'.Stands env env' := by
  induction h with
  | nil => exact .nil
  | extra spare _ ih => exact .extra (getElem?_of_later le.owners spare) ih
  | group there _ ih => exact .group (getElem?_of_later le.groups there) ih

theorem Opens.stands (h : w.Opens env env') : w.Stands env env' := by
  cases h with
  | group there stands => exact .group there stands

theorem Opens.later (h : w.Opens env env') (le : w.Later w') : w'.Opens env env' := by
  cases h with
  | group there stands => exact .group (getElem?_of_later le.groups there) (stands.later le)

theorem global_lt_owners (w : Layout) : Machine.globalScope < w.owners.length :=
  (List.getElem?_eq_some_iff.mp ((w.owned w.global).2 _ List.mem_cons_self)).1

theorem global_lt_groups (w : Layout) : Machine.globalScope < w.groups.length :=
  (List.getElem?_eq_some_iff.mp w.global).1

/-- Only the global scopes, at the start of both runs. -/
def start : Layout where
  owners := [some Machine.globalScope]
  groups := [[Machine.globalScope]]
  owned {i group} there := by
    cases i with
    | zero =>
        obtain rfl : [Machine.globalScope] = group := Option.some.inj there
        refine ⟨nofun, fun k mem => ?_⟩
        rw [List.mem_singleton.mp mem]
        rfl
    | succ i => cases there
  global := rfl

/-- An extra scope in the second run. -/
def spare (w : Layout) : Layout where
  owners := w.owners ++ [none]
  groups := w.groups
  owned there := ⟨(w.owned there).1, fun k mem =>
    getElem?_of_later (List.prefix_append _ _) ((w.owned there).2 k mem)⟩
  global := w.global

/-- The scopes that the second run makes next, the innermost first. -/
def fresh (w : Layout) (inner : Nat) : List ScopeId :=
  (List.range' w.owners.length (inner + 1)).reverse

/-- A new scope of the first run for which as many scopes as in `inner`, and one around them, are
made in the second run. -/
def push (w : Layout) (inner : Nat) : Layout where
  owners := w.owners ++ List.replicate (inner + 1) (some w.groups.length)
  groups := w.groups ++ [w.fresh inner]
  owned {i group} there := by
    obtain ⟨rfl, rfl⟩ | there := getElem?_concat_cases there
    · refine ⟨?_, fun k mem => ?_⟩
      · exact fun empty => by simpa [fresh] using congrArg List.length empty
      · have range := List.mem_range'_1.mp (List.mem_reverse.mp mem)
        rw [List.getElem?_append_right range.1, List.getElem?_replicate, if_pos (by omega)]
    · exact ⟨(w.owned there).1, fun k mem =>
        getElem?_of_later (List.prefix_append _ _) ((w.owned there).2 k mem)⟩
  global := getElem?_of_later (List.prefix_append _ _) w.global

theorem later_spare (w : Layout) : w.Later w.spare :=
  ⟨List.prefix_append _ _, List.prefix_refl _⟩

theorem later_push (w : Layout) (inner : Nat) : w.Later (w.push inner) :=
  ⟨List.prefix_append _ _, List.prefix_append _ _⟩

theorem Stands.spare (h : w.Stands env env') : w.spare.Stands env (w.owners.length :: env') :=
  .extra List.getElem?_concat_length (h.later w.later_spare)

theorem Stands.push (h : w.Stands env env') (inner : Nat) :
    (w.push inner).Opens (w.groups.length :: env) (w.fresh inner ++ env') :=
  .group List.getElem?_concat_length (h.later (w.later_push inner))

end Layout

/-! ### Machines -/

/-- Functions of the two runs: the same, or with a body in which a statement is in a block of its
own. -/
structure Closure.Widened (w : Layout) (f g : Closure) : Prop where
  name : g.name = f.name
  parameters : g.parameters = f.parameters
  env : w.Stands f.env g.env
  body : g.body = f.body ∨ BodyWrapped f.body g.body

/-- Two machines of which the second has the scopes of a layout. -/
structure Machine.Widened (w : Layout) (m m' : Machine) : Prop where
  twin : m.Twin m'
  size : m.scopes.size = w.groups.length
  size' : m'.scopes.size = w.owners.length
  global : m'.scopes[globalScope]? = m.scopes[globalScope]?
  extra (k : ScopeId) : w.owners[k]? = some none → m'.scopes.bindings k = []
  group (i : ScopeId) (group : List ScopeId) : w.groups[i]? = some group →
    ∀ n, m'.scopes.lookup? group n = (m.scopes.bindings i).get? n
  functions (id : FunctionId) (f g : Closure) : m.functions[id]? = some f →
    m'.functions[id]? = some g → f.Widened w g

theorem Closure.Widened.later {w w' : Layout} {f g : Closure} (h : f.Widened w g)
    (le : w.Later w') : f.Widened w' g where
  name := h.name
  parameters := h.parameters
  env := h.env.later le
  body := h.body

/-- The same fate of a name in two environments: it is bound in neither, or in a scope of the first
run and in its group. -/
inductive Machine.Meets (w : Layout) (m m' : Machine) (env env' : Env) (n : Name) : Prop
  | unbound : m.scopes.find? n env = none → m'.scopes.find? n env' = none →
      Machine.Meets w m m' env env' n
  | bound {i k : ScopeId} {front back : List ScopeId} : m.scopes.find? n env = some i →
      m'.scopes.find? n env' = some k → w.groups[i]? = some (front ++ k :: back) →
      (∀ j ∈ front, (m'.scopes.bindings j).get? n = none) → Machine.Meets w m m' env env' n

namespace Machine.Widened
variable {w : Layout} {m m' : Machine} {env env' : Env}

theorem initial (input : Input) (trace : Trace) :
    (Machine.initial input trace).Widened .start (.initial input trace) where
  twin := .refl _
  size := rfl
  size' := rfl
  global := rfl
  extra k spare := by
    cases k with
    | zero => cases spare
    | succ k => cases spare
  group i group there n := by
    cases i with
    | zero =>
        obtain rfl : [globalScope] = group := Option.some.inj there
        rfl
    | succ i => cases there
  functions id f g hf _ := by cases hf

/-- A name means the same in both runs. -/
theorem lookup? (h : m.Widened w m') (stands : w.Stands env env') (n : Name) :
    m'.scopes.lookup? env' n = m.scopes.lookup? env n := by
  induction stands with
  | nil => rfl
  | extra spare _ ih =>
      rw [Scopes.lookup?_cons, h.extra _ spare, ih]
      rfl
  | group there _ ih => rw [Scopes.lookup?_append, Scopes.lookup?_cons, h.group _ _ there, ih]

theorem meets (h : m.Widened w m') (stands : w.Stands env env') (n : Name) :
    m.Meets w m' env env' n := by
  induction stands with
  | nil => exact .unbound rfl rfl
  | @extra k env env' spare _ ih =>
      have skipped : m'.scopes.find? n (k :: env') = m'.scopes.find? n env' :=
        Scopes.find?_cons_of_none (by rw [h.extra k spare]; rfl) env'
      cases ih with
      | unbound none none' => exact .unbound none (skipped.trans none')
      | bound here here' there free => exact .bound here (skipped.trans here') there free
  | @group i group env env' there _ ih =>
      have value := h.group i group there n
      have inGroup := m'.scopes.isSome_find? group n
      rw [value] at inGroup
      have first : m'.scopes.find? n (group ++ env') =
          (m'.scopes.find? n group).or (m'.scopes.find? n env') := List.find?_append
      cases bound : (m.scopes.bindings i).get? n with
      | some v =>
          rw [bound] at inGroup
          obtain ⟨k, found⟩ := Option.isSome_iff_exists.mp inGroup
          obtain ⟨-, front, back, rfl, free⟩ := List.find?_eq_some_iff_append.mp found
          rw [found] at first
          refine .bound (Scopes.find?_cons_of_some bound env) first there fun j mem => ?_
          simpa using free j mem
      | none =>
          rw [bound] at inGroup
          have skipped := Scopes.find?_cons_of_none bound env
          have none := Option.isNone_iff_eq_none.mp (Option.isSome_eq_false_iff.mp inGroup)
          rw [none] at first
          cases ih with
          | unbound none none' => exact .unbound (skipped.trans none) (first.trans none')
          | bound here here' there free =>
              exact .bound (skipped.trans here) (first.trans here') there free

/-- A definition in a scope of the first run and in its group, where no scope before that of the
definition binds the name. -/
theorem define (h : m.Widened w m') {i k : ScopeId} {front back : List ScopeId}
    (there : w.groups[i]? = some (front ++ k :: back)) {n : Name}
    (free : ∀ j ∈ front, (m'.scopes.bindings j).get? n = none) (v : Value) :
    ({ m with scopes := m.scopes.define i n v } : Machine).Widened w
      { m' with scopes := m'.scopes.define k n v } := by
  have owner : w.owners[k]? = some (some i) :=
    (w.owned there).2 k (List.mem_append_right _ List.mem_cons_self)
  have lt : k < m'.scopes.size := h.size' ▸ (List.getElem?_eq_some_iff.mp owner).1
  have lt' : i < m.scopes.size := h.size ▸ (List.getElem?_eq_some_iff.mp there).1
  refine
    { twin := ⟨h.twin.arrays, h.twin.input, h.twin.output, h.twin.trace, h.twin.heads⟩
      size := (m.scopes.size_define i n v).trans h.size
      size' := (m'.scopes.size_define k n v).trans h.size'
      global := ?_
      extra := fun j spare => ?_
      group := fun j group there' x => ?_
      functions := h.functions }
  · have globalOwner := (w.owned w.global).2 globalScope List.mem_cons_self
    by_cases here : i = globalScope
    · subst here
      obtain ⟨rfl, rfl, -⟩ : front = [] ∧ k = globalScope ∧ back = [] := by
        have same := Option.some.inj (there.symm.trans w.global)
        cases front <;> simp_all
      rw [Scopes.define, Scopes.define, Array.getElem?_modify, Array.getElem?_modify, h.global]
    · have other : k ≠ globalScope := by
        rintro rfl
        exact here (Option.some.inj (Option.some.inj (owner.symm.trans globalOwner)))
      rw [Scopes.define, Scopes.define, Array.getElem?_modify, Array.getElem?_modify, if_neg here,
        if_neg other, h.global]
  · have other : j ≠ k := by
      rintro rfl
      cases owner.symm.trans spare
    exact (Scopes.bindings_define_of_ne n v other).trans (h.extra j spare)
  · by_cases here : j = i
    · subst here
      obtain rfl : front ++ k :: back = group := Option.some.inj (there.symm.trans there')
      rw [Scopes.bindings_define_self lt']
      by_cases same : x = n
      · rw [same, Scopes.lookup?_define_self lt free, Bindings.get?_put_self]
      · rw [Scopes.lookup?_define_of_ne same, Bindings.get?_put_of_ne _ v same]
        exact h.group j _ there x
    · have outside : ∀ id ∈ group, id ≠ k := by
        rintro id mem rfl
        exact here (Option.some.inj
          (Option.some.inj (((w.owned there').2 id mem).symm.trans owner)))
      rw [Scopes.bindings_define_of_ne n v here, ← h.group j group there' x]
      exact Scopes.lookup?_of_same
        (fun id mem => Scopes.bindings_define_of_ne n v (outside id mem)) x

/-- Scopes that are made next do not change what stands for older ones. -/
theorem lookup?_older (h : m.Widened w m') {s : Scopes}
    (kept : ∀ k < w.owners.length, s[k]? = m'.scopes[k]?) {i : ScopeId} {group : List ScopeId}
    (there : w.groups[i]? = some group) (n : Name) :
    s.lookup? group n = (m.scopes.bindings i).get? n := by
  rw [← h.group i group there n]
  refine Scopes.lookup?_of_same (fun k mem => ?_) n
  have lt := (List.getElem?_eq_some_iff.mp ((w.owned there).2 k mem)).1
  rw [Scopes.bindings, kept k lt, Scopes.bindings]

/-- An extra scope in the second run. -/
theorem spare (h : m.Widened w m') (name : Name) :
    m.Widened w.spare { m' with scopes := (m'.scopes.make name []).2 } where
  twin := ⟨h.twin.arrays, h.twin.input, h.twin.output, h.twin.trace, h.twin.heads⟩
  size := h.size
  size' := by
    rw [Scopes.size_make, h.size', Layout.spare, List.length_append, List.length_singleton]
  global := by
    rw [← h.global]
    exact Scopes.getElem?_make_of_lt name [] (h.size' ▸ w.global_lt_owners)
  extra k spare := by
    rw [Scopes.bindings_make]
    split
    · rfl
    · next other =>
        obtain ⟨last, -⟩ | spare := getElem?_concat_cases spare
        · exact absurd (last.trans h.size'.symm) other
        · exact h.extra k spare
  group _ _ there n := h.lookup?_older
    (fun _ lt => Scopes.getElem?_make_of_lt name [] (h.size' ▸ lt)) there n
  functions id f g hf hg := (h.functions id f g hf hg).later w.later_spare

/-- A scope of the first run, and in the second run scopes in which names mean the same. -/
theorem push (h : m.Widened w m') (name : Name) (b : Bindings) {inner : Nat} {s : Scopes}
    (size : s.size = w.owners.length + (inner + 1))
    (kept : ∀ k < w.owners.length, s[k]? = m'.scopes[k]?)
    (same : ∀ n, s.lookup? (w.fresh inner) n = b.get? n) :
    ({ m with scopes := (m.scopes.make name b).2 } : Machine).Widened (w.push inner)
      { m' with scopes := s } where
  twin := ⟨h.twin.arrays, h.twin.input, h.twin.output, h.twin.trace, h.twin.heads⟩
  size := by
    rw [Scopes.size_make, h.size, Layout.push, List.length_append, List.length_singleton]
  size' := by
    rw [size, Layout.push, List.length_append, List.length_replicate]
  global := by
    rw [kept _ w.global_lt_owners, h.global]
    exact (Scopes.getElem?_make_of_lt name b (h.size ▸ w.global_lt_groups)).symm
  extra k spare := by
    have older : w.owners[k]? = some none := by
      rw [Layout.push, List.getElem?_append] at spare
      split at spare
      · exact spare
      · cases (List.mem_replicate.mp (List.mem_of_getElem? spare)).2
    have lt := (List.getElem?_eq_some_iff.mp older).1
    rw [Scopes.bindings, kept k lt]
    exact h.extra k older
  group i group there n := by
    obtain ⟨rfl, rfl⟩ | there := getElem?_concat_cases there
    · rw [Scopes.bindings_make, if_pos h.size.symm]
      exact same n
    · have lt : i < m.scopes.size := h.size ▸ (List.getElem?_eq_some_iff.mp there).1
      rw [Scopes.bindings_make, if_neg (Nat.ne_of_lt lt)]
      exact h.lookup?_older kept there n
  functions id f g hf hg := (h.functions id f g hf hg).later (w.later_push inner)

/-- A scope with the same bindings in both runs. -/
theorem pushOne (h : m.Widened w m') (name : Name) (b : Bindings) :
    ({ m with scopes := (m.scopes.make name b).2 } : Machine).Widened (w.push 0)
      { m' with scopes := (m'.scopes.make name b).2 } := by
  refine h.push name b ?_ (fun _ lt => Scopes.getElem?_make_of_lt name b (h.size' ▸ lt))
    fun n => ?_
  · rw [Scopes.size_make, h.size']
  · change Scopes.lookup? _ [w.owners.length] n = _
    rw [Scopes.lookup?_cons, Scopes.bindings_make, if_pos h.size'.symm]
    exact Option.or_none

/-- A scope, and in the second run another one inside it, which is empty. -/
theorem pushTwo (h : m.Widened w m') (name name' : Name) (b : Bindings) :
    ({ m with scopes := (m.scopes.make name b).2 } : Machine).Widened (w.push 1)
      { m' with scopes := ((m'.scopes.make name b).2.make name' []).2 } := by
  have size : (m'.scopes.make name b).2.size = w.owners.length + 1 := by
    rw [Scopes.size_make, h.size']
  refine h.push name b ?_ (fun k lt => ?_) fun n => ?_
  · rw [Scopes.size_make, size]
  · rw [Scopes.getElem?_make_of_lt name' [] (size ▸ Nat.lt_succ_of_lt lt),
      Scopes.getElem?_make_of_lt name b (h.size' ▸ lt)]
  · have inner : Scopes.bindings ((m'.scopes.make name b).2.make name' []).2
        (w.owners.length + 1) = [] := by
      rw [Scopes.bindings_make, if_pos size.symm]
    have outer : Scopes.bindings ((m'.scopes.make name b).2.make name' []).2
        w.owners.length = b := by
      have older : w.owners.length ≠ (m'.scopes.make name b).2.size := by
        rw [size]
        exact Nat.ne_of_lt (Nat.lt_succ_self _)
      rw [Scopes.bindings_make, if_neg older, Scopes.bindings_make, if_pos h.size'.symm]
    change Scopes.lookup? _ [w.owners.length + 1, w.owners.length] n = _
    rw [Scopes.lookup?_cons, Scopes.lookup?_cons, inner, outer]
    exact Option.or_none

/-- A new function in both runs. -/
theorem newFunction (h : m.Widened w m') {f g : Closure} (related : f.Widened w g) :
    ({ m with functions := m.functions.push f } : Machine).Widened w
      { m' with functions := m'.functions.push g } where
  twin := h.twin.newFunction related.name related.parameters
  size := h.size
  size' := h.size'
  global := h.global
  extra := h.extra
  group := h.group
  functions := h.twin.forall_push h.functions related

/-- A function has a related function in the other run. -/
theorem closure (h : m.Widened w m') (id : FunctionId) :
    Option.Rel (Closure.Widened w) m.functions[id]? m'.functions[id]? :=
  h.twin.closure h.functions id

end Machine.Widened

end Script
