import Script.Proofs.Oversight

/-!
# Names do not leak out of scopes

A scope never loses a name, and its names stay in the order of their first definition. New names get
into the innermost scope of an environment only, and only by a declaration that is executed in it.
An expression, or any other statement, may run bodies of functions and blocks, but these define
names in scopes that are made for them.
-/

namespace Script

namespace Scopes

/-- The names that a scope binds, in the order of first definition. -/
def names (scopes : Scopes) (id : ScopeId) : List Name :=
  (scopes.bindings id).map Prod.fst

/-- Scopes that may come after others: there are no fewer of them, and each one that was there has
its names, in their order and in front of new ones. -/
structure Continues (s s' : Scopes) : Prop where
  size : s.size ≤ s'.size
  kept : ∀ id < s.size, s.names id <+: s'.names id

/-- Scopes that come after others, and only the scope `inner?` may have new names. -/
structure Grows (inner? : Option ScopeId) (s s' : Scopes) : Prop extends Continues s s' where
  closed : ∀ id < s.size, inner? ≠ some id → s'.names id = s.names id

theorem Continues.refl (s : Scopes) : Continues s s where
  size := Nat.le_refl _
  kept _ _ := List.prefix_refl _

theorem Continues.trans {s s' s'' : Scopes} (h : Continues s s') (h' : Continues s' s'') :
    Continues s s'' where
  size := Nat.le_trans h.size h'.size
  kept id lt := (h.kept id lt).trans (h'.kept id (Nat.lt_of_lt_of_le lt h.size))

namespace Grows
variable {inner? : Option ScopeId} {s s' s'' : Scopes}

theorem of_names_eq (size : s.size ≤ s'.size) (same : ∀ id < s.size, s'.names id = s.names id) :
    Grows inner? s s' where
  size := size
  kept id lt := (same id lt).symm ▸ List.prefix_refl _
  closed id lt _ := same id lt

theorem refl (s : Scopes) : Grows inner? s s :=
  of_names_eq (Nat.le_refl _) fun _ _ => rfl

theorem trans (h : Grows inner? s s') (h' : Grows inner? s' s'') : Grows inner? s s'' where
  toContinues := h.toContinues.trans h'.toContinues
  closed id lt other := by
    rw [h'.closed id (Nat.lt_of_lt_of_le lt h.size) other, h.closed id lt other]

theorem widen (h : Grows none s s') : Grows inner? s s' :=
  of_names_eq h.size fun id lt => h.closed id lt nofun

end Grows

theorem bindings_make (s : Scopes) (name : Name) (b : Bindings) (id : ScopeId) :
    bindings (s.make name b).2 id = if id = s.size then b else s.bindings id := by
  simp only [make, bindings, Array.getElem?_push]
  split <;> rfl

theorem size_make (s : Scopes) (name : Name) (b : Bindings) :
    (s.make name b).2.size = s.size + 1 :=
  Array.size_push _

theorem names_make_of_lt {s : Scopes} {id : ScopeId} (name : Name) (b : Bindings)
    (lt : id < s.size) : names (s.make name b).2 id = s.names id := by
  rw [names, bindings_make, if_neg (Nat.ne_of_lt lt), names]

theorem Continues.make (s : Scopes) (name : Name) (b : Bindings) :
    Continues s (s.make name b).2 where
  size := by
    rw [size_make]
    exact Nat.le_succ _
  kept _ lt := (names_make_of_lt name b lt).symm ▸ List.prefix_refl _

/-- New names in a scope that has just been made are no new names of older scopes. -/
theorem Grows.of_make {s s' : Scopes} {name : Name} {b : Bindings}
    (h : Grows (some s.size) (s.make name b).2 s') : Grows none s s' := by
  have size : s.size < (s.make name b).2.size := by
    rw [size_make]
    exact Nat.lt_succ_self _
  refine of_names_eq (Nat.le_trans (Nat.le_of_lt size) h.size) fun id lt => ?_
  have other : some s.size ≠ some id := fun same => Nat.ne_of_gt lt (Option.some.inj same)
  rw [h.closed id (Nat.lt_trans lt size) other, names_make_of_lt name b lt]

theorem size_define (s : Scopes) (id : ScopeId) (name : Name) (value : Value) :
    (s.define id name value).size = s.size :=
  Array.size_modify

theorem bindings_define_of_ne {s : Scopes} {id id' : ScopeId} (name : Name) (value : Value)
    (other : id' ≠ id) : (s.define id name value).bindings id' = s.bindings id' := by
  rw [bindings, define, Array.getElem?_modify, if_neg (Ne.symm other), bindings]

theorem names_define_of_ne {s : Scopes} {id id' : ScopeId} (name : Name) (value : Value)
    (other : id' ≠ id) : names (s.define id name value) id' = s.names id' := by
  rw [names, bindings_define_of_ne name value other, names]

theorem bindings_define_self {s : Scopes} {id : ScopeId} (lt : id < s.size) (name : Name)
    (value : Value) : (s.define id name value).bindings id = (s.bindings id).put name value := by
  rw [bindings, define, Array.getElem?_modify, if_pos rfl, bindings, Array.getElem?_eq_getElem lt]
  rfl

/-- What a definition does: it binds one name in one scope, where the name comes last if it is new.
Other names in this scope keep their values, and all other scopes are as they were. -/
structure Defines (id : ScopeId) (name : Name) (value : Value) (s s' : Scopes) : Prop where
  names : name ∈ s.names id ∧ s'.names id = s.names id ∨
    name ∉ s.names id ∧ s'.names id = s.names id ++ [name]
  bound : (s'.bindings id).get? name = some value
  same : ∀ other, other ≠ name → (s'.bindings id).get? other = (s.bindings id).get? other
  others : ∀ id', id' ≠ id → s'.bindings id' = s.bindings id'

theorem defines_define {s : Scopes} {id : ScopeId} (lt : id < s.size) (name : Name)
    (value : Value) : Defines id name value s (s.define id name value) where
  names := by
    rw [Scopes.names, Scopes.names, bindings_define_self lt]
    by_cases mem : name ∈ (s.bindings id).map Prod.fst
    · exact .inl ⟨mem, Bindings.names_put_of_mem value mem⟩
    · exact .inr ⟨mem, Bindings.names_put_of_not_mem value mem⟩
  bound := by
    rw [bindings_define_self lt]
    exact Bindings.get?_put_self _ name value
  same other differs := by
    rw [bindings_define_self lt]
    exact Bindings.get?_put_of_ne _ value differs
  others _ differs := bindings_define_of_ne name value differs

theorem Grows.define (s : Scopes) (id : ScopeId) (name : Name) (value : Value) :
    Grows (some id) s (s.define id name value) where
  size := Nat.le_of_eq (size_define s id name value).symm
  kept id' lt := by
    by_cases same : id' = id
    · subst same
      rcases (defines_define lt name value).names with ⟨-, kept⟩ | ⟨-, added⟩
      · exact kept.symm ▸ List.prefix_refl _
      · exact added.symm ▸ List.prefix_append _ _
    · exact (names_define_of_ne name value same).symm ▸ List.prefix_refl _
  closed id' _ other := names_define_of_ne name value fun same => other (by rw [same])

theorem mem_names_of_find? {s : Scopes} {name : Name} {env : Env} {id : ScopeId}
    (h : s.find? name env = some id) : name ∈ s.names id := by
  have bound := List.find?_some h
  obtain ⟨value, found⟩ := Option.isSome_iff_exists.mp bound
  obtain ⟨front, back, same, -⟩ := List.lookup_eq_some_iff.mp found
  rw [names, same]
  simp

theorem lt_size_of_mem_names {s : Scopes} {id : ScopeId} {name : Name}
    (mem : name ∈ s.names id) : id < s.size := by
  by_contra outside
  rw [names, bindings, Array.getElem?_eq_none (Nat.le_of_not_lt outside)] at mem
  cases mem

theorem names_define_of_mem {s : Scopes} {id : ScopeId} {name : Name} (value : Value)
    (mem : name ∈ s.names id) (id' : ScopeId) :
    names (s.define id name value) id' = s.names id' := by
  by_cases same : id' = id
  · subst same
    rw [names, bindings_define_self (lt_size_of_mem_names mem), Bindings.names_put_of_mem value mem]
    rfl
  · exact names_define_of_ne name value same

theorem Grows.assign {s : Scopes} {id : ScopeId} {name : Name} (value : Value)
    (mem : name ∈ s.names id) : Grows none s (s.define id name value) :=
  of_names_eq (Nat.le_of_eq (size_define s id name value).symm) fun id' _ =>
    names_define_of_mem value mem id'

end Scopes

/-! ### Steps -/

/-- A step that gives new names to one of the scopes that exist, if to any. -/
def Eval.Names {α : Type} (inner? : Option ScopeId) (x : Eval α) : Prop :=
  ∀ m : Machine, m.scopes.Grows inner? (Eval.final (x m)).scopes

namespace Eval.Names
variable {α : Type} {inner? : Option ScopeId}

theorem of_scopes_eq {x : Eval α} (same : ∀ m, (Eval.final (x m)).scopes = m.scopes) :
    Names inner? x := by
  intro m
  rw [same]
  exact .refl m.scopes

theorem looks {x : Eval α} (h : Eval.Looks x) : Names inner? x := by
  refine of_scopes_eq fun m => ?_
  obtain ⟨t, left⟩ := h m
  rw [left]

theorem builtin (b : Builtin) (arguments : List Value) : Names inner? (b.call arguments) :=
  of_scopes_eq fun m => (Builtin.does_call m b arguments).scopes.1

theorem newArray (elements : Array Value) : Names inner? (Eval.newArray elements) :=
  of_scopes_eq fun _ => rfl

theorem newFunction (name : Name) (parameters : List Name) (body : List Decl) (env : Env) :
    Names inner? (Eval.newFunction name parameters body env) :=
  of_scopes_eq fun _ => rfl

theorem define (env : Env) (name : Name) (value : Value) :
    Names env.head? (Eval.define env name value) := by
  intro m
  cases env with
  | nil => exact .refl m.scopes
  | cons id env => exact .define m.scopes id name value

theorem assign (env : Env) (name : Name) (value : Value) :
    Names none (Eval.assign env name value) := by
  intro m
  rcases Eval.assign_cases env name value m with ⟨id, found, done⟩ | ⟨-, done⟩
  · rw [done]
    exact .assign value (Scopes.mem_names_of_find? found)
  · rw [done]
    exact .refl m.scopes

end Eval.Names

/-! ### Evaluation -/

def Course.names : Course Scopes where
  moves env? s s' := s.Grows (env?.bind List.head?) s'
  refl _ := .refl
  trans := .trans
  widen := .widen

def Logged.Has (scopes : Scopes) (s : Logged Moment) : Prop :=
  s.machine.scopes = scopes

namespace Narrated
variable {α : Type} {env? : Option Env} {scopes : Scopes}

abbrev Names (env? : Option Env) (scopes : Scopes) (x : Narrated α) : Prop :=
  Maintains Course.names Logged.Has env? scopes x fun _ _ => True

namespace Names

theorem step {x : Eval α} (h : Eval.Names (env?.bind List.head?) x) :
    Names env? scopes (Narrated.step x) := by
  refine Maintains.step fun s viewed => ?_
  have grows := h s.machine
  rw [viewed] at grows
  cases hs : x s.machine with
  | ok a m =>
      rw [hs] at grows
      exact ⟨m.scopes, grows, rfl, trivial⟩
  | error reason m =>
      rw [hs] at grows
      exact ⟨m.scopes, grows, rfl⟩

theorem tell (moment : Moment) : Names env? scopes (Narrated.tell moment) :=
  Maintains.tell (P := fun _ => True) fun _ viewed => ⟨scopes, .refl scopes, viewed, trivial⟩

end Names

/-- What is done in a scope that has just been made gives no names to the scopes before it. -/
theorem maintains_newScope {Q : Scopes → α → Prop} {f : Env → Narrated α} (name : Name)
    (bindings : Bindings) (env : Env)
    (hf : ∀ scopes env, Maintains Course.names Logged.Has (some env) scopes (f env) Q) :
    Maintains Course.names Logged.Has none scopes
      (Narrated.step (Eval.newScope name bindings env) >>= f) Q := by
  intro s viewed
  -- what follows starts in a state with one more scope, whose names do not count for the others
  obtain ⟨m, new, made⟩ : ∃ m : Machine, m.scopes = (s.machine.scopes.make name bindings).2 ∧
      Eval.newScope name bindings env s.machine = .ok (s.machine.scopes.size :: env) m :=
    ⟨_, rfl, rfl⟩
  rw [bind_of_ok (step_of_ok made), ← viewed]
  have left := hf _ (s.machine.scopes.size :: env) ⟨m, s.log ++ [.stepped m]⟩ new
  generalize f _ _ = result at left
  cases result with
  | ok a t =>
      obtain ⟨scopes', grows, rest⟩ := left
      exact ⟨scopes', Scopes.Grows.of_make grows, rest⟩
  | error reason t =>
      obtain ⟨scopes', grows, rest⟩ := left
      exact ⟨scopes', Scopes.Grows.of_make grows, rest⟩

end Narrated

open Narrated in
theorem Oversees.names :
    Oversees Course.names (fun _ _ => True) (fun _ _ => True) Logged.Has where
  later_of_moves _ := trivial
  env_mono _ _ := trivial
  blind _ viewed := viewed
  looks _ looks := Names.step (.looks looks)
  tell _ _ := Names.tell _
  newArray _ elements := Names.step (.newArray elements)
  newScope {_ _ env _ _} name bindings _ hf :=
    maintains_newScope name bindings env fun scopes env => hf scopes env trivial trivial
  define {_ env} name value _ := Names.step (.define env name value)
  assign {_ env} name value _ := Names.step (.assign env name value)
  newFunction {_ env} name parameters body _ := Names.step (.newFunction name parameters body env)
  closure _ id := (Names.step (.looks (Eval.looks_closure id))).imp fun _ _ _ _ _ => trivial
  builtin _ b arguments := (Names.tell _).bind fun _ _ _ _ =>
    (Names.step (.builtin b arguments)).bind fun _ _ _ _ =>
      (Names.tell _).bind fun _ _ _ _ => .pure trivial

/-! ### Executions -/

theorem Narrated.Shadows.grows {α : Type} {x : Eval α} {y : Narrated α} (h : Shadows x y)
    {env? : Option Env} {m : Machine} (named : Names env? m.scopes y) :
    m.scopes.Grows (env?.bind List.head?) (Eval.final (x m)).scopes := by
  obtain ⟨scopes, grows, same⟩ := named.final ⟨m, []⟩ rfl
  have left := h.machine_final ⟨m, []⟩
  dsimp only at left
  rw [← left, same]
  exact grows

section Executions
variable (budget : Budget) (env : Env) (m : Machine)

theorem grows_evalExpr (e : Expr) :
    m.scopes.Grows none (Eval.final (evalExpr budget.caller env e m)).scopes :=
  (Narrated.shadows_evalExpr budget env e).grows (Oversees.names.evalExpr budget trivial e)

theorem grows_execStmt (s : Stmt) :
    m.scopes.Grows ((env.opened s.declares).bind List.head?)
      (Eval.final (execStmt budget.caller budget.rounds env s m)).scopes :=
  (Narrated.shadows_execStmt budget env s).grows (Oversees.names.execStmt budget trivial s)

theorem grows_execBody (body : List Decl) :
    m.scopes.Grows env.head?
      (Eval.final (execBody budget.caller budget.rounds env body m)).scopes :=
  (Narrated.shadows_execBody budget env body).grows (Oversees.names.execBody budget trivial body)

/-- A statement in which no declaration stands in place of a block defines no name where it is
executed. -/
theorem grows_execStmt_of_not_declares {s : Stmt} (other : s.declares = false) :
    m.scopes.Grows none (Eval.final (execStmt budget.caller budget.rounds env s m)).scopes := by
  have grows := grows_execStmt budget env m s
  rwa [other] at grows

/-- A variable is defined in the innermost scope with the value of its initializer, unless this
fails or halts. The initializer itself defines no name, and if it fails or halts none is defined. -/
theorem execStmt_declare {id : ScopeId} {m : Machine} (lt : id < m.scopes.size) (name : Name)
    (e : Expr) :
    let execution := execStmt budget.caller budget.rounds (id :: env) (.declare name e) m
    (∃ v m₁ m', evalExpr budget.caller (id :: env) e m = .ok v m₁ ∧ v.kind ≠ .error ∧
        m.scopes.Grows none m₁.scopes ∧ execution = .ok .normal m' ∧
        m₁.scopes.Defines id name v m'.scopes) ∨
      ((∀ v m₁, evalExpr budget.caller (id :: env) e m = .ok v m₁ → v.kind = .error) ∧
        m.scopes.Grows none (Eval.final execution).scopes) := by
  have grows := grows_evalExpr budget (id :: env) m e
  rw [execStmt]
  cases he : evalExpr budget.caller (id :: env) e m with
  | error reason m₁ =>
      rw [he] at grows
      rw [onValue_of_error he]
      refine .inr ⟨fun v m' same => ?_, grows⟩
      cases same
  | ok v m₁ =>
      rw [he] at grows
      by_cases failed : v.kind = .error
      · cases v with
        | error failure =>
            rw [onValue_of_failure he]
            refine .inr ⟨fun v _ same => ?_, grows⟩
            cases same
            rfl
        | _ => cases failed
      · rw [onValue_of_ok he failed]
        have lt' : id < m₁.scopes.size := Nat.lt_of_lt_of_le lt grows.size
        exact .inl ⟨v, m₁, _, rfl, failed, grows, rfl, Scopes.defines_define lt' name v⟩

/-- A function is defined in the innermost scope, and nothing else is done to scopes. -/
theorem execDecl_function {id : ScopeId} {m : Machine} (lt : id < m.scopes.size) (name : Name)
    (parameters : List Name) (body : List Decl) :
    ∃ m', execDecl budget.caller budget.rounds (id :: env) (.function name parameters body) m =
        .ok .normal m' ∧ m.scopes.Defines id name (.function m.functions.size) m'.scopes :=
  ⟨_, rfl, Scopes.defines_define lt name _⟩

end Executions

end Script
