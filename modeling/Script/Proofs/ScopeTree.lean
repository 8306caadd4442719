import Mathlib.Data.List.Infix
import Script.Proofs.ScopeNames
import Script.Proofs.SourceForm

/-!
# The tree of scopes

A scope is made inside an environment, and the scopes of this environment are around it for good. So
the environments that are used in a run are paths of one tree, which only grows and in which all
paths go down to the global scope. Together with what is known about names this means that scopes do
not leak.
-/

namespace Script

/-- For each scope the environment in which it is made. -/
abbrev ScopeTree := List Env

namespace ScopeTree

/-- An environment that leads from a scope through all scopes around it. -/
def Path (tree : ScopeTree) : Env → Prop
  | [] => False
  | id :: around => tree[id]? = some around

/-- The global scope is inside no other one, and every other scope is made inside older ones. -/
structure Rooted (tree : ScopeTree) : Prop where
  root : tree[Machine.globalScope]? = some []
  older : ∀ id around, tree[id]? = some around → id ≠ Machine.globalScope →
    Path (tree.take id) around

variable {tree tree' : ScopeTree} {env : Env}

theorem lt_of_found {id : ScopeId} {around : Env} (h : tree[id]? = some around) :
    id < tree.length :=
  (List.getElem?_eq_some_iff.mp h).1

theorem path_take_cons_iff {n : Nat} {id : ScopeId} {around : Env} :
    Path (tree.take n) (id :: around) ↔ id < n ∧ tree[id]? = some around := by
  rw [Path, List.getElem?_take]
  by_cases lt : id < n
  · simp [lt]
  · simp [lt]

theorem Path.mono (h : tree.Path env) (le : tree <+: tree') : tree'.Path env := by
  obtain ⟨new, rfl⟩ := le
  cases env with
  | nil => exact h
  | cons id around =>
      rw [Path, List.getElem?_append_left (lt_of_found h)]
      exact h

theorem path_concat (tree : ScopeTree) (around : Env) :
    Path (tree ++ [around]) (tree.length :: around) :=
  List.getElem?_concat_length

namespace Rooted

theorem initial : Rooted [[]] where
  root := rfl
  older _ _ found other := absurd (Nat.lt_one_iff.mp (lt_of_found found)) other

theorem concat (h : tree.Rooted) (path : tree.Path env) : Rooted (tree ++ [env]) where
  root := by rw [List.getElem?_append_left (lt_of_found h.root), h.root]
  older id around found other := by
    -- only the last scope is new, and it is made in `env`
    rcases Nat.lt_or_ge id tree.length with lt | ge
    · rw [List.getElem?_append_left lt] at found
      rw [List.take_append_of_le_length (Nat.le_of_lt lt)]
      exact h.older id around found other
    · have lt := lt_of_found found
      rw [List.length_append, List.length_singleton] at lt
      obtain rfl : id = tree.length := Nat.le_antisymm (Nat.lt_succ_iff.mp lt) ge
      rw [List.getElem?_concat_length] at found
      cases found
      rwa [List.take_left]

/-- From a scope that is made by a program the way leads to the scope in which it is made. -/
theorem next (h : tree.Rooted) {id : ScopeId} {around : Env} (found : tree[id]? = some around)
    (other : id ≠ Machine.globalScope) :
    ∃ next rest, around = next :: rest ∧ next < id ∧ tree[next]? = some rest := by
  have path := h.older id around found other
  cases around with
  | nil => exact path.elim
  | cons next rest => exact ⟨next, rest, rfl, path_take_cons_iff.mp path⟩

/-- From each scope on a path the rest of the path leads through the scopes around it. -/
theorem around_eq (h : tree.Rooted) {id start : ScopeId} {around rest : Env}
    (found : tree[start]? = some rest) (on : id :: around <:+ start :: rest) :
    tree[id]? = some around := by
  induction start using Nat.strongRecOn generalizing rest with
  | ind start ih =>
      rcases List.suffix_cons_iff.mp on with same | further
      · cases same
        exact found
      · by_cases outermost : start = Machine.globalScope
        · subst outermost
          cases h.root.symm.trans found
          exact absurd further.length_le (Nat.not_succ_le_zero _)
        · obtain ⟨next, rest', rfl, lt, found'⟩ := h.next found outermost
          exact ih next lt found' further

/-- Every path goes down through older and older scopes and ends in the global one. -/
theorem descends (h : tree.Rooted) {id : ScopeId} {around : Env}
    (found : tree[id]? = some around) :
    (id :: around).Pairwise (· > ·) ∧ (id :: around).getLast? = some Machine.globalScope := by
  induction id using Nat.strongRecOn generalizing around with
  | ind id ih =>
      by_cases outermost : id = Machine.globalScope
      · subst outermost
        cases h.root.symm.trans found
        exact ⟨List.pairwise_singleton _ _, rfl⟩
      · obtain ⟨next, rest, rfl, lt, found'⟩ := h.next found outermost
        obtain ⟨sorted, last⟩ := ih next lt found'
        refine ⟨List.pairwise_cons.mpr ⟨fun other mem => ?_, sorted⟩, ?_⟩
        · rcases List.mem_cons.mp mem with rfl | mem
          · exact lt
          · exact Nat.lt_trans ((List.pairwise_cons.mp sorted).1 other mem) lt
        · rw [List.getLast?_cons_cons, last]

end Rooted

end ScopeTree

/-! ### Steps -/

/-- What becomes of a machine when neither a scope nor a function is made. -/
structure Machine.Steady (m m' : Machine) : Prop where
  names : m.scopes.Continues m'.scopes
  size : m'.scopes.size = m.scopes.size
  functions : m'.functions = m.functions

theorem Machine.Steady.of_eq {m m' : Machine} (scopes : m'.scopes = m.scopes)
    (functions : m'.functions = m.functions) : m.Steady m' where
  names := by
    rw [scopes]
    exact .refl m.scopes
  size := by rw [scopes]
  functions := functions

def Eval.Steady {α : Type} (x : Eval α) : Prop :=
  ∀ m : Machine, m.Steady (Eval.final (x m))

namespace Eval.Steady
variable {α : Type}

theorem looks {x : Eval α} (h : Eval.Looks x) : Steady x := by
  intro m
  obtain ⟨t, left⟩ := h m
  rw [left]
  exact .of_eq rfl rfl

theorem builtin (b : Builtin) (arguments : List Value) : Steady (b.call arguments) := by
  intro m
  obtain ⟨scopes, functions⟩ := (Builtin.does_call m b arguments).scopes
  exact .of_eq scopes functions

theorem newArray (elements : Array Value) : Steady (Eval.newArray elements) :=
  fun _ => .of_eq rfl rfl

theorem define (env : Env) (name : Name) (value : Value) :
    Steady (Eval.define env name value) := by
  intro m
  have names := (Names.define env name value m).toContinues
  cases env with
  | nil => exact .of_eq rfl rfl
  | cons id env => exact ⟨names, Scopes.size_define m.scopes id name value, rfl⟩

theorem assign (env : Env) (name : Name) (value : Value) :
    Steady (Eval.assign env name value) := by
  intro m
  have names := (Names.assign env name value m).toContinues
  rcases Eval.assign_cases env name value m with ⟨id, -, done⟩ | ⟨-, done⟩
  · rw [done] at names ⊢
    exact ⟨names, Scopes.size_define m.scopes id name value, rfl⟩
  · rw [done]
    exact .of_eq rfl rfl

end Eval.Steady

/-! ### Runs -/

def Machine.after (start : Machine) (log : List Moment) : Machine :=
  (log.filterMap Moment.machine?).getLast?.getD start

theorem Machine.after_concat (start : Machine) (log : List Moment) (moment : Moment) :
    start.after (log ++ [moment]) = moment.machine?.getD (start.after log) := by
  unfold Machine.after
  rw [List.filterMap_append]
  cases moment with
  | stepped m => simp [Moment.machine?]
  | _ => simp [Moment.machine?]

namespace ScopeTree
variable {start : Machine} {tree tree' : ScopeTree} {log : List Moment}

/-- Every environment in a log is a path from one of the scopes that there are when it is used. -/
def Covers (tree : ScopeTree) (start : Machine) (log : List Moment) : Prop :=
  ∀ front moment, front ++ [moment] <+: log → ∀ env ∈ moment.envs,
    Path (tree.take (start.after (front ++ [moment])).scopes.size) env

theorem Covers.concat (h : tree.Covers start log) (le : tree <+: tree') {moment : Moment}
    (size : (start.after (log ++ [moment])).scopes.size = tree'.length)
    (paths : ∀ env ∈ moment.envs, tree'.Path env) : tree'.Covers start (log ++ [moment]) := by
  intro front other here
  rcases List.prefix_concat_iff.mp here with same | before
  · obtain ⟨rfl, rfl⟩ := List.append_singleton_inj.mp same
    rw [size, List.take_length]
    exact paths
  · exact fun env mem => (h front other before env mem).mono (List.IsPrefix.take le _)

/-- What is known about scopes in the middle of a run: those that there are form a tree, every
environment that is at hand or has been used is one of its paths, and the scopes of each machine of
the run go on from those of the machines before it. -/
structure View (start : Machine) (tree : ScopeTree) (s : Logged Moment) : Prop where
  rooted : tree.Rooted
  size : s.machine.scopes.size = tree.length
  after : (start.after s.log).scopes.size = tree.length
  closures : ∀ f ∈ s.machine.functions, tree.Path f.env
  covers : tree.Covers start s.log
  states : (start :: s.log.filterMap Moment.machine?).Pairwise fun m m' =>
    m.scopes.Continues m'.scopes
  names : ∀ m ∈ start :: s.log.filterMap Moment.machine?, m.scopes.Continues s.machine.scopes

namespace View
variable {s : Logged Moment} (view : View start tree s)
include view

theorem step (le : tree <+: tree') (rooted : tree'.Rooted) {m : Machine}
    (names : s.machine.scopes.Continues m.scopes) (size : m.scopes.size = tree'.length)
    (closures : ∀ f ∈ m.functions, tree'.Path f.env) :
    View start tree' ⟨m, s.log ++ [.stepped m]⟩ := by
  have machines : (s.log ++ [Moment.stepped m]).filterMap Moment.machine? =
      s.log.filterMap Moment.machine? ++ [m] := List.filterMap_append
  have after : (start.after (s.log ++ [Moment.stepped m])).scopes.size = tree'.length := by
    rw [Machine.after_concat]
    exact size
  -- what is known of the machine before the step carries over to those before that
  have before (m' : Machine) (mem : m' ∈ start :: s.log.filterMap Moment.machine?) :
      m'.scopes.Continues m.scopes := (view.names m' mem).trans names
  refine ⟨rooted, size, after, closures, view.covers.concat le after fun env mem => ?_, ?_, ?_⟩
  · obtain ⟨f, among, rfl⟩ := List.mem_map.mp mem
    exact closures f (Array.mem_toList_iff.mp among)
  · rw [machines, ← List.cons_append]
    refine List.pairwise_append.mpr ⟨view.states, List.pairwise_singleton _ _, ?_⟩
    intro m' mem m'' last
    rw [List.mem_singleton.mp last]
    exact before m' mem
  · intro m' mem
    rw [machines, ← List.cons_append] at mem
    rcases List.mem_append.mp mem with mem | last
    · exact before m' mem
    · rw [List.mem_singleton.mp last]
      exact .refl m.scopes

/-- A step that makes neither a scope nor a function, of which there may be no moment. -/
theorem steady {m : Machine} (steady : s.machine.Steady m) : View start tree ⟨m, s.log⟩ where
  rooted := view.rooted
  size := steady.size.trans view.size
  after := view.after
  closures f mem := view.closures f (steady.functions ▸ mem)
  covers := view.covers
  states := view.states
  names m' mem := (view.names m' mem).trans steady.names

theorem tell {moment : Moment} (other : moment.machine? = none)
    (paths : ∀ env ∈ moment.envs, tree.Path env) :
    View start tree ⟨s.machine, s.log ++ [moment]⟩ := by
  have machines : (s.log ++ [moment]).filterMap Moment.machine? =
      s.log.filterMap Moment.machine? := by
    rw [List.filterMap_append, List.filterMap_cons_none other, List.filterMap_nil, List.append_nil]
  have after : (start.after (s.log ++ [moment])).scopes.size = tree.length := by
    rw [Machine.after_concat, other]
    exact view.after
  have covers := view.covers.concat (List.prefix_refl tree) after paths
  refine ⟨view.rooted, view.size, after, view.closures, covers, ?_, ?_⟩
  · rw [machines]
    exact view.states
  · rw [machines]
    exact view.names

end View

theorem view_initial (input : Input) (trace : Trace) :
    View (.initial input trace) [[]] ⟨.initial input trace, []⟩ where
  rooted := .initial
  size := rfl
  after := rfl
  closures f mem := absurd mem (Array.not_mem_empty f)
  covers front moment here := by
    have none := List.prefix_nil.mp here
    exact absurd none (List.concat_ne_nil moment front)
  states := List.pairwise_singleton _ _
  names m mem := by
    rw [List.mem_singleton.mp mem]
    exact .refl _

end ScopeTree

def Course.trees : Course ScopeTree where
  moves _ tree tree' := tree <+: tree'
  refl _ := List.prefix_refl
  trans := List.IsPrefix.trans
  widen h := h

namespace Narrated
variable {α : Type} {start : Machine} {tree : ScopeTree}

/-- A computation that fits its scopes into the tree. -/
abbrev Plants (start : Machine) (tree : ScopeTree) (x : Narrated α) (Q : ScopeTree → α → Prop) :
    Prop :=
  Maintains Course.trees (ScopeTree.View start) none tree x Q

namespace Plants

theorem step {x : Eval α} (h : Eval.Steady x) :
    Plants start tree (Narrated.step x) fun _ _ => True := by
  refine Maintains.step fun s view => ?_
  have steady := h s.machine
  cases hs : x s.machine with
  | ok a m =>
      rw [hs] at steady
      have left := view.steady steady
      refine ⟨tree, List.prefix_refl tree, ?_, trivial⟩
      exact view.step (List.prefix_refl tree) view.rooted steady.names left.size left.closures
  | error reason m =>
      rw [hs] at steady
      exact ⟨tree, List.prefix_refl tree, view.steady steady⟩

/-- A scope that is made is inside the scopes of the environment in which it is made. -/
theorem newScope (name : Name) (bindings : Bindings) {env : Env} (path : tree.Path env) :
    Plants start tree (Narrated.step (Eval.newScope name bindings env)) fun tree env =>
      tree.Path env := by
  refine Maintains.step fun s view => ?_
  -- the new scope has the number of scopes before it, which is its place in the tree
  have le : tree <+: tree ++ [env] := List.prefix_append tree [env]
  have path' : ScopeTree.Path (tree ++ [env]) (s.machine.scopes.size :: env) := by
    rw [view.size]
    exact ScopeTree.path_concat tree env
  refine ⟨tree ++ [env], le, view.step le (view.rooted.concat path) ?_ ?_ ?_, path'⟩
  · exact .make s.machine.scopes name bindings
  · rw [List.length_append, ← view.size]
    exact Scopes.size_make s.machine.scopes name bindings
  · exact fun f mem => (view.closures f mem).mono le

theorem newFunction (name : Name) (parameters : List Name) (body : List Decl) {env : Env}
    (path : tree.Path env) :
    Plants start tree (Narrated.step (Eval.newFunction name parameters body env)) fun _ _ =>
      True := by
  refine Maintains.step fun s view => ?_
  have le := List.prefix_refl tree
  refine ⟨tree, le, view.step le view.rooted (.refl _) view.size fun f mem => ?_, trivial⟩
  rcases Array.mem_push.mp mem with old | rfl
  · exact view.closures f old
  · exact path

theorem closure (id : FunctionId) :
    Plants start tree (Narrated.step (Eval.closure? id)) fun tree f? =>
      ∀ f, f? = some f → tree.Path f.env := by
  refine Maintains.step fun s view => ?_
  have le := List.prefix_refl tree
  have same := view.step le view.rooted (.refl _) view.size view.closures
  exact ⟨tree, le, same, fun f found => view.closures f (Array.mem_of_getElem? found)⟩

theorem tell {moment : Moment} (other : moment.machine? = none)
    (paths : ∀ env ∈ moment.envs, tree.Path env) :
    Plants start tree (Narrated.tell moment) fun _ _ => True :=
  Maintains.tell (P := fun _ => True) fun _ view =>
    ⟨tree, List.prefix_refl tree, view.tell other paths, trivial⟩

end Plants

end Narrated

open Narrated in
/-- Evaluation in an environment that is a path of the tree fits all scopes into it. -/
theorem Oversees.trees (start : Machine) :
    Oversees Course.trees (· <+: ·) ScopeTree.Path (ScopeTree.View start) where
  later_of_moves le := le
  env_mono le path := path.mono le
  blind _ view := view.steady (.of_eq rfl rfl)
  looks _ looks := Plants.step (.looks looks)
  tell {_ moment} marks paths := by
    refine Plants.tell ?_ paths
    cases moment with
    | stepped m => cases marks
    | _ => rfl
  newArray _ elements := Plants.step (.newArray elements)
  newScope name bindings path hf := (Plants.newScope name bindings path).bind hf
  define {_ env} name value _ := (Plants.step (.define env name value)).widen
  assign {_ env} name value _ := Plants.step (.assign env name value)
  newFunction name parameters body path := Plants.newFunction name parameters body path
  closure _ id := Plants.closure id
  builtin _ b arguments :=
    (Plants.tell rfl fun _ mem => absurd mem List.not_mem_nil).bind fun _ _ _ _ =>
      (Plants.step (.builtin b arguments)).bind fun _ _ _ _ =>
        (Plants.tell rfl fun _ mem => absurd mem List.not_mem_nil).bind fun _ _ _ _ =>
          .pure trivial

/-- The scopes of a run form a tree of which all environments are paths, and no machine of the run
takes from its scopes any of the names that those before it have. -/
theorem Program.scopes_of_run (budget : Budget) (program : Program) (input : Input)
    (trace : Trace) :
    let m := Machine.initial input trace
    ((program.states budget m).Pairwise fun m m' => m.scopes.Continues m'.scopes) ∧
      ∃ tree : ScopeTree, tree.Rooted ∧
        tree.length = (Eval.final (program.run budget m)).scopes.size ∧
        tree.Covers m (program.moments budget m) := by
  intro m
  have plants := (Oversees.trees m).run budget program (w := [[]]) rfl
  obtain ⟨tree, -, view⟩ := plants.final ⟨m, []⟩ (ScopeTree.view_initial input trace)
  constructor
  · refine List.pairwise_append.mpr ⟨view.states, List.pairwise_singleton _ _, ?_⟩
    intro m' mem m'' last
    rw [List.mem_singleton.mp last]
    exact view.names m' mem
  · rw [← program.machine_narrated budget m]
    exact ⟨tree, view.rooted, view.size.symm, view.covers⟩

/-- Scopes do not leak. Whatever an execution ends with: an expression or a statement that declares
nothing gives no name to any scope that was there, and the statements of a body give names to the
scope of the body only. A declaration defines its name in the innermost scope only, and not if the
initializer of a variable fails or halts. In a run no name is ever lost or changes its place, and
the environments in which anything is done are paths of one tree, all of which go down to the global
scope. So all lookups and assignments come to an end. In a program that is read from a source, only
the declaration of a variable is a statement that declares anything where it stands. -/
theorem scopes_do_not_leak [CharacterNames] (budget : Budget) :
    (∀ env e (m : Machine),
      m.scopes.Grows none (Eval.final (evalExpr budget.caller env e m)).scopes) ∧
    (∀ env s (m : Machine), s.declares = false →
      m.scopes.Grows none (Eval.final (execStmt budget.caller budget.rounds env s m)).scopes) ∧
    (∀ env body (m : Machine),
      m.scopes.Grows env.head?
        (Eval.final (execBody budget.caller budget.rounds env body m)).scopes) ∧
    (∀ id env name e (m : Machine), id < m.scopes.size →
      let execution := execStmt budget.caller budget.rounds (id :: env) (.declare name e) m
      (∃ v m₁ m', evalExpr budget.caller (id :: env) e m = .ok v m₁ ∧ v.kind ≠ .error ∧
          m.scopes.Grows none m₁.scopes ∧ execution = .ok .normal m' ∧
          m₁.scopes.Defines id name v m'.scopes) ∨
        ((∀ v m₁, evalExpr budget.caller (id :: env) e m = .ok v m₁ → v.kind = .error) ∧
          m.scopes.Grows none (Eval.final execution).scopes)) ∧
    (∀ id env name parameters body (m : Machine), id < m.scopes.size →
      ∃ m', execDecl budget.caller budget.rounds (id :: env) (.function name parameters body) m =
          .ok .normal m' ∧ m.scopes.Defines id name (.function m.functions.size) m'.scopes) ∧
    (∀ (program : Program) input trace, let m := Machine.initial input trace
      ((program.states budget m).Pairwise fun m m' => m.scopes.Continues m'.scopes) ∧
      ∃ tree : ScopeTree, tree.Covers m (program.moments budget m) ∧
        tree.length = (Eval.final (program.run budget m)).scopes.size ∧
        ∀ id around, tree[id]? = some around →
          (id :: around).Pairwise (· > ·) ∧
          (id :: around).getLast? = some Machine.globalScope ∧
          ∀ id' around', id' :: around' <:+ id :: around → tree[id']? = some around') ∧
    (∀ env name position (m : Machine), ∃ v, resolve env name position m = .ok v m) ∧
    (∀ env name value (m : Machine), ∃ bound m', Eval.assign env name value m = .ok bound m') ∧
    ∀ source program, Program.parse source = .ok program →
      ∀ s around, ⟨.stmt s, around⟩ ∈ program.places →
        (s.declares = true ↔ ∃ name e, s = .declare name e) := by
  refine ⟨fun env e m => grows_evalExpr budget env m e,
    fun env s m other => grows_execStmt_of_not_declares budget env m other,
    fun env body m => grows_execBody budget env m body,
    fun id env name e m lt => execStmt_declare budget env lt name e,
    fun id env name parameters body m lt => execDecl_function budget env lt name parameters body,
    fun program input trace => ?_, fun env name position m => ?_, fun env name value m => ?_,
    fun source program parsed s around here => Program.declares_iff_of_parse parsed here⟩
  · obtain ⟨states, tree, rooted, size, covers⟩ := program.scopes_of_run budget input trace
    refine ⟨states, tree, covers, size, fun id around found => ?_⟩
    obtain ⟨sorted, last⟩ := rooted.descends found
    exact ⟨sorted, last, fun id' around' on => rooted.around_eq found on⟩
  · obtain ⟨v, done, -⟩ := Eval.supplies_resolve env name position m
    exact ⟨v, done⟩
  · rcases Eval.assign_cases env name value m with ⟨id, -, done⟩ | ⟨-, done⟩
    · exact ⟨true, _, done⟩
    · exact ⟨false, m, done⟩

/-- In `{ var x = 2; }` nothing is defined outside; `var x = 1;` and `fun x() {}` define `x`. -/
theorem scopes_do_not_leak_shadowed :
    letI : CharacterNames := .ofList []
    let exec := execDecl (Budget.caller ⟨0, 0⟩) 0 Machine.globalEnv
    let start := Machine.initial (.ofText []) (.empty false 3)
    let block : Stmt := .block [.stmt (.declare (text "x") (.literal (.integer 2)))]
    block.declares = false ∧ Machine.globalScope < start.scopes.size ∧
      start.scopes.Grows none (Eval.final (exec (.stmt block) start)).scopes ∧
      (∃ m, exec (.stmt (.declare (text "x") (.literal (.integer 1)))) start = .ok .normal m ∧
        start.scopes.Defines Machine.globalScope (text "x") (.integer 1) m.scopes) ∧
      (∃ m, exec (.function (text "x") [] []) start = .ok .normal m ∧
        start.scopes.Defines Machine.globalScope (text "x") (.function 0) m.scopes) ∧
      Program.parse (text "\x7b var x = 2; \x7d") = .ok [.stmt block] ∧
      ⟨.stmt block, []⟩ ∈ Program.places [.stmt block] ∧
      ¬∃ name e, block = .declare name e := by
  intro exec start block
  let _ : CharacterNames := .ofList []
  have inside : Machine.globalScope < start.scopes.size := by decide
  have parsed : Program.parse (text "\x7b var x = 2; \x7d") = .ok [.stmt block] := by
    unfold block
    cbv
  have here : ⟨.stmt block, []⟩ ∈ Program.places [.stmt block] := List.mem_cons_self
  obtain ⟨-, others, -, declares, functions, -, -, -, sources⟩ := scopes_do_not_leak ⟨0, 0⟩
  refine ⟨rfl, inside, others _ block start rfl, ?_, functions _ [] _ [] [] start inside, parsed,
    here, ?_⟩
  · rcases declares _ [] (text "x") (.literal (.integer 1)) start inside with
      ⟨v, m₁, m', evaluated, -, -, executed, defines⟩ | ⟨fails, -⟩
    · cases evaluated
      exact ⟨m', executed, defines⟩
    · cases fails (.integer 1) start rfl
  · rw [← sources _ _ parsed block [] here]
    exact Bool.false_ne_true

end Script
