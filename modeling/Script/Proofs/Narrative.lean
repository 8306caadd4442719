import Script.Proofs.Holdings
import Script.Proofs.Logged
import Script.Proofs.TraceIndependence

/-!
# What happens in a run

A narrated run keeps a log of all its moments: expressions and statements with their environments
when they begin and when they end, calls when they begin and when they are answered, and the machine
after each step. A halt leaves what was begun without an end. Everything that a statement about "any
time during a run" can speak of is in this log: the values that occur, the machines that are passed
through, and the environments that are used.

Narrating does not interfere: a narrated run is the run of the program with its moments beside it.
-/

namespace Script

inductive Moment where
  | evaluating (env : Env) (e : Expr)
  | evaluated (env : Env) (e : Expr) (value : Value)
  | executing (env : Env) (d : Decl)
  | executed (env : Env) (d : Decl) (completion : Completion)
  | calling (function : Value) (arguments : List Value)
  | answered (function : Value) (arguments : List Value) (result : Value)
  | stepped (m : Machine)

def Completion.value? : Completion → Option Value
  | normal => none
  | returned value => some value
  | aborted failure => some (.error failure)

/-- The values that names are bound to and the elements of arrays. -/
def Machine.values (m : Machine) : List Value :=
  m.scopes.toList.flatMap (fun scope => scope.bindings.map Prod.snd) ++
    m.arrays.toList.flatMap Array.toList

theorem Machine.holds_iff {V : Value → Prop} {m : Machine} : m.Holds V ↔ ∀ v ∈ m.values, V v := by
  constructor
  · intro holds v mem
    rcases List.mem_append.mp mem with bound | element
    · obtain ⟨scope, among, named⟩ := List.mem_flatMap.mp bound
      obtain ⟨binding, here, rfl⟩ := List.mem_map.mp named
      obtain ⟨id, lt, rfl⟩ := Array.mem_iff_getElem.mp (Array.mem_toList_iff.mp among)
      refine holds.bindings id binding ?_
      rwa [Scopes.bindings, Array.getElem?_eq_getElem lt]
    · obtain ⟨elements, among, here⟩ := List.mem_flatMap.mp element
      obtain ⟨a, lt, rfl⟩ := Array.mem_iff_getElem.mp (Array.mem_toList_iff.mp among)
      refine holds.elements a v ?_
      rw [Machine.elements, Array.getElem?_eq_getElem lt]
      exact Array.mem_toList_iff.mp here
  · intro all
    constructor
    · intro id binding here
      simp only [Scopes.bindings] at here
      cases found : m.scopes[id]? with
      | none =>
          rw [found] at here
          cases here
      | some scope =>
          rw [found] at here
          have among := Array.mem_toList_iff.mpr (Array.mem_of_getElem? found)
          refine all _ (List.mem_append_left _ (List.mem_flatMap.mpr ⟨scope, among, ?_⟩))
          exact List.mem_map_of_mem here
    · intro a v here
      simp only [Machine.elements] at here
      cases found : m.arrays[a]? with
      | none =>
          rw [found] at here
          exact absurd here (Array.not_mem_empty v)
      | some elements =>
          rw [found] at here
          have among := Array.mem_toList_iff.mpr (Array.mem_of_getElem? found)
          refine all v (List.mem_append_right _ (List.mem_flatMap.mpr ⟨elements, among, ?_⟩))
          exact Array.mem_toList_iff.mpr here

namespace Moment

/-- The values that occur in a moment. -/
def values : Moment → List Value
  | evaluating _ _ | executing _ _ => []
  | evaluated _ _ value => [value]
  | executed _ _ completion => completion.value?.toList
  | calling function arguments => function :: arguments
  | answered function arguments result => function :: result :: arguments
  | stepped m => m.values

def machine? : Moment → Option Machine
  | stepped m => some m
  | evaluating _ _ | evaluated _ _ _ | executing _ _ | executed _ _ _ | calling _ _
  | answered _ _ _ => none

/-- The environments that are used in a moment, those of functions included. -/
def envs : Moment → List Env
  | evaluating env _ | evaluated env _ _ | executing env _ | executed env _ _ => [env]
  | calling _ _ | answered _ _ _ => []
  | stepped m => m.functions.toList.map Closure.env

end Moment

abbrev Narrated := EStateM Halt (Logged Moment)

namespace Narrated

def step {α : Type} (x : Eval α) : Narrated α := do
  let a ← Logged.lift id x
  Logged.note .stepped
  return a

def tell (moment : Moment) : Narrated Unit := Logged.note fun _ => moment

/-- A computation with a moment before it and, if it comes to its end, a moment after it. -/
def between {α : Type} (before : Moment) (after : α → Moment) (x : Narrated α) : Narrated α := do
  tell before
  let a ← x
  tell (after a)
  return a

end Narrated

namespace Observer
open Narrated

/-- The observer that traces, as programs are run, and logs every moment. A call is answered before
it is traced. -/
def narrating : Observer Narrated where
  onExpr env e x := between (.evaluating env e) (.evaluated env e) x
  onDecl env d x := between (.executing env d) (.executed env d) x
  onCall callee function arguments x := do
    let result ← between (.calling function arguments) (.answered function arguments) x
    Narrated.step (traceCall callee arguments result)
    return result
  onUnary op operand position := Narrated.step (tracedUnary op operand position)
  onBinary op left right position := Narrated.step (tracedBinary op left right position)
  inBody := Logged.indented
  onAbort failure := Narrated.step (traceAbort failure)
  step := Narrated.step

end Observer

namespace Narrated
variable {α : Type}

theorem step_of_ok {x : Eval α} {s : Logged Moment} {a : α} {m : Machine}
    (h : x s.machine = .ok a m) : step x s = .ok a ⟨m, s.log ++ [.stepped m]⟩ := by
  have lifted : Logged.lift id x s = .ok a ⟨m, s.log⟩ := by
    rw [Logged.lift, h]
  exact bind_of_ok lifted

theorem step_of_error {x : Eval α} {s : Logged Moment} {reason : Halt} {m : Machine}
    (h : x s.machine = .error reason m) : step x s = .error reason ⟨m, s.log⟩ := by
  have lifted : Logged.lift id x s = .error reason ⟨m, s.log⟩ := by
    rw [Logged.lift, h]
    rfl
  exact bind_of_error lifted

/-- A narrated computation that does what another one does. -/
abbrev Shadows (x : Eval α) (y : Narrated α) : Prop :=
  Logged.Shadows (LogForm.any Moment) id x y

theorem shadows_step (x : Eval α) : Shadows x (step x) :=
  Logged.Shadows.noted (fun _ _ => trivial) (.lift x)

theorem shadows_between {x : Eval α} {y : Narrated α} (before : Moment) (after : α → Moment)
    (h : Shadows x y) : Shadows x (between before after y) :=
  .note (fun _ => trivial) (h.noted fun _ _ => trivial)

theorem plain_narrating : Observer.Related Shadows Observer.plain Observer.narrating where
  pure := .pure
  bind := .bind
  step _ := shadows_step _
  onExpr _ _ _ _ h := shadows_between _ _ h
  onDecl _ _ _ _ h := shadows_between _ _ h
  onCall _ _ _ _ _ h :=
    (shadows_between _ _ h).bind fun _ => .bind (shadows_step _) fun _ => .pure _
  onUnary _ _ _ := shadows_step _
  onBinary _ _ _ _ := shadows_step _
  inBody h := h.indented
  onAbort _ := shadows_step _

section Evaluation
variable (budget : Budget)

def caller : CallerIn Narrated :=
  Observer.narrating.callFunction budget.rounds budget.depth

theorem shadows_caller (id : FunctionId) (arguments : List Value) (position : Position) :
    Shadows (budget.caller id arguments position) (caller budget id arguments position) := by
  have shadows := plain_narrating.callFunction budget.rounds budget.depth id arguments position
  rwa [Observer.callFunction_plain] at shadows

theorem shadows_evalExpr (env : Env) (e : Expr) :
    Shadows (evalExpr budget.caller env e)
      (Observer.narrating.evalExpr (caller budget) env e) := by
  have shadows := plain_narrating.evalExpr (shadows_caller budget) env e
  rwa [Observer.evalExpr_plain] at shadows

theorem shadows_evalAll (env : Env) (es : List Expr) :
    Shadows (evalAll budget.caller env es)
      (Observer.narrating.evalAll (caller budget) env es) := by
  have shadows := plain_narrating.evalAll (shadows_caller budget) env es
  rwa [Observer.evalAll_plain] at shadows

theorem shadows_execStmt (env : Env) (s : Stmt) :
    Shadows (execStmt budget.caller budget.rounds env s)
      (Observer.narrating.execStmt (caller budget) budget.rounds env s) := by
  have shadows : Shadows (Observer.plain.execStmt budget.caller budget.rounds env s)
      (Observer.narrating.execStmt (caller budget) budget.rounds env s) :=
    plain_narrating.execStmt (shadows_caller budget) env s
  rwa [Observer.execStmt_plain] at shadows

theorem shadows_execBody (env : Env) (body : List Decl) :
    Shadows (execBody budget.caller budget.rounds env body)
      (Observer.narrating.execBody (caller budget) budget.rounds env body) := by
  have shadows : Shadows (Observer.plain.execBody budget.caller budget.rounds env body)
      (Observer.narrating.execBody (caller budget) budget.rounds env body) :=
    plain_narrating.execBody (shadows_caller budget) env body
  rwa [Observer.execBody_plain] at shadows

end Evaluation

end Narrated

namespace Program
variable (budget : Budget) (program : Program) (m : Machine)

def narrated : EStateM.Result Halt (Logged Moment) (Option Failure) :=
  Observer.narrating.run budget program ⟨m, []⟩

/-- Everything that happens in a run, in the order in which it happens. -/
def moments : List Moment :=
  (Logged.final (narrated budget program m)).log

theorem narrated_eq : narrated budget program m =
    Logged.outcome id (moments budget program m) (program.run budget m) := by
  rw [← Observer.run_plain]
  exact (Narrated.plain_narrating.run budget program).eq_outcome ⟨m, []⟩

theorem machine_narrated : (Logged.final (narrated budget program m)).machine =
    Eval.final (program.run budget m) := by
  rw [← Observer.run_plain]
  exact (Narrated.plain_narrating.run budget program).machine_final ⟨m, []⟩

/-- The machines that a run passes through, from the one it starts with to the one it leaves. -/
def states : List Machine :=
  m :: (moments budget program m).filterMap Moment.machine? ++
    [(Logged.final (narrated budget program m)).machine]

/-- All values that occur in a run: what expressions evaluate to, what is passed and returned, what
names are bound to, and the elements of arrays. -/
def values : List Value :=
  (moments budget program m).flatMap Moment.values ++
    (states budget program m).flatMap Machine.values

variable {budget : Budget} {program : Program} {m : Machine}

theorem mem_values_of_mem_moments {moment : Moment} {v : Value}
    (told : moment ∈ program.moments budget m) (here : v ∈ moment.values) :
    v ∈ program.values budget m :=
  List.mem_append_left _ (List.mem_flatMap.mpr ⟨moment, told, here⟩)

theorem mem_states_of_mem_moments {state : Machine}
    (told : .stepped state ∈ program.moments budget m) : state ∈ program.states budget m := by
  have passed : state ∈ (program.moments budget m).filterMap Moment.machine? :=
    List.mem_filterMap.mpr ⟨.stepped state, told, rfl⟩
  exact List.mem_append_left _ (List.mem_cons_of_mem m passed)

end Program

end Script
