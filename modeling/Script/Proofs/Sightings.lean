import Script.Proofs.Holdings
import Script.Proofs.Logged

/-!
# Where failures are seen

A log of everything that a run puts values into: the machine after each step, the arguments of each
call when it begins, the operands of each operator, and what statements end with. Nothing of it
holds a failure. So a failure is only ever what an expression evaluates to, and what aborts a
function or the program.
-/

namespace Script

/-- Something that is seen of a run: the machine after a step, the arguments that a call begins
with, the operands of an operator, or the end of a statement. -/
inductive Sight where
  | machine (m : Machine)
  | passed (function : Value) (arguments : List Value)
  | operands (values : List Value)
  | completed (d : Decl) (completion : Completion)

def Sight.All (V : Value → Prop) : Sight → Prop
  | machine m => m.Holds V
  | passed _ arguments => ∀ v ∈ arguments, V v
  | operands values => ∀ v ∈ values, V v
  | completed _ completion => completion.Carries V

abbrev Watched := EStateM Halt (Logged Sight)

namespace Watched

def step {α : Type} (x : Eval α) : Watched α := do
  let a ← Logged.lift id x
  Logged.note .machine
  return a

def see (sight : Sight) : Watched Unit := Logged.note fun _ => sight

end Watched

namespace Observer
open Watched

/-- The observer that traces, as programs are run, and logs what it sees. -/
def watching : Observer Watched where
  onExpr _ _ x := x
  onDecl _ d x := do
    let completion ← x
    see (.completed d completion)
    return completion
  onCall callee function arguments x := do
    see (.passed function arguments)
    let value ← x
    Watched.step (traceCall callee arguments value)
    return value
  onUnary op operand position := do
    see (.operands [operand])
    Watched.step (tracedUnary op operand position)
  onBinary op left right position := do
    see (.operands [left, right])
    Watched.step (tracedBinary op left right position)
  inBody := Logged.indented
  onAbort failure := Watched.step (traceAbort failure)
  step := Watched.step

end Observer

namespace Watched
variable {α β : Type}

abbrev Shadows (x : Eval α) (y : Watched α) : Prop :=
  Logged.Shadows (LogForm.any Sight) id x y

theorem shadows_step (x : Eval α) : Shadows x (step x) :=
  Logged.Shadows.noted (fun _ _ => trivial) (.lift x)

theorem shadows_see (sight : Sight) {x : Eval α} {y : Watched α} (h : Shadows x y) :
    Shadows x (do see sight; y) :=
  .note (fun _ => trivial) h

theorem plain_watching : Observer.Related Shadows Observer.plain Observer.watching where
  pure := .pure
  bind := .bind
  step _ := shadows_step _
  onExpr _ _ _ _ h := h
  onDecl _ _ _ _ h := h.noted fun _ _ => trivial
  onCall _ _ _ _ _ h := shadows_see _ (h.bind fun _ => .bind (shadows_step _) fun _ => .pure _)
  onUnary _ _ _ := shadows_see _ (shadows_step _)
  onBinary _ _ _ _ := shadows_see _ (shadows_step _)
  inBody h := h.indented
  onAbort _ := shadows_step _

/-- Everything in the machine and in the log has a property. -/
structure Clean (V : Value → Prop) (s : Logged Sight) : Prop where
  machine : s.machine.Holds V
  log : ∀ sight ∈ s.log, sight.All V

/-- What a computation leaves behind: a state in which everything has a property, with a result or a
halt that have properties of their own. -/
def Leaves (V : Value → Prop) (H : Halt → Prop) (Q : α → Prop) :
    EStateM.Result Halt (Logged Sight) α → Prop
  | .ok a s => Clean V s ∧ Q a
  | .error reason s => Clean V s ∧ H reason

def Keeps (V : Value → Prop) (H : Halt → Prop) (x : Watched α) (Q : α → Prop) : Prop :=
  ∀ s, Clean V s → Leaves V H Q (x s)

namespace Keeps
variable {V : Value → Prop} {H : Halt → Prop} {Q : α → Prop}

theorem pure {a : α} (ha : Q a) : Keeps V H (pure a) Q :=
  fun _ clean => ⟨clean, ha⟩

theorem bind {Q' : β → Prop} {x : Watched α} {f : α → Watched β} (hx : Keeps V H x Q)
    (hf : ∀ a, Q a → Keeps V H (f a) Q') : Keeps V H (x >>= f) Q' := by
  intro s clean
  have left := hx s clean
  cases hs : x s with
  | ok a t =>
      rw [hs] at left
      rw [bind_of_ok hs]
      exact hf a left.2 t left.1
  | error reason t =>
      rw [hs] at left
      rw [bind_of_error hs]
      exact left

theorem note {entry : Machine → Sight} {x : Watched α} (h : ∀ m, m.Holds V → (entry m).All V)
    (hx : Keeps V H x Q) : Keeps V H (do Logged.note entry; x) Q := by
  intro s clean
  refine hx _ ⟨clean.machine, fun sight mem => ?_⟩
  rcases List.mem_append.mp mem with old | new
  · exact clean.log sight old
  · rw [List.mem_singleton.mp new]
    exact h _ clean.machine

theorem noted {entry : α → Machine → Sight} {x : Watched α} (hx : Keeps V H x Q)
    (h : ∀ a m, Q a → m.Holds V → (entry a m).All V) :
    Keeps V H (do let a ← x; Logged.note (entry a); return a) Q :=
  hx.bind fun a ha => note (fun m => h a m ha) (pure ha)

theorem step {x : Eval α} (halts : ∀ reason, reason ≠ .strayReturn → H reason)
    (preserves : Eval.Preserves V x) (results : ∀ m a m', x m = .ok a m' → Q a) :
    Keeps V H (step x) Q := by
  refine noted (fun s clean => ?_) fun _ _ _ holds => holds
  have left := preserves s.machine clean.machine
  unfold Logged.lift
  cases hs : x s.machine with
  | ok a m =>
      rw [hs] at left
      exact ⟨⟨left, clean.log⟩, results _ a m hs⟩
  | error reason m =>
      rw [hs] at left
      exact ⟨⟨left.1, clean.log⟩, halts reason left.2⟩

theorem call {x : Watched Value} {arguments : List Value}
    (halts : ∀ reason, reason ≠ .strayReturn → H reason) (callee : Name) (function : Value)
    (all : ∀ v ∈ arguments, V v) (hx : Keeps V H x fun _ => True) :
    Keeps V H (Observer.watching.onCall callee function arguments x) fun _ => True := by
  refine note (fun _ _ => all) (hx.bind fun value _ => ?_)
  have traced : Keeps V H (Watched.step (traceCall callee arguments value)) fun _ => True :=
    step halts (.traces (.call _ _ _)) fun _ _ _ _ => trivial
  exact traced.bind fun _ _ => pure trivial

theorem indented {x : Watched α} (h : Keeps V H x Q) : Keeps V H (Logged.indented x) Q := by
  intro s clean
  have left := h { s with machine := { s.machine with trace := s.machine.trace.indent } }
    ⟨clean.machine.of_eq rfl rfl, clean.log⟩
  unfold Logged.indented
  generalize x _ = result at left
  cases result with
  | ok a t => exact ⟨⟨left.1.machine.of_eq rfl rfl, left.1.log⟩, left.2⟩
  | error reason t => exact ⟨⟨left.1.machine.of_eq rfl rfl, left.1.log⟩, left.2⟩

end Keeps

end Watched

namespace Observer
open Watched

/-- Evaluation puts only values with a property everywhere, if all values but failures have it. -/
theorem watching_keeps {V : Value → Prop} {H : Halt → Prop}
    (settled : ∀ v, v.kind ≠ .error → V v)
    (halts : ∀ reason, reason ≠ .strayReturn → H reason) :
    Upkeep (W := Unit) (fun _ _ => True) (fun _ => V) (fun _ x Q => Keeps V H x (Q ()))
      watching where
  mono _ hv := hv
  literal _ l := by cases l <;> exact settled _ nofun
  failure _ _ := trivial
  value _ := trivial
  settled _ := settled _
  pure := .pure
  bind hx hf := hx.bind fun a ha => hf () a trivial ha
  halt _ _ _ spent := .step halts (.halt spent.ne_strayReturn) nofun
  resolve _ env name position := .step halts (.resolve env name position) fun _ _ _ _ => trivial
  newArray all := .step halts (.newArray all) fun _ _ _ _ => trivial
  index position _ _ := .step halts (.indexValue _ _ position) fun _ _ _ _ => trivial
  newScope name env all := .step halts (.newScope name env all) fun _ _ _ _ => trivial
  define env name hv := .step halts (.define env name hv) fun _ _ _ _ => trivial
  assign env name hv := .step halts (.assign env name hv) fun _ _ _ _ => trivial
  newFunction _ name parameters body env := by
    refine .step halts (.newFunction name parameters body env) fun m v m' h => ?_
    cases h
    exact settled _ nofun
  closure _ id := .step halts (.closure id) fun _ _ _ _ => trivial
  builtin callee b all :=
    .call halts callee (.builtin b) all (.step halts (b.preserves_call all) fun _ _ _ _ => trivial)
  call callee id all hx := .call halts callee (.function id) all hx
  unary op position hv := by
    refine .note (fun _ _ => ?_) (.step halts (.tracedUnary op _ position) fun _ _ _ _ => trivial)
    simpa [Sight.All] using hv
  binary op position hl hr := by
    refine .note (fun _ _ => ?_)
      (.step halts (.tracedBinary op _ _ position) fun _ _ _ _ => trivial)
    simpa [Sight.All] using ⟨hl, hr⟩
  onExpr _ _ h := h
  onDecl _ _ h := h.noted fun _ _ carries _ => carries
  inBody h := h.indented
  onAbort _ failure := .step halts (.traces (.line _)) fun _ _ _ _ => trivial

end Observer

/-- Nothing that is seen of a run holds a failure: no scope and no array after any step, no argument
of a call, no operand of an operator, and no returned value. Nor does the machine at the end. The
run that is watched is the run of the program. -/
theorem Program.run_holds_no_failure (budget : Budget) (program : Program) (input : Input)
    (trace : Trace) :
    let m := Machine.initial input trace
    let watched := Observer.watching.run budget program ⟨m, []⟩
    let final := Logged.final watched
    watched = Logged.outcome id final.log (program.run budget m) ∧
      (∀ sight ∈ final.log, sight.All fun v => v.kind ≠ .error) ∧
      final.machine.Holds fun v => v.kind ≠ .error := by
  obtain ⟨sights, -, same⟩ := (Watched.plain_watching.run budget program).exists_outcome
    ⟨.initial input trace, []⟩
  rw [Observer.run_plain] at same
  have keeps :=
    Observer.watching_keeps (H := fun _ => True) (fun _ other => other) fun _ _ => trivial
  have left := keeps.run (fun _ s clean => ⟨clean, trivial⟩) () budget program
    ⟨.initial input trace, []⟩ ⟨.initial _ input trace, fun _ mem => absurd mem List.not_mem_nil⟩
  dsimp only at left ⊢
  rw [same] at left ⊢
  cases h : program.run budget (.initial input trace) with
  | ok failure m =>
      rw [h] at left
      exact ⟨rfl, left.1.log, left.1.machine⟩
  | error reason m =>
      rw [h] at left
      exact ⟨rfl, left.1.log, left.1.machine⟩

end Script
