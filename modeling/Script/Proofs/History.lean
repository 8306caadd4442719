import Script.Proofs.Observer
import Script.Proofs.Readable

/-!
# Histories of runs

A recorded evaluation keeps a chronicle: next to the machine, a list of what has ended so far, each
entry with the machine as it was at that moment. An entry is made when an expression or a statement
ends, and when a call or an operator has its result but has not been traced yet. Computations that
halt keep what was recorded before.

Recording does not interfere: without its records, a recorded run is the run of the program.
-/

namespace Script

/-- Something that has ended. A call also knows the machine from before it. -/
inductive Event where
  | evaluated (env : Env) (e : Expr) (value : Value)
  | executed (env : Env) (d : Decl) (completion : Completion)
  | called (callee : Name) (function : Value) (arguments : List Value) (before : Machine)
      (result : Value)
  | unary (op : UnaryOp) (operand result : Value)
  | binary (op : BinaryOp) (left right result : Value)

namespace Event

/-- What the trace says about an event. -/
def trace : Event → Eval Unit
  | called callee _ arguments _ result => traceCall callee arguments result
  | unary op operand result => traceUnary op operand result
  | binary op left right result => traceBinary op left right result
  | evaluated _ _ _ | executed _ _ _ => pure ()

def before? : Event → Option Machine
  | called _ _ _ before _ => some before
  | evaluated _ _ _ | executed _ _ _ | unary _ _ _ | binary _ _ _ _ => none

/-- The values whose readable forms a trace shows, from left to right. -/
def shown : Event → List Value
  | called _ _ arguments _ result => arguments ++ [result]
  | unary _ operand result => [operand, result]
  | binary _ left right result => [left, right, result]
  | evaluated _ _ _ | executed _ _ _ => []

theorem traces (event : Event) : Traces event.shown event.trace := by
  cases event with
  | evaluated => exact .none
  | executed => exact .none
  | called callee function arguments before result => exact .call callee arguments result
  | unary op operand result => exact .unary op operand result
  | binary op left right result => exact .binary op left right result

end Event

/-- An event with the machine at its time. -/
structure Record where
  event : Event
  machine : Machine

structure Chronicle where
  machine : Machine
  records : List Record

abbrev Recorded := EStateM Halt Chronicle

namespace Recorded
variable {α β : Type}

def lift (x : Eval α) : Recorded α := fun s =>
  match x s.machine with
  | .ok a m => .ok a { s with machine := m }
  | .error reason m => .error reason { s with machine := m }

def note (event : Event) : Recorded Unit :=
  modify fun s => { s with records := s.records ++ [⟨event, s.machine⟩] }

def indented (x : Recorded α) : Recorded α := fun s =>
  match x { s with machine := { s.machine with trace := s.machine.trace.indent } } with
  | .ok a t => .ok a { t with machine := { t.machine with trace := t.machine.trace.dedent } }
  | .error reason t =>
    .error reason { t with machine := { t.machine with trace := t.machine.trace.dedent } }

def erase : EStateM.Result Halt Chronicle α → EStateM.Result Halt Machine α
  | .ok a s => .ok a s.machine
  | .error reason s => .error reason s.machine

def final : EStateM.Result Halt Chronicle α → Chronicle
  | .ok _ s => s
  | .error _ s => s

/-- A recorded computation that is another one when its records are left out. -/
def Erases (x : Recorded α) (y : Eval α) : Prop :=
  ∀ s, erase (x s) = y s.machine

namespace Erases

theorem pure (a : α) : Erases (pure a) (pure a) := fun _ => rfl

theorem bind {x : Recorded α} {y : Eval α} {f : α → Recorded β} {g : α → Eval β}
    (h : Erases x y) (hf : ∀ a, Erases (f a) (g a)) : Erases (x >>= f) (y >>= g) := by
  intro s
  have hx := h s
  cases hs : x s with
  | ok a t =>
      rw [hs] at hx
      rw [bind_of_ok hs, bind_of_ok hx.symm]
      exact hf a t
  | error reason t =>
      rw [hs] at hx
      rw [bind_of_error hs, bind_of_error hx.symm]
      rfl

theorem lift (x : Eval α) : Erases (lift x) x := by
  intro s
  unfold Recorded.lift
  cases x s.machine <;> rfl

theorem note (event : Event) {x : Recorded α} {y : Eval α} (h : Erases x y) :
    Erases (do note event; x) y :=
  fun s => h { s with records := s.records ++ [⟨event, s.machine⟩] }

theorem noted {x : Recorded α} {y : Eval α} (h : Erases x y) (event : α → Event) :
    Erases (do let a ← x; Recorded.note (event a); return a) y := by
  have hbind := h.bind (g := Pure.pure) fun a => note (event a) (pure a)
  rwa [bind_pure] at hbind

theorem get {x : Machine → Recorded α} {y : Eval α} (h : ∀ m, Erases (x m) y) :
    Erases (do x (← Recorded.lift get)) y :=
  fun s => h s.machine s

theorem indented {x : Recorded α} {y : Eval α} (h : Erases x y) :
    Erases (indented x) (Eval.indented y) := by
  intro s
  have hx := h { s with machine := { s.machine with trace := s.machine.trace.indent } }
  simp only [Recorded.indented, Eval.indented]
  dsimp only at hx
  rw [← hx]
  cases x { s with machine := { s.machine with trace := s.machine.trace.indent } } <;> rfl

end Erases

end Recorded

namespace Observer
open Recorded

/-- The observer that records every event and then says about it what `trace` says. -/
def recorder (trace : Event → Eval Unit) (inBody : Recorded Completion → Recorded Completion)
    (onAbort : Failure → Eval Unit) : Observer Recorded where
  onExpr env e x := do
    let value ← x
    note (.evaluated env e value)
    return value
  onDecl env d x := do
    let completion ← x
    note (.executed env d completion)
    return completion
  onCall callee function arguments x := do
    let before ← lift get
    let value ← x
    note (.called callee function arguments before value)
    lift (trace (.called callee function arguments before value))
    return value
  onUnary op operand position := do
    let value := op.apply operand position
    note (.unary op operand value)
    lift (trace (.unary op operand value))
    return value
  onBinary op left right position := do
    let value ← lift (op.apply left right position)
    note (.binary op left right value)
    lift (trace (.binary op left right value))
    return value
  inBody := inBody
  onAbort failure := lift (onAbort failure)
  step := lift

/-- The observer that records and traces. -/
def recording : Observer Recorded :=
  recorder Event.trace indented traceAbort

theorem recording_plain : Related Erases recording plain where
  pure := .pure
  bind := .bind
  step {_ x} _ := .lift x
  onExpr _ _ _ _ h := h.noted _
  onDecl _ _ _ _ h := h.noted _
  onCall _ _ _ _ _ h :=
    .get fun _ => h.bind fun _ => .note _ <| .bind (.lift _) fun _ => .pure _
  onUnary _ _ _ := .note _ <| .bind (.lift _) fun _ => .pure _
  onBinary _ _ _ _ :=
    .bind (.lift _) fun _ => .note _ <| .bind (.lift _) fun _ => .pure _
  inBody h := h.indented
  onAbort failure := .lift (traceAbort failure)

end Observer

namespace Program

/-- Everything that ends in a run, in the order in which it ends. -/
def history (budget : Budget) (program : Program) (m : Machine) : List Record :=
  (Recorded.final (Observer.recording.run budget program ⟨m, []⟩)).records

/-- A recorded run is the run of the program. -/
theorem erase_recording (budget : Budget) (program : Program) (s : Chronicle) :
    Recorded.erase (Observer.recording.run budget program s) = program.run budget s.machine := by
  rw [← Observer.run_plain]
  exact Observer.recording_plain.run budget program s

end Program

end Script
