import Mathlib.Data.List.Basic
import Script.Proofs.History
import Script.Proofs.TraceIndependence

/-!
# Runs without traces

The observer `silent` says nothing at all: calls and operators have their results, and no readable
form of anything is made. A run whose trace is off is not the silent run in general. It still makes
the readable forms that a trace would show, and the first value that has none halts it, right after
the call or the operator is done. Up to that point the two runs agree, and if there is no such value
they agree altogether.
-/

namespace Script

/-- The observer that does nothing but the steps. -/
def Observer.silent : Observer Eval where
  onExpr _ _ x := x
  onDecl _ _ x := x
  onCall _ _ _ x := x
  onUnary op operand position := pure (op.apply operand position)
  onBinary := BinaryOp.apply
  inBody x := x
  onAbort _ := pure ()
  step x := x

def Program.runSilent (budget : Budget) (program : Program) : Eval (Option Failure) :=
  Observer.silent.run budget program

/-- Why some value that belongs to a record has no readable form, with the machine at its time. -/
def Record.unreadable? (r : Record) : Option (Halt × Machine) :=
  match r.event.shown.mapM r.machine.display with
  | .ok _ => none
  | .error reason => some (reason, r.machine)

/-- The observer that records and says nothing. -/
def Observer.silentRecording : Observer Recorded :=
  recorder (fun _ => pure ()) id fun _ => pure ()

def Program.silentHistory (budget : Budget) (program : Program) (m : Machine) : List Record :=
  (Recorded.final (Observer.silentRecording.run budget program ⟨m, []⟩)).records

theorem Observer.silentRecording_silent :
    Related Recorded.Erases Observer.silentRecording Observer.silent where
  pure := .pure
  bind := .bind
  step {_ x} _ := .lift x
  onExpr _ _ _ _ h := h.noted _
  onDecl _ _ _ _ h := h.noted _
  onCall _ _ _ _ _ h := .get fun _ => h.noted _
  onUnary _ _ _ := .note _ (.pure _)
  onBinary op left right position := (Recorded.Erases.lift (op.apply left right position)).noted _
  inBody h := h
  onAbort _ := .lift (pure ())

/-- The machine keeps its trace off. -/
def Chronicle.Off (s : Chronicle) : Prop := s.machine.trace.enabled = false

/-- A recorded computation without traces against a computation that traces: with the trace off, the
second one halts at the first unreadable value that the first one records, and if there is none it
is the first one. -/
def Interrupts {α : Type} (x : Recorded α) (y : Eval α) : Prop :=
  ∀ s : Chronicle, s.Off → ∃ new, (Recorded.final (x s)).records = s.records ++ new ∧
    (Recorded.final (x s)).Off ∧ (∀ r ∈ new, r.machine.trace.enabled = false) ∧
    y s.machine = match new.findSome? Record.unreadable? with
      | some (reason, m) => .error reason m
      | none => Recorded.erase (x s)

namespace Interrupts
variable {α β : Type}

theorem pure (a : α) : Interrupts (pure a) (pure a) :=
  fun s off => ⟨[], (List.append_nil _).symm, off, by simp, rfl⟩

theorem bind {x : Recorded α} {y : Eval α} {f : α → Recorded β} {g : α → Eval β}
    (h : Interrupts x y) (hf : ∀ a, Interrupts (f a) (g a)) :
    Interrupts (x >>= f) (y >>= g) := by
  intro s off
  obtain ⟨new, records, off', offs, halts⟩ := h s off
  cases hx : x s with
  | error reason t =>
      rw [hx] at records off' halts
      rw [bind_of_error hx]
      refine ⟨new, records, off', offs, ?_⟩
      cases hnew : new.findSome? Record.unreadable? with
      | none => exact bind_of_error (halts.trans (by rw [hnew]; rfl))
      | some halt => exact bind_of_error (halts.trans (by rw [hnew]))
  | ok a t =>
      rw [hx] at records off' halts
      obtain ⟨more, records', off'', offs', halts'⟩ := hf a t off'
      rw [bind_of_ok hx]
      refine ⟨new ++ more, ?_, off'', ?_, ?_⟩
      · dsimp only [Recorded.final] at records
        rw [records', records, List.append_assoc]
      · intro r hr
        rcases List.mem_append.mp hr with hr | hr
        · exact offs r hr
        · exact offs' r hr
      · rw [List.findSome?_append]
        cases hnew : new.findSome? Record.unreadable? with
        | some halt => exact bind_of_error (halts.trans (by rw [hnew]))
        | none => exact (bind_of_ok (halts.trans (by rw [hnew]; rfl))).trans halts'

theorem lift {x : Eval α} (h : Alike x x) : Interrupts (Recorded.lift x) x := by
  intro s off
  have same := h.trace_eq off
  have result : Recorded.erase (Recorded.lift x s) = x s.machine := Recorded.Erases.lift x s
  have records : (Recorded.final (Recorded.lift x s)).records = s.records := by
    unfold Recorded.lift
    cases x s.machine <;> rfl
  have machine : (Recorded.final (Recorded.lift x s)).machine = Eval.final (x s.machine) := by
    unfold Recorded.lift
    cases x s.machine <;> rfl
  refine ⟨[], by rw [records, List.append_nil], ?_, by simp, result.symm⟩
  rw [Chronicle.Off, machine, same]
  exact off

theorem get {x : Machine → Recorded α} {y : Eval α} (h : ∀ m, Interrupts (x m) y) :
    Interrupts (do x (← Recorded.lift get)) y :=
  fun s off => h s.machine s off

theorem report (event : Event) (a : α) :
    Interrupts (do Recorded.note event; Recorded.lift (Pure.pure ()); return a)
      (do event.trace; return a) := by
  intro s off
  refine ⟨[⟨event, s.machine⟩], rfl, off, by simpa only [List.mem_singleton, forall_eq], ?_⟩
  have traced := event.traces.off off
  simp only [List.findSome?_cons, List.findSome?_nil, Record.unreadable?]
  cases hshown : event.shown.mapM s.machine.display with
  | error reason =>
      rw [hshown] at traced
      exact bind_of_error traced
  | ok shown =>
      rw [hshown] at traced
      exact bind_of_ok traced

theorem noted {x : Recorded α} {y : Eval α} (h : Interrupts x y) {event : α → Event}
    (quiet : ∀ a, (event a).trace = Pure.pure ()) :
    Interrupts (do let a ← x; Recorded.note (event a); return a) y := by
  have hbind := h.bind (g := Pure.pure) fun a => by
    have hreport := report (event a) a
    rw [quiet, pure_bind] at hreport
    exact hreport
  rwa [bind_pure] at hbind

theorem machine_mem {new : List Record} {reason : Halt} {m : Machine}
    (h : new.findSome? Record.unreadable? = some (reason, m)) : ∃ r ∈ new, r.machine = m := by
  obtain ⟨r, hr, hreason⟩ := List.exists_of_findSome?_eq_some h
  refine ⟨r, hr, ?_⟩
  unfold Record.unreadable? at hreason
  split at hreason
  · cases hreason
  · exact (Prod.mk.inj (Option.some.inj hreason)).2

theorem indented_off {y : Eval α} {m : Machine} (off : m.trace.enabled = false)
    (off' : (Eval.final (y m)).trace.enabled = false) : Eval.indented y m = y m := by
  have indent : ({ m with trace := m.trace.indent } : Machine) = m := by simp [Trace.indent, off]
  have dedent (n : Machine) (h : n.trace.enabled = false) : n.trace.dedent = n.trace := by
    simp [Trace.dedent, h]
  simp only [Eval.indented, indent]
  cases hm : y m with
  | ok a n =>
      rw [hm] at off'
      dsimp only
      rw [dedent n off']
  | error reason n =>
      rw [hm] at off'
      dsimp only
      rw [dedent n off']

theorem indented {x : Recorded α} {y : Eval α} (h : Interrupts x y) :
    Interrupts x (Eval.indented y) := by
  intro s off
  obtain ⟨new, records, off', offs, halts⟩ := h s off
  refine ⟨new, records, off', offs, ?_⟩
  rw [← halts]
  apply indented_off off
  rw [halts]
  cases hnew : new.findSome? Record.unreadable? with
  | none =>
      dsimp only
      unfold Chronicle.Off at off'
      cases hx : x s <;> rw [hx] at off' <;> exact off'
  | some halt =>
      obtain ⟨r, hr, hm⟩ := machine_mem hnew
      change halt.2.trace.enabled = false
      rw [← hm]
      exact offs r hr

end Interrupts

theorem Observer.silentRecording_plain :
    Related Interrupts Observer.silentRecording Observer.plain where
  pure := .pure
  bind := .bind
  step h := .lift h.alike
  onExpr _ _ _ _ h := h.noted fun _ => rfl
  onDecl _ _ _ _ h := h.noted fun _ => rfl
  onCall callee function arguments _ _ h :=
    .get fun before => h.bind fun v => .report (.called callee function arguments before v) v
  onUnary op operand position :=
    .report (.unary op operand (op.apply operand position)) (op.apply operand position)
  onBinary op left right position :=
    .bind (.lift (Eval.Nameless.apply op left right position).alike) fun v =>
      .report (.binary op left right v) v
  inBody h := h.indented
  onAbort failure s off :=
    ⟨[], (List.append_nil _).symm, off, by simp, (Traces.line _).off off⟩

/-- With the trace off, a run is the silent run up to the first call or operator that has a value
without a readable form among its operands and its result. There it halts; if there is no such call
or operator, the run is the silent run. -/
theorem Program.run_of_trace_off (budget : Budget) (program : Program) (m : Machine)
    (off : m.trace.enabled = false) :
    program.run budget m =
      match (program.silentHistory budget m).findSome? Record.unreadable? with
      | some (reason, m') => .error reason m'
      | none => program.runSilent budget m := by
  obtain ⟨new, records, -, -, halts⟩ :=
    Observer.silentRecording_plain.run budget program ⟨m, []⟩ off
  rw [Observer.run_plain] at halts
  have erased : _ = program.runSilent budget m :=
    Observer.silentRecording_silent.run budget program ⟨m, []⟩
  rw [← erased, silentHistory, records, List.nil_append]
  exact halts

/-- The program `var a = [0]; set(a, 0, a); println("done");`. -/
def Program.selfContaining : Program :=
  [.stmt (.declare (text "a") (.array [.literal (.integer 0)])),
    .stmt (.eval (.call (text "set")
      [.name (text "a") ⟨1, 18⟩, .literal (.integer 0), .name (text "a") ⟨1, 24⟩] ⟨1, 14⟩)),
    .stmt (.eval (.call (text "println") [.literal (.string (text "done"))] ⟨1, 28⟩))]

theorem Program.run_of_trace_off_selfContaining :
    (Machine.initial ⟨[], none⟩ (.empty false 3)).trace.enabled = false ∧
      ∃ m, selfContaining.run .standard (.initial ⟨[], none⟩ (.empty false 3)) =
        .error .recursion m ∧ m.output = #[] := by
  refine ⟨rfl, ?_⟩
  rw [run_of_trace_off .standard selfContaining _ rfl]
  exact ⟨_, rfl, rfl⟩

/-- A run is not the silent run, not even if its trace is off. -/
theorem Program.not_forall_run_eq_runSilent :
    letI : CharacterNames := .ofList []
    ¬ ∀ source program input, Program.load source = .ok program →
      program.run .standard (.initial input (.empty false 3)) =
        program.runSilent .standard (.initial input (.empty false 3)) := by
  let _ : CharacterNames := .ofList []
  intro h
  have loaded : Program.load (text "!\"\\ud800\";") =
      .ok [.stmt (.eval (.unary .not (.literal (.string [⟨0xd800, by decide⟩])) ⟨1, 1⟩))] := by
    cbv
  have same := h _ _ ⟨[], none⟩ loaded
  cases same

end Script
