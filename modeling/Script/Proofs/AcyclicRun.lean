import Script.Proofs.AcyclicSteps
import Script.Proofs.History
import Script.Proofs.Upkeep

/-!
# Runs make no cycles of arrays

The arrays of a run form no cycle, with one exception: a call of `set` that puts into an array a
value from which the array can be reached. Such a call is the last thing that ends in its run, since
its first argument has no readable form. A run that comes to its end therefore leaves no cycle.
-/

namespace Script

namespace Record

/-- A call of `set` that puts a value into an array that can be reached from this value. -/
def ClosesCycle (r : Record) : Prop :=
  ∃ callee a i v before,
    r.event = .called callee (.builtin .set) [.array a, .integer i, v] before .nil ∧
    before.Reaches v a

/-- There was no cycle before a call. -/
def StartsAcyclic (r : Record) : Prop :=
  ∀ before, r.event.before? = some before → before.Acyclic

theorem StartsAcyclic.called {callee : Name} {function : Value} {arguments : List Value}
    {before m : Machine} {result : Value} (acyclic : before.Acyclic) :
    StartsAcyclic ⟨.called callee function arguments before result, m⟩ := by
  rintro _ ⟨⟩
  exact acyclic

theorem ClosesCycle.before?_ne_none {r : Record} (h : r.ClosesCycle) :
    r.event.before? ≠ none := by
  obtain ⟨callee, a, i, v, before, same, -⟩ := h
  rw [same]
  exact Option.some_ne_none before

/-- A record that no cycle has to do with. -/
structure Clean (r : Record) : Prop where
  sound : r.machine.Sound
  starts : r.StartsAcyclic
  stays : ¬ r.ClosesCycle

theorem Clean.of_before?_eq_none {r : Record} (sound : r.machine.Sound)
    (other : r.event.before? = none) : r.Clean where
  sound := sound
  starts before h := by
    rw [other] at h
    cases h
  stays closes := closes.before?_ne_none other

/-- A record of a call that closes a cycle. -/
structure Closing (r : Record) : Prop where
  starts : r.StartsAcyclic
  closes : r.ClosesCycle
  cyclic : ¬ r.machine.Acyclic

end Record

namespace Recorded

/-- What comes of a recorded computation that starts with `n` arrays: a sound machine with no fewer
arrays, of which `Q` holds together with the result, or a halt. All records are clean, but the last
one may close a cycle, and nothing but the trace has changed since. -/
inductive Upholds {α : Type} (n : Nat) (Q : Nat → α → Prop) :
    EStateM.Result Halt Chronicle α → Prop
  | ok {a : α} {s : Chronicle} : s.machine.Sound → (∀ r ∈ s.records, r.Clean) →
      n ≤ s.machine.arrays.size → Q s.machine.arrays.size a → Upholds n Q (.ok a s)
  | halted (reason : Halt) {s : Chronicle} : (∀ r ∈ s.records, r.Clean) →
      Upholds n Q (.error reason s)
  | closed {reason : Halt} {records : List Record} {r : Record} (m : Machine) :
      reason.IsUnreadable → (∀ r ∈ records, r.Clean) → r.Closing →
      m.untraced = r.machine.untraced → Upholds n Q (.error reason ⟨m, records ++ [r]⟩)

theorem Upholds.mono {α : Type} {n n' : Nat} {Q : Nat → α → Prop}
    {result : EStateM.Result Halt Chronicle α} (h : Upholds n' Q result) (le : n ≤ n') :
    Upholds n Q result := by
  cases h with
  | ok sound clean le' ha => exact .ok sound clean (Nat.le_trans le le') ha
  | halted reason clean => exact .halted reason clean
  | closed m reason clean closing same => exact .closed m reason clean closing same

def Keeps {α : Type} (n : Nat) (x : Recorded α) (Q : Nat → α → Prop) : Prop :=
  ∀ s : Chronicle, s.machine.Sound → (∀ r ∈ s.records, r.Clean) → s.machine.arrays.size = n →
    Upholds n Q (x s)

namespace Keeps
variable {α β : Type} {n : Nat} {Q : Nat → α → Prop} {Q' : Nat → β → Prop}

theorem pure {a : α} (h : Q n a) : Keeps n (pure a) Q := by
  rintro s sound clean rfl
  exact .ok sound clean (Nat.le_refl _) h

theorem andThen {x : Recorded α} {f : α → Recorded β} (hx : Keeps n x Q)
    (hf : ∀ a t, t.machine.Sound → (∀ r ∈ t.records, r.Clean) → n ≤ t.machine.arrays.size →
      Q t.machine.arrays.size a → Upholds n Q' (f a t)) : Keeps n (x >>= f) Q' := by
  intro s sound clean size
  have outcome := hx s sound clean size
  generalize hs : x s = result at outcome
  cases outcome with
  | @ok a t sound clean le ha =>
      rw [bind_of_ok hs]
      exact hf a t sound clean le ha
  | halted reason clean =>
      rw [bind_of_error hs]
      exact .halted reason clean
  | closed m reason clean closing same =>
      rw [bind_of_error hs]
      exact .closed m reason clean closing same

theorem bind {x : Recorded α} {f : α → Recorded β} (hx : Keeps n x Q)
    (hf : ∀ n' a, n ≤ n' → Q n' a → Keeps n' (f a) Q') : Keeps n (x >>= f) Q' :=
  hx.andThen fun a t sound clean le ha => (hf _ a le ha t sound clean rfl).mono le

theorem lift {x : Eval α} (h : Eval.Keeps n x Q) : Keeps n (lift x) Q := by
  intro s sound clean size
  unfold Recorded.lift
  cases hs : x s.machine with
  | error reason m => exact .halted reason clean
  | ok a m =>
      obtain ⟨sound', le, ha⟩ := h _ a m sound size hs
      exact .ok sound' clean le ha

theorem clean_append {records : List Record} {r : Record} (clean : ∀ r ∈ records, r.Clean)
    (hr : r.Clean) : ∀ r' ∈ records ++ [r], r'.Clean := by
  intro r' mem
  rcases List.mem_append.mp mem with mem | mem
  · exact clean r' mem
  · rw [List.mem_singleton.mp mem]
    exact hr

theorem noted {x : Recorded α} (h : Keeps n x Q) {event : α → Event}
    (other : ∀ a, (event a).before? = none) :
    Keeps n (do let a ← x; note (event a); return a) Q :=
  h.andThen fun a _ sound clean le ha =>
    .ok sound (clean_append clean (.of_before?_eq_none sound (other a))) le ha

section Reported
variable {event : Event} {a : α} {s : Chronicle} (clean : ∀ r ∈ s.records, r.Clean)
include clean

theorem reported (record : Record.Clean ⟨event, s.machine⟩) (le : n ≤ s.machine.arrays.size)
    (ha : Q s.machine.arrays.size a) :
    Upholds n Q ((do note event; Recorded.lift event.trace; return a : Recorded α) s) := by
  have all := clean_append clean record
  change Upholds n Q ((Recorded.lift event.trace >>= fun _ => Pure.pure a)
    ⟨s.machine, s.records ++ [⟨event, s.machine⟩]⟩)
  obtain ⟨t, traced⟩ | ⟨reason, traced, -⟩ := event.traces.result s.machine
  · rw [bind_of_ok (by rw [Recorded.lift, traced])]
    exact .ok (record.sound.retraced t) all le ha
  · rw [bind_of_error (by rw [Recorded.lift, traced])]
    exact .halted reason all

/-- What is recorded after a cycle has been closed cannot be traced. -/
theorem closed (record : Record.Closing ⟨event, s.machine⟩) {v : Value} (shown : v ∈ event.shown)
    (unreadable : ∃ reason, s.machine.display v = .error reason) :
    Upholds n Q ((do note event; Recorded.lift event.trace; return a : Recorded α) s) := by
  obtain ⟨reason, fails⟩ := Machine.exists_error_of_mem_mapM shown unreadable
  obtain ⟨w, -, hw⟩ := Machine.exists_of_mapM_error fails
  obtain ⟨t, -, traced⟩ := event.traces s.machine
  rw [fails] at traced
  change Upholds n Q ((Recorded.lift event.trace >>= fun _ => Pure.pure a)
    ⟨s.machine, s.records ++ [⟨event, s.machine⟩]⟩)
  rw [bind_of_error (by rw [Recorded.lift, traced])]
  exact .closed s.machine (Machine.isUnreadable_display hw) clean record rfl

end Reported

theorem indented {x : Recorded α} (h : Keeps n x Q) : Keeps n (indented x) Q := by
  intro s sound clean size
  have outcome := h { s with machine := { s.machine with trace := s.machine.trace.indent } }
    (sound.retraced _) clean size
  unfold Recorded.indented
  generalize x _ = result at outcome
  cases outcome with
  | ok sound clean le ha => exact .ok (sound.retraced _) clean le ha
  | halted reason clean => exact .halted reason clean
  | closed m reason clean closing same => exact .closed _ reason clean closing same

theorem function {x : Recorded Value} (callee : Name) (id : FunctionId) (arguments : List Value)
    (h : Keeps n x fun n => Value.Within n) :
    Keeps n (Observer.recording.onCall callee (.function id) arguments x)
      fun n => Value.Within n := by
  intro s sound clean size
  refine h.andThen (fun v t sound' clean' le hv => ?_) s sound clean size
  refine reported clean' ⟨sound', .called sound.acyclic, ?_⟩ le hv
  rintro ⟨_, _, _, _, _, ⟨⟩, _⟩

/-- A call of `set` closes a cycle or keeps the machine sound. -/
theorem set {arguments : List Value} (callee : Name) (within : ∀ v ∈ arguments, v.Within n) :
    Keeps n (Observer.recording.onCall callee (.builtin .set) arguments
      (Observer.recording.step (Builtin.set.call arguments))) fun n => Value.Within n := by
  intro s sound clean size
  change Upholds n _ ((Recorded.lift (Builtin.set.call arguments) >>= fun value => do
    note (.called callee (.builtin .set) arguments s.machine value)
    Recorded.lift (Event.trace (.called callee (.builtin .set) arguments s.machine value))
    return value) s)
  rcases Builtin.call_set_cases arguments s.machine with
    ⟨a, i, v, rfl, bound, called⟩ | ⟨failure, called⟩
  · rw [bind_of_ok (by rw [Recorded.lift, called])]
    by_cases reaches : s.machine.Reaches v a
    · have cycle := Machine.cycle_of_reaches bound reaches
      have closes : Record.Closing ⟨.called callee (.builtin .set) [.array a, .integer i, v]
          s.machine .nil, s.machine.store a i.toNat v⟩ :=
        ⟨.called sound.acyclic, ⟨callee, a, i, v, s.machine, rfl, reaches⟩,
          fun acyclic => acyclic a cycle⟩
      exact closed clean closes List.mem_cons_self (Machine.display_cycle cycle)
    · have sound' : (s.machine.store a i.toNat v).Sound :=
        ⟨sound.toClosed.store (size ▸ within v (by simp)),
          (Machine.acyclic_store_iff sound.acyclic bound).mpr reaches⟩
      have le : n ≤ (s.machine.store a i.toNat v).arrays.size :=
        Nat.le_of_eq (by rw [Machine.size_arrays_store, size])
      refine reported clean ⟨sound', .called sound.acyclic, ?_⟩ le (.of_kind nofun)
      rintro ⟨_, _, _, _, _, ⟨⟩, h⟩
      exact reaches h
  · rw [bind_of_ok (by rw [Recorded.lift, called])]
    have le : n ≤ s.machine.arrays.size := Nat.le_of_eq size.symm
    refine reported clean ⟨sound, .called sound.acyclic, ?_⟩ le (.of_kind nofun)
    rintro ⟨_, _, _, _, _, h, _⟩
    cases h

theorem builtin {arguments : List Value} (callee : Name) (b : Builtin)
    (within : ∀ v ∈ arguments, v.Within n) :
    Keeps n (Observer.recording.onCall callee (.builtin b) arguments
      (Observer.recording.step (b.call arguments))) fun n => Value.Within n := by
  by_cases isSet : b = .set
  · subst isSet
    exact set callee within
  · intro s sound clean size
    refine (lift (b.keeps_call isSet within)).andThen (fun v t sound' clean' le hv => ?_)
      s sound clean size
    refine reported clean' ⟨sound', .called sound.acyclic, ?_⟩ le hv
    rintro ⟨_, _, _, _, _, ⟨⟩, _⟩
    exact isSet rfl

end Keeps

end Recorded

theorem Observer.recording_keeps :
    Upkeep (fun n => Value.Within n) (fun n => Value.Within n) Recorded.Keeps
      Observer.recording where
  mono le within := within.mono le
  literal n l := by cases l <;> exact .of_kind nofun
  failure n failure := .of_kind nofun
  value within := within
  settled within _ := within
  pure := .pure
  bind := .bind
  halt n reason Q _ := .lift (.halt reason)
  resolve n env name position := .lift (.resolve env name position)
  newArray within := .lift (.newArray within)
  index position _ _ := .lift (.indexValue _ _ position)
  newScope name env within := .lift (.newScope name env within)
  define env name within := .lift (.define env name within)
  assign env name within := .lift (.assign env name within)
  newFunction n name parameters body env := .lift (.newFunction name parameters body env)
  closure n id := .lift (.closure id)
  builtin callee b within := .builtin callee b within
  call callee id _ h := .function callee id _ h
  unary op position _ := by
    rintro s sound clean rfl
    exact Recorded.Keeps.reported clean (.of_before?_eq_none sound rfl) (Nat.le_refl _)
      (Eval.Keeps.unary op _ position)
  binary op position _ _ := by
    refine (Recorded.Keeps.lift (.binary op _ _ position)).andThen fun v t sound clean le hv => ?_
    exact Recorded.Keeps.reported clean (.of_before?_eq_none sound rfl) le hv
  onExpr env e h := h.noted fun _ => rfl
  onDecl env s h := h.noted fun _ => rfl
  inBody h := h.indented
  onAbort n failure := .lift (.traces (.line _))

namespace Program
variable (budget : Budget) (program : Program) (input : Input) (trace : Trace)

theorem upholds_run :
    Recorded.Upholds 0 (fun _ _ => True)
      (Observer.recording.run budget program ⟨.initial input trace, []⟩) :=
  Observer.recording_keeps.run (fun _ => .lift (.halt _)) 0 budget program _ (.initial input trace)
    (fun _ mem => absurd mem List.not_mem_nil) rfl

/-- A record of a run is clean, or it is the last one and the run halts. -/
theorem clean_or_closing {r : Record} (mem : r ∈ program.history budget (.initial input trace)) :
    r.Clean ∨ r.Closing ∧ (program.history budget (.initial input trace)).getLast? = some r ∧
      ∃ reason m, program.run budget (.initial input trace) = .error reason m ∧
        reason.IsUnreadable ∧ m.untraced = r.machine.untraced := by
  have outcome := program.upholds_run budget input trace
  have erased := program.erase_recording budget ⟨.initial input trace, []⟩
  unfold history at mem ⊢
  rw [← erased]
  generalize Observer.recording.run budget program _ = result at outcome mem
  cases outcome with
  | ok sound clean le _ => exact .inl (clean r mem)
  | halted reason clean => exact .inl (clean r mem)
  | @closed reason records r' m unreadable clean closing same =>
      rcases List.mem_append.mp mem with mem | mem
      · exact .inl (clean r mem)
      · cases List.mem_singleton.mp mem
        exact .inr ⟨closing, List.getLast?_concat, reason, m, rfl, unreadable, same⟩

theorem acyclic_of_run_ok {failure : Option Failure} {m : Machine}
    (h : program.run budget (.initial input trace) = .ok failure m) : m.Acyclic := by
  have outcome := program.upholds_run budget input trace
  rw [← program.erase_recording budget ⟨.initial input trace, []⟩] at h
  generalize Observer.recording.run budget program _ = result at outcome h
  cases outcome with
  | ok sound clean le _ =>
      cases h
      exact sound.acyclic
  | halted reason clean => cases h
  | closed m reason clean closing same => cases h

end Program

/-- In a run there is no cycle of arrays whenever an expression, a statement or an operator ends,
nor before any call, and a cycle after a call only if the call has closed it. Without a cycle, every
value has a readable form unless it holds a string that has no bytes. After a call that closes a
cycle nothing ends any more: the run halts, for want of a readable form, in the machine that the
call left but for the trace. A run that does not halt leaves no cycle. -/
theorem Program.history_acyclic (budget : Budget) (program : Program) (input : Input)
    (trace : Trace) :
    let m := Machine.initial input trace
    (∀ r ∈ program.history budget m,
      (r.event.before? = none → r.machine.Acyclic) ∧ r.StartsAcyclic ∧
      (¬ r.machine.Acyclic ↔ r.ClosesCycle) ∧
      (r.machine.Acyclic → ∀ v reason, v.Within r.machine.arrays.size →
        r.machine.display v = .error reason → ∃ e, reason = .unencodable e) ∧
      (r.ClosesCycle → (program.history budget m).getLast? = some r ∧
        ∃ reason m', program.run budget m = .error reason m' ∧ reason.IsUnreadable ∧
          m'.untraced = r.machine.untraced)) ∧
    ∀ failure m', program.run budget m = .ok failure m' → m'.Acyclic := by
  constructor
  · intro r mem
    rcases program.clean_or_closing budget input trace mem with clean | ⟨closing, halts⟩
    · have acyclic := clean.sound.acyclic
      refine ⟨fun _ => acyclic, clean.starts, ?_, fun _ v reason within h => ?_, fun closes => ?_⟩
      · exact iff_of_false (fun cyclic => cyclic acyclic) clean.stays
      · exact clean.sound.unencodable_of_display within h
      · exact absurd closes clean.stays
    · have cyclic := closing.cyclic
      refine ⟨fun other => ?_, closing.starts, ?_, fun acyclic => ?_, fun _ => halts⟩
      · exact absurd other closing.closes.before?_ne_none
      · exact iff_of_true cyclic closing.closes
      · exact absurd acyclic cyclic
  · intro failure m' h
    exact program.acyclic_of_run_ok budget input trace h

/-- An array that is put into itself closes a cycle. -/
example : ∃ r,
    (Program.history .standard
      [.stmt (.declare (text "a") (.array [.literal (.integer 0)])),
        .stmt (.eval (.call (text "set")
          [.name (text "a") ⟨2, 5⟩, .literal (.integer 0), .name (text "a") ⟨2, 11⟩] ⟨2, 1⟩))]
      (.initial ⟨[], none⟩ (.empty false 3))).getLast? = some r ∧ r.ClosesCycle :=
  ⟨_, rfl, _, _, _, _, _, rfl, _, rfl, .refl⟩

end Script
