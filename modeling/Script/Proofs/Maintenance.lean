import Script.Proofs.Narrative
import Script.Proofs.ScopedUpkeep

/-!
# Maintaining a view of the state

A view describes the state of a computation by a world: the state itself, a log, or a table of what
has been made so far. Worlds move on along a course, and how they may do so can depend on the
environment in which names may be defined. A computation maintains a view if each state that it
leaves, also by a halt, is viewed by a world further on.

The rules below are those that `ScopedUpkeep` asks for of every observer, and one for each way in
which the moments of a run are logged.
-/

namespace Script

/-- How worlds move on. What may happen without defining names in a given environment may also
happen where names may be defined. -/
structure Course (W : Type) where
  moves : Option Env → W → W → Prop
  refl (env? : Option Env) (w : W) : moves env? w w
  trans {env? : Option Env} {a b c : W} : moves env? a b → moves env? b c → moves env? a c
  widen {env? : Option Env} {a b : W} : moves none a b → moves env? a b

section
variable {W σ α β : Type}

/-- What a computation leaves behind: a state that is viewed by a world further on, in which `Q`
holds of the result if there is one. -/
def Leaves (c : Course W) (I : W → σ → Prop) (env? : Option Env) (w : W) (Q : W → α → Prop) :
    EStateM.Result Halt σ α → Prop
  | .ok a t => ∃ w', c.moves env? w w' ∧ I w' t ∧ Q w' a
  | .error _ t => ∃ w', c.moves env? w w' ∧ I w' t

def Maintains (c : Course W) (I : W → σ → Prop) (env? : Option Env) (w : W)
    (x : EStateM Halt σ α) (Q : W → α → Prop) : Prop :=
  ∀ s, I w s → Leaves c I env? w Q (x s)

namespace Maintains
variable {c : Course W} {I : W → σ → Prop} {env? : Option Env} {w : W} {Q : W → α → Prop}
variable {Q' : W → β → Prop}

theorem pure {a : α} (h : Q w a) : Maintains c I env? w (pure a) Q :=
  fun _ viewed => ⟨w, c.refl env? w, viewed, h⟩

theorem bind {x : EStateM Halt σ α} {f : α → EStateM Halt σ β} (hx : Maintains c I env? w x Q)
    (hf : ∀ w' a, c.moves env? w w' → Q w' a → Maintains c I env? w' (f a) Q') :
    Maintains c I env? w (x >>= f) Q' := by
  intro s viewed
  have left := hx s viewed
  cases hs : x s with
  | error reason t =>
      rw [hs] at left
      rw [bind_of_error hs]
      exact left
  | ok a t =>
      rw [hs] at left
      obtain ⟨w', moved, viewed, ha⟩ := left
      rw [bind_of_ok hs]
      have right := hf w' a moved ha t viewed
      cases ht : f a t with
      | error reason u =>
          rw [ht] at right
          obtain ⟨w'', moved', viewed⟩ := right
          exact ⟨w'', c.trans moved moved', viewed⟩
      | ok b u =>
          rw [ht] at right
          obtain ⟨w'', moved', viewed, hb⟩ := right
          exact ⟨w'', c.trans moved moved', viewed, hb⟩

theorem mono {env?' : Option Env} {x : EStateM Halt σ α} (h : Maintains c I env? w x Q)
    (le : ∀ w', c.moves env? w w' → c.moves env?' w w') : Maintains c I env?' w x Q := by
  intro s viewed
  have left := h s viewed
  generalize x s = result at left
  cases result with
  | ok a t =>
      obtain ⟨w', moved, rest⟩ := left
      exact ⟨w', le w' moved, rest⟩
  | error reason t =>
      obtain ⟨w', moved, rest⟩ := left
      exact ⟨w', le w' moved, rest⟩

theorem widen {x : EStateM Halt σ α} (h : Maintains c I none w x Q) : Maintains c I env? w x Q :=
  h.mono fun _ => c.widen

theorem imp {P : W → α → Prop} {x : EStateM Halt σ α} (h : Maintains c I env? w x P)
    (weaker : ∀ w' a, P w' a → Q w' a) : Maintains c I env? w x Q := by
  intro s viewed
  have left := h s viewed
  generalize x s = result at left
  cases result with
  | ok a t =>
      obtain ⟨w', moved, viewed, ha⟩ := left
      exact ⟨w', moved, viewed, weaker w' a ha⟩
  | error reason t => exact left

/-- In the end the state is viewed by some world further on. -/
theorem final {L : Type} {I : W → Logged L → Prop} {x : EStateM Halt (Logged L) α}
    (h : Maintains c I env? w x Q) (s : Logged L) (viewed : I w s) :
    ∃ w', c.moves env? w w' ∧ I w' (Logged.final (x s)) := by
  have left := h s viewed
  generalize x s = result at left
  cases result with
  | ok a t =>
      obtain ⟨w', moved, viewed, -⟩ := left
      exact ⟨w', moved, viewed⟩
  | error reason t => exact left

end Maintains

end

namespace Maintains
variable {W α : Type} {c : Course W} {I : W → Logged Moment → Prop} {env? : Option Env} {w : W}
variable {Q : W → α → Prop}

theorem indented {x : Narrated α}
    (blind : ∀ w s t, I w s → I w { s with machine := { s.machine with trace := t } })
    (h : Maintains c I env? w x Q) : Maintains c I env? w (Logged.indented x) Q := by
  intro s viewed
  have left := h _ (blind w s s.machine.trace.indent viewed)
  unfold Logged.indented
  generalize x _ = result at left
  cases result with
  | ok a t =>
      obtain ⟨w', moved, viewed, ha⟩ := left
      exact ⟨w', moved, blind w' t _ viewed, ha⟩
  | error reason t =>
      obtain ⟨w', moved, viewed⟩ := left
      exact ⟨w', moved, blind w' t _ viewed⟩

theorem tell {moment : Moment} {P : W → Prop}
    (h : ∀ s, I w s → ∃ w', c.moves env? w w' ∧ I w' ⟨s.machine, s.log ++ [moment]⟩ ∧ P w') :
    Maintains c I env? w (Narrated.tell moment) fun w' _ => P w' :=
  h

/-- A step is viewed together with its moment. A step that halts has none. -/
theorem step {x : Eval α} (h : ∀ s, I w s → match x s.machine with
      | .ok a m => ∃ w', c.moves env? w w' ∧ I w' ⟨m, s.log ++ [.stepped m]⟩ ∧ Q w' a
      | .error _ m => ∃ w', c.moves env? w w' ∧ I w' ⟨m, s.log⟩) :
    Maintains c I env? w (Narrated.step x) Q := by
  intro s viewed
  have left := h s viewed
  cases hs : x s.machine with
  | ok a m =>
      rw [hs] at left
      rw [Narrated.step_of_ok hs]
      exact left
  | error reason m =>
      rw [hs] at left
      rw [Narrated.step_of_error hs]
      exact left

theorem halt (reason : Halt) : Maintains c I env? w (Narrated.step (throw reason : Eval α)) Q :=
  step fun _ viewed => ⟨w, c.refl env? w, viewed⟩

theorem between {before : Moment} {after : α → Moment} {x : Narrated α} {P : W → Prop}
    (first : ∀ s, I w s → ∃ w', c.moves env? w w' ∧ I w' ⟨s.machine, s.log ++ [before]⟩ ∧ P w')
    (hx : ∀ w', c.moves env? w w' → P w' → Maintains c I env? w' x Q)
    (last : ∀ w' a s, c.moves env? w w' → Q w' a → I w' s →
      ∃ w'', c.moves env? w' w'' ∧ I w'' ⟨s.machine, s.log ++ [after a]⟩ ∧ Q w'' a) :
    Maintains c I env? w (Narrated.between before after x) Q := by
  refine (tell first).bind fun w' _ moved started => ?_
  refine (hx w' moved started).bind fun w'' a moved' ha => ?_
  have told := tell (P := fun w => Q w a) fun s => last w'' a s (c.trans moved moved') ha
  exact told.bind fun _ _ _ done => pure done

end Maintains

end Script
