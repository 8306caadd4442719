import Script.Proofs.Observer

/-!
# Computations that keep a log

Next to the machine, a logged computation keeps a list of entries to which it only appends. What
can stop it is any type that has a place for the halts of a run. `Shadows` says that a logged
computation does to the machine what another one does without a log, comes to the same end, and
appends entries of a certain form: a whole log if it comes to its end, and a log that is cut short
if it halts.
-/

namespace Script

structure Logged (L : Type) where
  machine : Machine
  log : List L

/-- The forms of logs. A whole log may be followed by another one, or by one that is cut short. -/
structure LogForm (L : Type) where
  whole : List L → Prop
  cut : List L → Prop
  nil : whole []
  append {a b : List L} : whole a → whole b → whole (a ++ b)
  cut_of_whole {a : List L} : whole a → cut a
  append_cut {a b : List L} : whole a → cut b → cut (a ++ b)

def LogForm.any (L : Type) : LogForm L where
  whole _ := True
  cut _ := True
  nil := trivial
  append _ _ := trivial
  cut_of_whole _ := trivial
  append_cut _ _ := trivial

namespace Logged
variable {L ε α β : Type}

/-- A computation on machines that logs nothing. -/
def lift (halt : Halt → ε) (x : Eval α) : EStateM ε (Logged L) α := fun s =>
  match x s.machine with
  | .ok a m => .ok a { s with machine := m }
  | .error reason m => .error (halt reason) { s with machine := m }

def note (entry : Machine → L) : EStateM ε (Logged L) Unit :=
  modify fun s => { s with log := s.log ++ [entry s.machine] }

def indented (x : EStateM ε (Logged L) α) : EStateM ε (Logged L) α := fun s =>
  match x { s with machine := { s.machine with trace := s.machine.trace.indent } } with
  | .ok a t => .ok a { t with machine := { t.machine with trace := t.machine.trace.dedent } }
  | .error reason t =>
    .error reason { t with machine := { t.machine with trace := t.machine.trace.dedent } }

def final : EStateM.Result ε (Logged L) α → Logged L
  | .ok _ s => s
  | .error _ s => s

/-- The result of a computation on machines as that of one that has kept this log. -/
def outcome (halt : Halt → ε) (log : List L) :
    EStateM.Result Halt Machine α → EStateM.Result ε (Logged L) α
  | .ok a m => .ok a ⟨m, log⟩
  | .error reason m => .error (halt reason) ⟨m, log⟩

/-- The same end with and without a log, where `log` has been there before. -/
inductive Alongside (form : LogForm L) (halt : Halt → ε) (log : List L) :
    EStateM.Result Halt Machine α → EStateM.Result ε (Logged L) α → Prop
  | ok {a : α} {m : Machine} {new : List L} : form.whole new →
      Alongside form halt log (.ok a m) (.ok a ⟨m, log ++ new⟩)
  | halted {reason : Halt} {m : Machine} {new : List L} : form.cut new →
      Alongside form halt log (.error reason m) (.error (halt reason) ⟨m, log ++ new⟩)

def Shadows (form : LogForm L) (halt : Halt → ε) (x : Eval α) (y : EStateM ε (Logged L) α) :
    Prop :=
  ∀ m log, Alongside form halt log (x m) (y ⟨m, log⟩)

namespace Shadows
variable {form : LogForm L} {halt : Halt → ε}

theorem pure (a : α) : Shadows form halt (pure a) (pure a) := by
  intro m log
  have whole : Alongside form halt log (.ok a m) (.ok a ⟨m, log ++ []⟩) := .ok form.nil
  rwa [List.append_nil] at whole

theorem bind {x : Eval α} {y : EStateM ε (Logged L) α} {f : α → Eval β}
    {g : α → EStateM ε (Logged L) β} (h : Shadows form halt x y)
    (hf : ∀ a, Shadows form halt (f a) (g a)) : Shadows form halt (x >>= f) (y >>= g) := by
  intro m log
  have hx := h m log
  generalize hm : x m = r, hm' : y ⟨m, log⟩ = r' at hx
  cases hx with
  | halted cut =>
      rw [bind_of_error hm, bind_of_error hm']
      exact .halted cut
  | @ok a m new whole =>
      rw [bind_of_ok hm, bind_of_ok hm']
      have ha := hf a m (log ++ new)
      generalize f a m = r, g a ⟨m, log ++ new⟩ = r' at ha
      cases ha with
      | ok whole' =>
          rw [List.append_assoc]
          exact .ok (form.append whole whole')
      | halted cut =>
          rw [List.append_assoc]
          exact .halted (form.append_cut whole cut)

theorem lift (x : Eval α) : Shadows form halt x (lift halt x) := by
  intro m log
  have nil : log ++ [] = log := List.append_nil log
  unfold Logged.lift
  cases x m with
  | ok a m' =>
      have whole : Alongside form halt log (.ok a m') (.ok a ⟨m', log ++ []⟩) := .ok form.nil
      rwa [nil] at whole
  | error reason m' =>
      have cut : Alongside form halt log (.error reason m' : EStateM.Result Halt Machine α)
          (.error (halt reason) ⟨m', log ++ []⟩) := .halted (form.cut_of_whole form.nil)
      rwa [nil] at cut

theorem note {entry : Machine → L} {x : Eval α} {y : EStateM ε (Logged L) α}
    (one : ∀ m, form.whole [entry m]) (h : Shadows form halt x y) :
    Shadows form halt x (do note entry; y) := by
  intro m log
  have hx := h m (log ++ [entry m])
  change Alongside form halt log (x m) (y ⟨m, log ++ [entry m]⟩)
  generalize x m = r, y ⟨m, log ++ [entry m]⟩ = r' at hx
  cases hx with
  | ok whole =>
      rw [List.append_assoc]
      exact .ok (form.append (one m) whole)
  | halted cut =>
      rw [List.append_assoc]
      exact .halted (form.append_cut (one m) cut)

theorem noted {entry : α → Machine → L} {x : Eval α} {y : EStateM ε (Logged L) α}
    (one : ∀ a m, form.whole [entry a m]) (h : Shadows form halt x y) :
    Shadows form halt x (do let a ← y; Logged.note (entry a); return a) := by
  have hbind := h.bind (f := Pure.pure) fun a => note (one a) (pure a)
  rwa [bind_pure] at hbind

theorem indented {x : Eval α} {y : EStateM ε (Logged L) α} (h : Shadows form halt x y) :
    Shadows form halt (Eval.indented x) (indented y) := by
  intro m log
  have hx := h { m with trace := m.trace.indent } log
  unfold Eval.indented Logged.indented
  dsimp only
  generalize x _ = r, y _ = r' at hx
  cases hx with
  | ok whole => exact .ok whole
  | halted cut => exact .halted cut

theorem exists_outcome {x : Eval α} {y : EStateM ε (Logged L) α} (h : Shadows form halt x y)
    (s : Logged L) : ∃ new, form.cut new ∧ y s = outcome halt (s.log ++ new) (x s.machine) := by
  have hx := h s.machine s.log
  generalize x s.machine = r, y ⟨s.machine, s.log⟩ = r' at hx
  cases hx with
  | ok whole => exact ⟨_, form.cut_of_whole whole, rfl⟩
  | halted cut => exact ⟨_, cut, rfl⟩

theorem eq_outcome {x : Eval α} {y : EStateM ε (Logged L) α} (h : Shadows form halt x y)
    (s : Logged L) : y s = outcome halt (final (y s)).log (x s.machine) := by
  obtain ⟨new, -, same⟩ := h.exists_outcome s
  rw [same]
  cases x s.machine <;> rfl

theorem machine_final {x : Eval α} {y : EStateM ε (Logged L) α} (h : Shadows form halt x y)
    (s : Logged L) : (final (y s)).machine = Eval.final (x s.machine) := by
  rw [h.eq_outcome s]
  cases x s.machine <;> rfl

end Shadows

end Logged

end Script
