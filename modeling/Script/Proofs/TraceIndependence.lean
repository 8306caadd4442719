import Script.Proofs.Nameless
import Script.Proofs.Observer
import Script.Report

/-!
# Runs do not depend on the trace

Two machines that differ in nothing but their traces run a program alike: with the same result or
the same halt, and again with machines that differ in nothing but their traces. A trace that is off
stays as it was. `Alike` says this of two computations, and the primitive steps of evaluation, the
built-in functions among them, are alike themselves. The comparison of observers carries it to whole
runs.
-/

namespace Script

/-- Two results that differ in the traces of their machines only, where the second machine had the
trace `t` before. -/
inductive Retraced {α : Type} (t : Trace) :
    EStateM.Result Halt Machine α → EStateM.Result Halt Machine α → Prop
  | ok (a : α) (m : Machine) (t' : Trace) : (t.enabled = false → t' = t) →
      Retraced t (.ok a m) (.ok a { m with trace := t' })
  | error (reason : Halt) (m : Machine) (t' : Trace) : (t.enabled = false → t' = t) →
      Retraced t (.error reason m) (.error reason { m with trace := t' })

/-- Two computations that differ only in what they do to the trace. -/
def Alike {α : Type} (x y : Eval α) : Prop :=
  ∀ m t, Retraced t (x m) (y { m with trace := t })

namespace Alike
variable {α β : Type}

theorem pure (a : α) : Alike (pure a) (pure a) := fun m t => .ok a m t fun _ => rfl

theorem halt (reason : Halt) : Alike (throw reason : Eval α) (throw reason) :=
  fun m t => .error reason m t fun _ => rfl

theorem bind {x y : Eval α} {f g : α → Eval β} (h : Alike x y) (hf : ∀ a, Alike (f a) (g a)) :
    Alike (x >>= f) (y >>= g) := by
  intro m t
  have hx := h m t
  generalize hm : x m = r, hm' : y { m with trace := t } = r' at hx
  cases hx with
  | error reason m t' ht =>
      rw [bind_of_error hm, bind_of_error hm']
      exact .error reason m t' ht
  | ok a m t' ht =>
      rw [bind_of_ok hm, bind_of_ok hm']
      have ha := hf a m t'
      generalize f a m = r, g a { m with trace := t' } = r' at ha
      have stays {t'' : Trace} (h' : t'.enabled = false → t'' = t') (off : t.enabled = false) :
          t'' = t := by
        have same := ht off
        exact (h' (same ▸ off)).trans same
      cases ha with
      | ok b m t'' ht' => exact .ok b m t'' (stays ht')
      | error reason m t'' ht' => exact .error reason m t'' (stays ht')

theorem get {f : Machine → Eval α} (blind : ∀ m t, f { m with trace := t } = f m)
    (h : ∀ m, Alike (f m) (f m)) : Alike (get >>= f) (get >>= f) := by
  intro m t
  change Retraced t (f m m) (f { m with trace := t } { m with trace := t })
  rw [blind m t]
  exact h m m t

theorem modifyGet {f : Machine → α × Machine}
    (blind : ∀ m t, f { m with trace := t } = ((f m).1, { (f m).2 with trace := t })) :
    Alike (modifyGet f) (modifyGet f) := by
  intro m t
  change Retraced t (.ok (f m).1 (f m).2)
    (.ok (f { m with trace := t }).1 (f { m with trace := t }).2)
  rw [blind m t]
  exact .ok _ _ t fun _ => rfl

theorem indented {x y : Eval α} (h : Alike x y) : Alike (Eval.indented x) (Eval.indented y) := by
  intro m t
  have hx := h { m with trace := m.trace.indent } t.indent
  have stays {t' : Trace} (h' : t.indent.enabled = false → t' = t.indent)
      (off : t.enabled = false) : t'.dedent = t := by
    have same : t.indent = t := by simp [Trace.indent, off]
    rw [h' (by rw [same, off]), same]
    simp [Trace.dedent, off]
  unfold Eval.indented
  dsimp only at hx ⊢
  generalize x _ = r, y _ = r' at hx
  cases hx with
  | ok a m t' ht => exact .ok a { m with trace := m.trace.dedent } t'.dedent (stays ht)
  | error reason m t' ht =>
      exact .error reason { m with trace := m.trace.dedent } t'.dedent (stays ht)

theorem ofExcept (r : Except Halt α) : Alike (Eval.ofExcept r) (Eval.ofExcept r) := by
  cases r with
  | ok a => exact pure a
  | error reason => exact halt reason

theorem trace_eq {x y : Eval α} (h : Alike x y) {m : Machine} (off : m.trace.enabled = false) :
    (Eval.final (y m)).trace = m.trace := by
  have hm : Retraced m.trace (x m) (y m) := h m m.trace
  generalize x m = r, y m = r' at hm
  cases hm with
  | ok a n t' ht => exact ht off
  | error reason n t' ht => exact ht off

end Alike

theorem Alike.display (value : Value) : Alike (Eval.display value) (Eval.display value) :=
  get (fun m t => by rw [m.display_trace]) fun _ => ofExcept _

theorem Traces.alike {values : List Value} {x : Eval Unit} (h : Traces values x) : Alike x x := by
  intro m t
  obtain ⟨u, -, hu⟩ := h m
  obtain ⟨u', off, hu'⟩ := h { m with trace := t }
  rw [hu, hu', funext (m.display_trace t)]
  cases values.mapM m.display with
  | error reason => exact .error reason m t fun _ => rfl
  | ok shown => exact .ok () { m with trace := u } u' off

/-- Where names play no part, neither does the trace. -/
theorem Eval.Nameless.alike {α : Type} {x : Eval α} (h : Nameless x) : Alike x x := by
  induction h with
  | pure a => exact .pure a
  | halt reason => exact .halt reason
  | bind _ _ hx hf => exact .bind hx hf
  | look same _ ih => exact .get (fun m t => same m m.scopes m.functions m.output t) ih
  | @change _ f same =>
      refine .modifyGet fun m t => (same m m.scopes m.functions t).trans ?_
      have kept := congrArg Prod.snd (same m m.scopes m.functions m.trace)
      change (f m).2 = _ at kept
      rw [kept]
  | display value => exact .display value
  | traceLine t => exact (Traces.line t).alike

theorem alike_resolve (env : Env) (name : Name) (position : Position) :
    Alike (resolve env name position) (resolve env name position) := by
  refine .get (fun _ _ => rfl) fun m => ?_
  split
  · exact .pure _
  · split <;> exact .pure _

theorem Primitive.alike {α : Type} {x : Eval α} (h : Primitive x) : Alike x x := by
  cases h with
  | resolve env name position => exact alike_resolve env name position
  | newArray elements => exact (Eval.Nameless.newArray elements).alike
  | index target index position => exact (Eval.Nameless.indexValue target index position).alike
  | builtin b arguments => exact (b.nameless_call arguments).alike
  | newScope name bindings env => exact .modifyGet fun _ _ => rfl
  | define env name value =>
      cases env with
      | nil => exact .pure _
      | cons id env => exact .modifyGet fun _ _ => rfl
  | assign env name value =>
      refine .modifyGet fun m t => ?_
      dsimp only
      cases m.scopes.find? name env <;> rfl
  | newFunction name parameters body env => exact .modifyGet fun _ _ => rfl
  | closure id => exact .get (fun _ _ => rfl) fun _ => .pure _
  | halt reason => exact .halt reason

theorem Observer.plain_alike : Observer.Related Alike Observer.plain Observer.plain where
  pure := .pure
  bind := .bind
  step := Primitive.alike
  onExpr _ _ _ _ h := h
  onDecl _ _ _ _ h := h
  onCall _ _ _ _ _ h := .bind h fun _ => .bind (Traces.call _ _ _).alike fun _ => .pure _
  onUnary _ _ _ := .bind (Traces.unary _ _ _).alike fun _ => .pure _
  onBinary _ _ _ _ :=
    .bind (Eval.Nameless.apply _ _ _ _).alike fun _ =>
      .bind (Traces.binary _ _ _ _).alike fun _ => .pure _
  inBody h := .indented h
  onAbort _ := (Traces.line _).alike

theorem Program.alike_run (budget : Budget) (program : Program) :
    Alike (program.run budget) (program.run budget) := by
  have h := Observer.plain_alike.run budget program
  rwa [Observer.run_plain] at h

def Machine.untraced (m : Machine) : Machine :=
  { m with trace := .empty false 0 }

/-- Whatever two traces a source is run with, both runs come to the same verdict and leave machines
that differ in their traces only. A trace that is off is left as it was. -/
theorem Machine.runSource_trace [CharacterNames] (budget : Budget) (source : Text) (m : Machine)
    (t t' : Trace) :
    let first := { m with trace := t }.runSource budget source
    let second := { m with trace := t' }.runSource budget source
    first.1 = second.1 ∧ first.2.untraced = second.2.untraced ∧
      (t.enabled = false → first.2.trace = t) := by
  cases hload : Program.load source with
  | error reason => simp [runSource, hload, untraced]
  | ok program =>
      have both := program.alike_run budget { m with trace := t } t'
      have alone := program.alike_run budget m t
      simp only [runSource, hload]
      generalize program.run budget { m with trace := t } = r,
        program.run budget { m with trace := t' } = r', program.run budget m = r₀ at both alone
      cases both with
      | error reason n u _ => cases alone with | error _ _ _ off => exact ⟨rfl, rfl, off⟩
      | ok failure n u _ =>
          cases alone with
          | ok _ _ _ off => cases failure <;> exact ⟨rfl, rfl, off⟩

end Script
