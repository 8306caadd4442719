import Script.Session

/-!
# Readable forms in evaluation

Making the readable form of a value changes nothing, and it halts the run if there is none. To trace
a call or an operator is to make the readable forms of its operands and its result, from left to
right, and then to write one line to the trace.
-/

namespace Script

/-- The halts that arise when a readable form is made. -/
def Halt.IsUnreadable : Halt → Prop
  | unencodable _ | recursion => True
  | memory | brokenInput _ | strayReturn | exhausted => False

namespace Machine

theorem isUnreadable_displayAtom {m : Machine} {value : Value} {reason : Halt}
    (h : m.displayAtom value = .error reason) : reason.IsUnreadable := by
  cases value with
  | string t =>
      simp only [displayAtom] at h
      cases ht : Utf8.display t with
      | error e => rw [ht] at h; cases h; trivial
      | ok shown => rw [ht] at h; cases h
  | array id => cases h; trivial
  | _ => cases h

theorem exists_of_mapM_error {α β ε : Type} {f : α → Except ε β} {as : List α} {e : ε}
    (h : as.mapM f = .error e) : ∃ a ∈ as, f a = .error e := by
  induction as with
  | nil => cases h
  | cons a as ih =>
      rw [List.mapM_cons] at h
      cases ha : f a with
      | error e' =>
          rw [ha] at h
          cases h
          exact ⟨a, List.mem_cons_self, ha⟩
      | ok b =>
          rw [ha] at h
          cases has : as.mapM f with
          | error e' =>
              rw [has] at h
              cases h
              obtain ⟨a', mem, ha'⟩ := ih has
              exact ⟨a', List.mem_cons_of_mem a mem, ha'⟩
          | ok bs => rw [has] at h; cases h

/-- An array is shown if its elements are, with one array less open. -/
theorem displayWithin_array_eq_error_iff {m : Machine} {depth : Nat} {a : ArrayId} {reason : Halt} :
    m.displayWithin (depth + 1) (.array a) = .error reason ↔
      (m.elements a).toList.mapM (m.displayWithin depth) = .error reason := by
  rw [displayWithin]
  cases (m.elements a).toList.mapM (m.displayWithin depth) with
  | ok shown => constructor <;> rintro ⟨⟩
  | error reason' => constructor <;> rintro ⟨⟩ <;> rfl

theorem exists_of_displayWithin_array {m : Machine} {depth : Nat} {a : ArrayId} {reason : Halt}
    (h : m.displayWithin (depth + 1) (.array a) = .error reason) :
    ∃ v ∈ m.elements a, m.displayWithin depth v = .error reason := by
  obtain ⟨v, mem, hv⟩ := exists_of_mapM_error (displayWithin_array_eq_error_iff.mp h)
  exact ⟨v, Array.mem_toList_iff.mp mem, hv⟩

theorem isUnreadable_displayWithin {m : Machine} {depth : Nat} {value : Value} {reason : Halt}
    (h : m.displayWithin depth value = .error reason) : reason.IsUnreadable := by
  induction depth generalizing value reason with
  | zero => exact isUnreadable_displayAtom h
  | succ depth ih =>
      cases value with
      | array id =>
          obtain ⟨v, -, hv⟩ := exists_of_displayWithin_array h
          exact ih hv
      | _ => exact isUnreadable_displayAtom h

/-- A value without a readable form holds a string that has no bytes, or nests without end. -/
theorem isUnreadable_display {m : Machine} {value : Value} {reason : Halt}
    (h : m.display value = .error reason) : reason.IsUnreadable :=
  isUnreadable_displayWithin h

theorem displayWithin_trace (m : Machine) (t : Trace) (depth : Nat) (value : Value) :
    ({ m with trace := t } : Machine).displayWithin depth value = m.displayWithin depth value := by
  induction depth generalizing value with
  | zero => rfl
  | succ depth ih =>
      cases value with
      | array id =>
          simp only [displayWithin, funext ih]
          rfl
      | _ => rfl

@[simp] theorem display_trace (m : Machine) (t : Trace) (value : Value) :
    ({ m with trace := t } : Machine).display value = m.display value :=
  displayWithin_trace m t _ value

/-- A value that has a readable form. -/
def IsReadable (m : Machine) (value : Value) : Prop :=
  ∃ shown, m.display value = .ok shown

theorem exists_of_mapM_readable {m : Machine} {values : List Value}
    (readable : ∀ v ∈ values, m.IsReadable v) : ∃ shown, values.mapM m.display = .ok shown := by
  cases made : values.mapM m.display with
  | ok shown => exact ⟨shown, rfl⟩
  | error reason =>
      obtain ⟨v, mem, unreadable⟩ := exists_of_mapM_error made
      obtain ⟨form, found⟩ := readable v mem
      cases found.symm.trans unreadable

end Machine

namespace Eval
variable {α : Type}

theorem display_bind (value : Value) (f : Text → Eval α) (m : Machine) :
    (display value >>= f) m = match m.display value with
      | .ok shown => f shown m
      | .error reason => .error reason m := by
  change EStateM.bind (ofExcept (m.display value)) f m = _
  cases m.display value <;> rfl

end Eval

/-- A computation that makes readable forms and then writes to the trace at most. A trace that is
off is left as it is. -/
def Traces (values : List Value) (x : Eval Unit) : Prop :=
  ∀ m, ∃ t, (m.trace.enabled = false → t = m.trace) ∧
    x m = match values.mapM m.display with
      | .ok _ => .ok () { m with trace := t }
      | .error reason => .error reason m

namespace Traces

theorem none : Traces [] (pure ()) := fun m => ⟨m.trace, fun _ => rfl, rfl⟩

theorem line (t : Text) : Traces [] (Eval.traceLine t) := by
  intro m
  refine ⟨m.trace.writeLine t, fun off => ?_, rfl⟩
  simp [Trace.writeLine, Trace.write, off]

theorem display {values : List Value} (value : Value) {f : Text → Eval Unit}
    (h : ∀ shown, Traces values (f shown)) :
    Traces (value :: values) (Eval.display value >>= f) := by
  intro m
  cases hv : m.display value with
  | error reason =>
      refine ⟨m.trace, fun _ => rfl, ?_⟩
      rw [Eval.display_bind, List.mapM_cons, hv]
      rfl
  | ok shown =>
      obtain ⟨t, off, ht⟩ := h shown m
      refine ⟨t, off, ?_⟩
      rw [Eval.display_bind, List.mapM_cons, hv]
      dsimp only
      rw [ht]
      cases values.mapM m.display <;> rfl

theorem displayAll {values others : List Value} {f : Text → Eval Unit}
    (h : ∀ shown, Traces others (f shown)) :
    Traces (values ++ others) (Eval.displayAll values >>= f) := by
  simp only [Eval.displayAll, bind_assoc, pure_bind]
  have hall (g : List Text → Eval Unit) (hg : ∀ shown, Traces others (g shown)) :
      Traces (values ++ others) (values.mapM Eval.display >>= g) := by
    induction values generalizing g with
    | nil => exact hg []
    | cons value values ih =>
        simp only [List.mapM_cons, bind_assoc, pure_bind, List.cons_append]
        exact display value fun shown => ih _ fun more => hg _
  exact hall _ fun shown => h _

theorem call (callee : Name) (arguments : List Value) (value : Value) :
    Traces (arguments ++ [value]) (traceCall callee arguments value) :=
  displayAll fun _ => display value fun _ => line _

theorem unary (op : UnaryOp) (operand value : Value) :
    Traces [operand, value] (traceUnary op operand value) :=
  display operand fun _ => display value fun _ => line _

theorem binary (op : BinaryOp) (left right value : Value) :
    Traces [left, right, value] (traceBinary op left right value) :=
  display left fun _ => display right fun _ => display value fun _ => line _

/-- With the trace off, tracing comes down to making the readable forms. -/
theorem off {values : List Value} {x : Eval Unit} (h : Traces values x) {m : Machine}
    (off : m.trace.enabled = false) :
    x m = match values.mapM m.display with
      | .ok _ => .ok () m
      | .error reason => .error reason m := by
  obtain ⟨t, same, ht⟩ := h m
  rw [ht, same off]

theorem exists_ok {values : List Value} {x : Eval Unit} (h : Traces values x) {m : Machine}
    (readable : ∀ v ∈ values, m.IsReadable v) : ∃ t, x m = .ok () { m with trace := t } := by
  obtain ⟨t, -, traced⟩ := h m
  obtain ⟨shown, made⟩ := Machine.exists_of_mapM_readable readable
  exact ⟨t, by rw [traced, made]⟩

/-- With the trace off, to trace readable values is to do nothing. -/
theorem off_of_readable {values : List Value} {x : Eval Unit} (h : Traces values x) {m : Machine}
    (off : m.trace.enabled = false) (readable : ∀ v ∈ values, m.IsReadable v) :
    x m = .ok () m := by
  obtain ⟨shown, made⟩ := Machine.exists_of_mapM_readable readable
  rw [h.off off, made]

/-- Tracing halts for want of a readable form of one of the values, and then changes nothing. -/
theorem exists_of_error {values : List Value} {x : Eval Unit} (h : Traces values x)
    {m m' : Machine} {reason : Halt} (halted : x m = .error reason m') :
    m' = m ∧ ∃ v ∈ values, m.display v = .error reason := by
  obtain ⟨t, -, ht⟩ := h m
  rw [ht] at halted
  cases shown : values.mapM m.display with
  | ok texts => rw [shown] at halted; cases halted
  | error reason' =>
      rw [shown] at halted
      cases halted
      exact ⟨rfl, Machine.exists_of_mapM_error shown⟩

/-- What comes of tracing: only the trace differs afterwards, or some value is unreadable. -/
theorem result {values : List Value} {x : Eval Unit} (h : Traces values x) (m : Machine) :
    (∃ t, x m = .ok () { m with trace := t }) ∨
      ∃ reason, x m = .error reason m ∧ reason.IsUnreadable := by
  obtain ⟨t, -, ht⟩ := h m
  cases hv : values.mapM m.display with
  | ok shown => exact .inl ⟨t, by rw [ht, hv]⟩
  | error reason =>
      have halted : x m = .error reason m := by rw [ht, hv]
      obtain ⟨-, value, -, hvalue⟩ := h.exists_of_error halted
      exact .inr ⟨reason, halted, Machine.isUnreadable_display hvalue⟩

end Traces

end Script
