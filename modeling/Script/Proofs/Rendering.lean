import Script.Proofs.Effects
import Script.Proofs.Holdings

/-!
# The depth of readable forms

The readable form of a value is made with as many arrays open at once as there are arrays. This is
no restriction: a value that cannot be shown in this depth can be shown in none. For if a greater
depth is enough for an array and no smaller one, then an array among its elements needs just one
less, and so on down to nothing; no two of these arrays are the same, so there are no more of them
than there are arrays.

No step of evaluation halts for want of depth but one that makes readable forms.
-/

namespace Script

section Traversal
variable {α β ε : Type} {f g : α → Except ε β} {as : List α} {e : ε}

/-- Where a function agrees with another one up to an error, so do traversals. -/
theorem mapM_eq_of_ne_error (agree : ∀ a ∈ as, f a ≠ .error e → g a = f a)
    (other : as.mapM f ≠ .error e) : as.mapM g = as.mapM f := by
  induction as with
  | nil => rfl
  | cons a as ih =>
      obtain ⟨here, there⟩ := List.forall_mem_cons.mp agree
      rw [List.mapM_cons] at other
      rw [List.mapM_cons, List.mapM_cons]
      cases hf : f a with
      | error e' =>
          have differs : f a ≠ .error e := by
            intro same
            rw [same] at other
            exact other rfl
          rw [here differs, hf]
          rfl
      | ok b =>
          have rest : as.mapM f ≠ .error e := by
            intro fails
            rw [hf, fails] at other
            exact other rfl
          rw [here (by simp [hf]), hf, ih there rest]

/-- If a traversal avoids an error with a function that has all results of another one, it avoids
this error at one of the elements. -/
theorem exists_avoided_of_mapM (keeps : ∀ a b, f a = .ok b → g a = .ok b)
    (fails : as.mapM f = .error e) (avoids : as.mapM g ≠ .error e) :
    ∃ a ∈ as, f a = .error e ∧ g a ≠ .error e := by
  induction as with
  | nil => cases fails
  | cons a as ih =>
      rw [List.mapM_cons] at fails avoids
      cases hf : f a with
      | error e' =>
          rw [hf] at fails
          cases fails
          refine ⟨a, List.mem_cons_self, hf, fun same => avoids ?_⟩
          rw [same]
          rfl
      | ok b =>
          rw [hf] at fails
          rw [keeps a b hf] at avoids
          have rest : as.mapM f = .error e := by
            cases more : as.mapM f with
            | ok bs => rw [more] at fails; cases fails
            | error e' => rw [more] at fails; exact fails
          have rest' : as.mapM g ≠ .error e := by
            intro same
            rw [same] at avoids
            exact avoids rfl
          obtain ⟨a', mem, there⟩ := ih rest rest'
          exact ⟨a', List.mem_cons_of_mem a mem, there⟩

end Traversal

namespace Machine
variable {m : Machine} {v : Value} {a : ArrayId} {depth depth' : Nat}

/-- No depth is enough for the readable form of a value. -/
def Endless (m : Machine) (v : Value) : Prop :=
  ∀ depth, m.displayWithin depth v = .error .recursion

theorem exists_array_of_displayWithin (deep : m.displayWithin depth v = .error .recursion) :
    ∃ a, v = .array a := by
  cases v with
  | array a => exact ⟨a, rfl⟩
  | _ => cases depth <;> exact displayAtom_recursion deep

theorem displayWithin_succ (enough : m.displayWithin depth v ≠ .error .recursion) :
    m.displayWithin (depth + 1) v = m.displayWithin depth v := by
  induction depth generalizing v with
  | zero =>
      cases v with
      | array a => exact absurd rfl enough
      | _ => rfl
  | succ depth ih =>
      cases v with
      | array a =>
          have shown := mt displayWithin_array_eq_error_iff.mpr enough
          rw [displayWithin, displayWithin, mapM_eq_of_ne_error (fun w _ => ih) shown]
      | _ => rfl

theorem displayWithin_of_le (le : depth ≤ depth')
    (enough : m.displayWithin depth v ≠ .error .recursion) :
    m.displayWithin depth' v = m.displayWithin depth v := by
  induction le with
  | refl => rfl
  | step _ ih => rw [displayWithin_succ (ih ▸ enough), ih]

/-- An array for which a depth is not enough, but one more is. -/
structure Needs (m : Machine) (a : ArrayId) (depth : Nat) : Prop where
  deep : m.displayWithin depth (.array a) = .error .recursion
  enough : m.displayWithin (depth + 1) (.array a) ≠ .error .recursion

/-- An array that needs some depth has an element that needs one less. -/
theorem Needs.exists_points (needs : m.Needs a (depth + 1)) :
    ∃ b, m.Points a b ∧ m.Needs b depth := by
  have keeps (w : Value) (t : Text) (shown : m.displayWithin depth w = .ok t) :
      m.displayWithin (depth + 1) w = .ok t :=
    (displayWithin_succ (by simp [shown])).trans shown
  obtain ⟨w, mem, deep, enough⟩ := exists_avoided_of_mapM keeps
    (displayWithin_array_eq_error_iff.mp needs.deep)
    (mt displayWithin_array_eq_error_iff.mpr needs.enough)
  obtain ⟨b, rfl⟩ := exists_array_of_displayWithin deep
  exact ⟨b, Array.mem_toList_iff.mp mem, deep, enough⟩

/-- No array needs more than one depth. -/
theorem Needs.le (needs : m.Needs a depth) (needs' : m.Needs a depth') : depth ≤ depth' := by
  by_contra less
  have kept := displayWithin_of_le (Nat.lt_of_not_le less) needs'.enough
  exact needs'.enough (kept.symm.trans needs.deep)

/-- An array that needs some depth leads through arrays that need less and less. -/
theorem Needs.exists_path (closed : m.Closed) (lt : a < m.arrays.size) (needs : m.Needs a depth) :
    ∃ path : List ArrayId, path.length = depth + 1 ∧ path.Nodup ∧
      ∀ b ∈ path, b < m.arrays.size ∧ ∃ depth' ≤ depth, m.Needs b depth' := by
  induction depth generalizing a with
  | zero =>
      refine ⟨[a], rfl, List.pairwise_singleton _ a, List.forall_mem_singleton.mpr ?_⟩
      exact ⟨lt, 0, Nat.le_refl 0, needs⟩
  | succ depth ih =>
      obtain ⟨b, points, needs'⟩ := needs.exists_points
      obtain ⟨path, length, nodup, less⟩ := ih (closed.lt_of_points points) needs'
      have new : a ∉ path := by
        intro mem
        obtain ⟨-, depth', le, again⟩ := less a mem
        exact Nat.not_succ_le_self depth ((needs.le again).trans le)
      refine ⟨a :: path, by rw [List.length_cons, length], List.nodup_cons.mpr ⟨new, nodup⟩,
        List.forall_mem_cons.mpr ⟨⟨lt, _, Nat.le_refl _, needs⟩, fun c mem => ?_⟩⟩
      obtain ⟨lt', depth', le, there⟩ := less c mem
      exact ⟨lt', depth', Nat.le_succ_of_le le, there⟩

theorem Needs.lt_size (closed : m.Closed) (lt : a < m.arrays.size) (needs : m.Needs a depth) :
    depth < m.arrays.size := by
  obtain ⟨path, length, nodup, less⟩ := needs.exists_path closed lt
  have subset : path ⊆ List.range m.arrays.size := fun b mem => List.mem_range.mpr (less b mem).1
  have le := (nodup.subperm subset).length_le
  rwa [length, List.length_range] at le

/-- A value that has no readable form for want of depth has none in any depth. -/
theorem endless_of_display (closed : m.Closed) (within : v.Within m.arrays.size)
    (deep : m.display v = .error .recursion) : m.Endless v := by
  intro depth
  by_cases le : depth ≤ m.arrays.size
  · by_contra enough
    exact enough ((displayWithin_of_le le enough).symm.trans deep)
  · obtain ⟨a, rfl⟩ := exists_array_of_displayWithin deep
    -- if one more depth were enough somewhere beyond, the array would need that much
    induction depth with
    | zero => exact absurd (Nat.zero_le _) le
    | succ depth ih =>
        have before : m.displayWithin depth (.array a) = .error .recursion := by
          by_cases same : depth = m.arrays.size
          · rw [same]
            exact deep
          · exact ih (by omega)
        by_contra enough
        have less := Needs.lt_size closed (within a rfl) ⟨before, enough⟩
        omega

/-- What is made of a value in the depth of all arrays is what is made of it in any depth that is
large enough. -/
theorem display_eq_iff (closed : m.Closed) (within : v.Within m.arrays.size)
    {shown : Except Halt Text} : m.display v = shown ↔
      ∃ depth, ∀ depth', depth ≤ depth' → m.displayWithin depth' v = shown := by
  by_cases deep : m.display v = .error .recursion
  · have endless := endless_of_display closed within deep
    rw [deep]
    constructor
    · rintro rfl
      exact ⟨0, fun depth' _ => endless depth'⟩
    · rintro ⟨depth, same⟩
      exact (endless depth).symm.trans (same depth (Nat.le_refl depth))
  · constructor
    · rintro rfl
      exact ⟨m.arrays.size, fun depth' le => displayWithin_of_le le deep⟩
    · rintro ⟨depth, same⟩
      have later := displayWithin_of_le (Nat.le_max_right depth m.arrays.size) deep
      exact later.symm.trans (same _ (Nat.le_max_left depth m.arrays.size))

/-- A halt that does not come from a loop, and for want of depth only if this machine shows one of
the values `V` in no way. -/
structure Halts (m : Machine) (V : Value → Prop) (reason : Halt) : Prop where
  bounded : reason ≠ .exhausted
  nested : reason = .recursion → ∃ v, V v ∧ m.display v = .error .recursion

theorem Halts.of_display {V : Value → Prop} {reason : Halt} (hv : V v)
    (none : m.display v = .error reason) : m.Halts V reason where
  bounded := by
    rintro rfl
    exact isUnreadable_display none
  nested := by
    rintro rfl
    exact ⟨v, hv, none⟩

end Machine

namespace Eval

/-- A step that makes readable forms of the values `V` only, and halts for want of depth in no other
way. -/
def Presents {α : Type} (V : Value → Prop) (x : Eval α) : Prop :=
  ∀ m reason m', x m = .error reason m' → m'.Halts V reason

namespace Presents
variable {α β : Type} {V : Value → Prop}

theorem pure (a : α) : Presents V (pure a) := by
  rintro m reason m' ⟨⟩

theorem halt {reason : Halt} (other : ¬reason.IsSpent) :
    Presents V (throw reason : Eval α) := by
  rintro m _ _ ⟨⟩
  exact ⟨fun same => other (.inr same), fun same => absurd (.inl same) other⟩

theorem bind {x : Eval α} {f : α → Eval β} (hx : Presents V x) (hf : ∀ a, Presents V (f a)) :
    Presents V (x >>= f) := by
  intro m reason m' halted
  cases hm : x m with
  | ok a m₁ =>
      rw [bind_of_ok hm] at halted
      exact hf a m₁ reason m' halted
  | error reason₁ m₁ =>
      rw [bind_of_error hm] at halted
      cases halted
      exact hx m _ _ hm

theorem get {f : Machine → Eval α} (h : ∀ m, Presents V (f m)) : Presents V (get >>= f) :=
  fun m => h m m

theorem modifyGet (f : Machine → α × Machine) : Presents V (modifyGet f) := by
  rintro m reason m' ⟨⟩

theorem bytesOf (t : Text) : Presents V (bytesOf t) := by
  unfold Eval.bytesOf
  cases Utf8.toBytes t with
  | ok bytes => exact pure bytes
  | error e => exact halt (by simp [Halt.IsSpent])

theorem display {v : Value} (hv : V v) : Presents V (display v) := by
  intro m reason m' halted
  change ofExcept (m.display v) m = _ at halted
  cases shown : m.display v with
  | ok form => rw [shown] at halted; cases halted
  | error reason' =>
      rw [shown] at halted
      cases halted
      exact .of_display hv shown

theorem traces {values : List Value} {x : Eval Unit} (h : Traces values x)
    (all : ∀ v ∈ values, V v) : Presents V x := by
  intro m reason m' halted
  obtain ⟨rfl, v, mem, none⟩ := h.exists_of_error halted
  exact .of_display (all v mem) none

theorem indexValue (target index : Value) (position : Position) :
    Presents V (indexValue target index position) := by
  unfold Script.indexValue
  split
  · exact get fun _ => pure _
  · exact bind (bytesOf _) fun _ => pure _
  · exact pure _
  · exact pure _

theorem binary (op : BinaryOp) (left right : Value) (position : Position) :
    Presents V (op.apply left right position) := by
  unfold BinaryOp.apply
  split
  · exact pure _
  · exact pure _
  · split <;> exact pure _
  · exact bind (bytesOf _) fun _ => bind (bytesOf _) fun _ => pure _
  · exact pure _

end Presents

end Eval

namespace Builtin
open Eval
variable {V : Value → Prop}

theorem presents_callLen (value : Value) : Presents V (callLen value) := by
  cases value with
  | string t => exact .bind (.bytesOf t) fun _ => .pure _
  | array id => exact .get fun _ => .pure _
  | _ => exact .pure _

theorem presents_callFirst (value : Value) : Presents V (callFirst value) := by
  cases value with
  | string t => exact .bind (.bytesOf t) fun _ => .pure _
  | array id => exact .get fun _ => .pure _
  | _ => exact .pure _

theorem presents_callLast (value : Value) : Presents V (callLast value) := by
  cases value with
  | string t => exact .bind (.bytesOf t) fun _ => .pure _
  | array id => exact .get fun _ => .pure _
  | _ => exact .pure _

theorem presents_callRest (value : Value) : Presents V (callRest value) := by
  cases value with
  | string t => exact .bind (.bytesOf t) fun _ => .pure _
  | array id =>
      refine .get fun m => ?_
      dsimp only
      split
      · exact .pure _
      · exact .modifyGet _
  | _ => exact .pure _

theorem presents_callPush (container value : Value) : Presents V (callPush container value) := by
  cases container with
  | string s =>
      cases value with
      | string t => exact .bind (.bytesOf s) fun _ => .bind (.bytesOf t) fun _ => .pure _
      | _ => exact .pure _
  | array id => exact .get fun _ => .modifyGet _
  | _ => exact .pure _

theorem presents_callAlloc (count fill : Value) : Presents V (callAlloc count fill) := by
  cases count with
  | integer n =>
      dsimp only [callAlloc]
      split
      · exact .pure _
      · split
        · exact .halt (by simp [Halt.IsSpent])
        · exact .modifyGet _
  | _ => exact .pure _

theorem presents_callSet (array index value : Value) : Presents V (callSet array index value) := by
  cases array with
  | array a =>
      cases index with
      | integer i =>
          refine .get fun m => ?_
          dsimp only
          split
          · exact .bind (.modifyGet _) fun _ => .pure _
          · exact .pure _
      | _ => exact .pure _
  | _ => exact .pure _

theorem presents_printEach (ending : Text) {values : List Value} (all : ∀ v ∈ values, V v) :
    Presents V (printEach ending values) := by
  induction values with
  | nil => exact .pure _
  | cons value values ih =>
      obtain ⟨hv, others⟩ := List.forall_mem_cons.mp all
      exact .bind (.display hv) fun _ => .bind (.modifyGet _) fun _ => ih others

theorem presents_takeInput (b : Builtin) (read : Input → Reading) :
    Presents V (b.takeInput read) := by
  refine .get fun m => .bind (.modifyGet _) fun _ => ?_
  dsimp only
  split
  · exact .pure _
  · split
    · exact .bind (.traces (.line _) (List.forall_mem_nil _)) fun _ => .pure _
    · exact .bind (.halt (by simp [Halt.IsSpent])) fun _ => .pure _

/-- Of the built-in functions, only those that print halt for want of depth, and then for one of
their arguments. -/
theorem presents_call (b : Builtin) {arguments : List Value} (all : ∀ v ∈ arguments, V v) :
    Presents V (b.call arguments) := by
  have performed : Presents V (b.perform arguments) := by
    unfold perform
    split
    · exact presents_callLen _
    · exact presents_callFirst _
    · exact presents_callLast _
    · exact presents_callRest _
    · exact presents_callPush _ _
    · exact presents_callAlloc _ _
    · exact presents_callSet _ _ _
    · exact presents_printEach _ all
    · exact presents_printEach _ all
    · exact presents_takeInput _ _
    · exact presents_takeInput _ _
    · exact presents_takeInput _ _
    · exact presents_takeInput _ _
    · exact .pure _
  unfold call
  split
  · exact performed
  · split
    · exact performed
    · exact .pure _

end Builtin

end Script
