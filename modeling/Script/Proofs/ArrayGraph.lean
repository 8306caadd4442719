import Mathlib.Data.List.Perm.Subperm
import Mathlib.Logic.Relation
import Script.Proofs.Readable

/-!
# The graph of arrays

An array points to the arrays among its elements. A new array only points to arrays that were there
before, so it closes no cycle. A changed element closes a cycle exactly if the changed array can be
reached from the new element.

The readable form of a value fails for want of depth only if arrays form a cycle, and it always
fails for an array on a cycle.
-/

namespace Script

/-- A value that is no array, or one of the first `n` arrays. -/
def Value.Within (n : Nat) (v : Value) : Prop :=
  ∀ a, v = .array a → a < n

theorem Value.Within.mono {n n' : Nat} {v : Value} (h : v.Within n) (le : n ≤ n') : v.Within n' :=
  fun a ha => Nat.lt_of_lt_of_le (h a ha) le

namespace Machine
variable {m : Machine} {a b : ArrayId} {v : Value}

def Points (m : Machine) (a b : ArrayId) : Prop :=
  .array b ∈ m.elements a

def Acyclic (m : Machine) : Prop :=
  ∀ a, ¬ Relation.TransGen m.Points a a

/-- An array that can be reached from a value through elements of arrays. -/
def Reaches (m : Machine) (v : Value) (a : ArrayId) : Prop :=
  ∃ b, v = .array b ∧ Relation.ReflTransGen m.Points b a

/-- All arrays that are bound to names or are elements of arrays exist. -/
structure Closed (m : Machine) : Prop where
  elements (a : ArrayId) : ∀ v ∈ m.elements a, v.Within m.arrays.size
  bindings (id : ScopeId) : ∀ binding ∈ m.scopes.bindings id, binding.2.Within m.arrays.size

theorem Closed.lt_of_points (closed : m.Closed) (h : m.Points a b) : b < m.arrays.size :=
  closed.elements a _ h b rfl

def allocate (m : Machine) (elements : Array Value) : Machine :=
  { m with arrays := m.arrays.push elements }

theorem elements_allocate (m : Machine) (elements : Array Value) (a : ArrayId) :
    (m.allocate elements).elements a = if a = m.arrays.size then elements else m.elements a := by
  simp only [allocate, Machine.elements, Array.getElem?_push]
  split <;> rfl

section Allocate
variable {elements : Array Value}

theorem Closed.allocate (closed : m.Closed)
    (within : ∀ v ∈ elements, v.Within m.arrays.size) : (m.allocate elements).Closed := by
  have le : m.arrays.size ≤ (m.allocate elements).arrays.size := by
    simp [Machine.allocate]
  constructor
  · intro a v hv
    rw [elements_allocate] at hv
    split at hv
    · exact (within v hv).mono le
    · exact (closed.elements a v hv).mono le
  · intro id binding h
    exact (closed.bindings id binding h).mono le

/-- Paths of arrays that were there before never lead to a new array. -/
theorem Closed.transGen_allocate (closed : m.Closed) (lt : a < m.arrays.size)
    (h : Relation.TransGen (m.allocate elements).Points a b) :
    Relation.TransGen m.Points a b ∧ b < m.arrays.size := by
  have old {a b : ArrayId} (lt : a < m.arrays.size) (h : (m.allocate elements).Points a b) :
      m.Points a b := by
    rwa [Points, elements_allocate, if_neg (Nat.ne_of_lt lt)] at h
  induction h with
  | single h => exact ⟨.single (old lt h), closed.lt_of_points (old lt h)⟩
  | tail _ h ih =>
      obtain ⟨path, lt'⟩ := ih
      exact ⟨path.tail (old lt' h), closed.lt_of_points (old lt' h)⟩

theorem Closed.acyclic_allocate (closed : m.Closed) (acyclic : m.Acyclic)
    (within : ∀ v ∈ elements, v.Within m.arrays.size) : (m.allocate elements).Acyclic := by
  intro a cycle
  have lt : a < m.arrays.size := by
    obtain ⟨b, -, h⟩ := Relation.TransGen.tail'_iff.mp cycle
    rw [Points, elements_allocate] at h
    split at h
    · exact within _ h a rfl
    · exact closed.elements b _ h a rfl
  exact acyclic a (closed.transGen_allocate lt cycle).1

end Allocate

def store (m : Machine) (a : ArrayId) (i : Nat) (v : Value) : Machine :=
  { m with arrays := m.arrays.modify a fun elements => elements.setIfInBounds i v }

theorem elements_store (m : Machine) (a : ArrayId) (i : Nat) (v : Value) (b : ArrayId) :
    (m.store a i v).elements b =
      if b = a then (m.elements a).setIfInBounds i v else m.elements b := by
  simp only [store, elements, Array.getElem?_modify]
  by_cases h : a = b
  · subst h
    cases m.arrays[a]? <;> simp
  · simp [h, Ne.symm h]

section Store
variable {i : Nat}

theorem mem_elements_store {w : Value} (h : w ∈ (m.store a i v).elements b) :
    w ∈ m.elements b ∨ (b = a ∧ w = v) := by
  rw [elements_store] at h
  split at h
  · rename_i same
    subst same
    rcases Array.mem_or_eq_of_mem_setIfInBounds h with h | h
    · exact .inl h
    · exact .inr ⟨rfl, h⟩
  · exact .inl h

theorem size_arrays_store : (m.store a i v).arrays.size = m.arrays.size := by
  simp [store]

theorem Closed.store (closed : m.Closed) (within : v.Within m.arrays.size) :
    (m.store a i v).Closed := by
  constructor
  · intro b w hw
    rw [size_arrays_store]
    rcases mem_elements_store hw with h | ⟨-, rfl⟩
    · exact closed.elements b w h
    · exact within
  · intro id binding h
    rw [size_arrays_store]
    exact closed.bindings id binding h

/-- A path after the change is a path from before, or it leads through the changed array and goes on
from the new element. -/
theorem transGen_of_store {b c : ArrayId} (h : Relation.TransGen (m.store a i v).Points b c) :
    Relation.TransGen m.Points b c ∨ (Relation.ReflTransGen m.Points b a ∧ m.Reaches v c) := by
  have step {b c : ArrayId} (h : (m.store a i v).Points b c) :
      m.Points b c ∨ (b = a ∧ v = .array c) :=
    (mem_elements_store h).imp id fun ⟨same, new⟩ => ⟨same, new.symm⟩
  induction h with
  | single h =>
      rcases step h with h | ⟨rfl, new⟩
      · exact .inl (.single h)
      · exact .inr ⟨.refl, _, new, .refl⟩
  | tail _ h ih =>
      rcases step h with h | ⟨rfl, new⟩
      · rcases ih with path | ⟨front, d, hd, path⟩
        · exact .inl (path.tail h)
        · exact .inr ⟨front, d, hd, path.tail h⟩
      · rcases ih with path | ⟨front, -⟩
        · exact .inr ⟨path.to_reflTransGen, _, new, .refl⟩
        · exact .inr ⟨front, _, new, .refl⟩

/-- Paths to the changed array do not need its elements. -/
theorem reflTransGen_store (h : Relation.ReflTransGen m.Points b a) :
    Relation.ReflTransGen (m.store a i v).Points b a := by
  induction h using Relation.ReflTransGen.head_induction_on with
  | refl => exact .refl
  | @head b c h _ ih =>
      by_cases same : b = a
      · rw [same]
      · have kept : (m.store a i v).Points b c := by
          rwa [Points, elements_store, if_neg same]
        exact .head kept ih

theorem cycle_of_reaches (bound : i < (m.elements a).size) (h : m.Reaches v a) :
    Relation.TransGen (m.store a i v).Points a a := by
  obtain ⟨b, rfl, path⟩ := h
  have points : (m.store a i (.array b)).Points a b := by
    rw [Points, elements_store, if_pos rfl]
    exact Array.mem_setIfInBounds bound
  exact .head' points (reflTransGen_store path)

/-- The change of an element closes a cycle exactly if the array can be reached from the new
element. -/
theorem acyclic_store_iff (acyclic : m.Acyclic) (bound : i < (m.elements a).size) :
    (m.store a i v).Acyclic ↔ ¬ m.Reaches v a := by
  constructor
  · intro h reaches
    exact h a (cycle_of_reaches bound reaches)
  · intro h b cycle
    rcases transGen_of_store cycle with path | ⟨front, d, hd, path⟩
    · exact acyclic b path
    · exact h ⟨d, hd, path.trans front⟩

end Store

section Display

theorem displayAtom_recursion (h : m.displayAtom v = .error .recursion) : ∃ a, v = .array a := by
  cases v with
  | array a => exact ⟨a, rfl⟩
  | string t =>
      simp only [displayAtom] at h
      cases ht : Utf8.display t <;> rw [ht] at h <;> cases h
  | _ => cases h

theorem exists_error_of_mem_mapM {α β ε : Type} {f : α → Except ε β} {as : List α} {a : α}
    (mem : a ∈ as) (h : ∃ e, f a = .error e) : ∃ e, as.mapM f = .error e := by
  induction as with
  | nil => cases mem
  | cons b as ih =>
      rw [List.mapM_cons]
      cases hb : f b with
      | error e => exact ⟨e, rfl⟩
      | ok _ =>
          rcases List.mem_cons.mp mem with rfl | mem
          · obtain ⟨e, he⟩ := h
            rw [he] at hb
            cases hb
          · obtain ⟨e, he⟩ := ih mem
            exact ⟨e, by rw [he]; rfl⟩

/-- A display that runs out of depth has gone down a path of as many arrays. -/
theorem exists_path_of_recursion {depth : Nat}
    (h : m.displayWithin depth v = .error .recursion) :
    ∃ a path, v = .array a ∧ path.length = depth ∧ (a :: path).IsChain m.Points := by
  induction depth generalizing v with
  | zero =>
      obtain ⟨a, rfl⟩ := displayAtom_recursion h
      exact ⟨a, [], rfl, rfl, .singleton a⟩
  | succ depth ih =>
      cases v with
      | array a =>
          obtain ⟨w, points, hw⟩ := exists_of_displayWithin_array h
          obtain ⟨b, path, rfl, length, chain⟩ := ih hw
          have longer : (b :: path).length = depth + 1 := by rw [List.length_cons, length]
          exact ⟨a, b :: path, rfl, longer, List.isChain_cons_cons.mpr ⟨points, chain⟩⟩
      | _ =>
          obtain ⟨a, ha⟩ := displayAtom_recursion h
          cases ha

/-- A path of arrays none of which is on a cycle visits none of them twice. -/
theorem nodup_of_isChain {path : List ArrayId} (chain : path.IsChain m.Points)
    (acyclic : ∀ a ∈ path, ¬ Relation.TransGen m.Points a a) : path.Nodup := by
  have paths : path.IsChain (Relation.TransGen m.Points) := chain.imp fun _ _ => .single
  rw [List.isChain_iff_pairwise] at paths
  refine paths.imp_of_mem fun {a b} mem _ cycle => ?_
  rintro rfl
  exact acyclic a mem cycle

/-- A value has a readable form, or holds a string that has no bytes, if all arrays on paths from it
exist and none of them is on a cycle. -/
theorem display_ne_recursion (h : ∀ a path, v = .array a → (a :: path).IsChain m.Points →
    ∀ b ∈ a :: path, b < m.arrays.size ∧ ¬ Relation.TransGen m.Points b b) :
    m.display v ≠ .error .recursion := by
  intro deep
  obtain ⟨a, path, same, length, chain⟩ := exists_path_of_recursion deep
  have each := h a path same chain
  have nodup := nodup_of_isChain chain fun b mem => (each b mem).2
  have subset : a :: path ⊆ List.range m.arrays.size := fun b mem =>
    List.mem_range.mpr (each b mem).1
  have le := (nodup.subperm subset).length_le
  rw [List.length_cons, length, List.length_range] at le
  exact Nat.not_succ_le_self _ le

theorem Closed.lt_of_mem_path (closed : m.Closed) {path : List ArrayId}
    (chain : (a :: path).IsChain m.Points) (lt : a < m.arrays.size) :
    ∀ b ∈ a :: path, b < m.arrays.size := by
  induction path generalizing a with
  | nil => simpa
  | cons c path ih =>
      obtain ⟨h, chain⟩ := List.isChain_cons_cons.mp chain
      intro b mem
      rcases List.mem_cons.mp mem with rfl | mem
      · exact lt
      · exact ih chain (closed.lt_of_points h) b mem

/-- Without cycles, every value that exists has a readable form or holds a string that has no
bytes. -/
theorem Closed.display_ne_recursion (closed : m.Closed) (acyclic : m.Acyclic)
    (within : v.Within m.arrays.size) : m.display v ≠ .error .recursion :=
  Machine.display_ne_recursion fun a _ same chain b mem =>
    ⟨closed.lt_of_mem_path chain (within a same) b mem, acyclic b⟩

theorem display_cycle (cycle : Relation.TransGen m.Points a a) :
    ∃ reason, m.display (.array a) = .error reason := by
  have deep (depth : Nat) : ∃ reason, m.displayWithin depth (.array a) = .error reason := by
    induction depth generalizing a with
    | zero => exact ⟨.recursion, rfl⟩
    | succ depth ih =>
        obtain ⟨b, h, path⟩ := Relation.TransGen.head'_iff.mp cycle
        have mem : Value.array b ∈ (m.elements a).toList := Array.mem_toList_iff.mpr h
        have next := ih (.tail' path h)
        obtain ⟨reason, hs⟩ := exists_error_of_mem_mapM mem next
        exact ⟨reason, by rw [displayWithin, hs]; rfl⟩
  exact deep _

end Display

end Machine

end Script
