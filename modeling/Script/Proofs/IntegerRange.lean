import Mathlib.Algebra.Group.Int.Defs
import Mathlib.Algebra.Group.Nat.Defs
import Script.Proofs.Traits

/-!
# Integers stay in range

Constants and the results of arithmetic are brought into the range of 64 bits, and lengths are not.
No other step makes an integer. So as long as no string and no array of a run is too long, all its
integers are in range, wherever they have got to.
-/

namespace Script

/-- Being in the range of 64 bits, which nothing is asked of strings for. -/
def Trait.range : Trait where
  integers n := -2 ^ 63 ≤ n ∧ n ≤ 2 ^ 63 - 1
  strings _ := True
  wrap n := by
    have low := Integer64.le_wrap n
    have high := Integer64.wrap_lt n
    constructor
    · omega
    · omega
  decoded _ := trivial
  piece _ _ := trivial

namespace Trait

theorem range_length {n : Nat} (short : n < 2 ^ 63) : range.integers n := by
  change -2 ^ 63 ≤ (n : Int) ∧ (n : Int) ≤ 2 ^ 63 - 1
  omega

theorem range_has_literal (l : Literal) : range.Has l.value := by
  cases l with
  | integer n => exact range.wrap n
  | _ => trivial

theorem range_fits_initial (input : Input) (trace : Trace) :
    range.Fits (.initial input trace) where
  holds := .initial _ input trace
  input := trivial
  functions f mem := absurd mem (Array.not_mem_empty f)
  sizes a := range_length (by simp [Machine.elements, Machine.initial])

end Trait

theorem Machine.size_elements_lt {m : Machine} {limit : Nat} (positive : 0 < limit)
    (all : ∀ elements ∈ m.arrays, elements.size < limit) (a : ArrayId) :
    (m.elements a).size < limit := by
  unfold Machine.elements
  cases found : m.arrays[a]? with
  | none => exact positive
  | some elements => exact all elements (Array.mem_of_getElem? found)

namespace Program

/-- If no string of a run has `2^63` bytes and no array has `2^63` elements, all integers of the run
are in the range of 64 bits. -/
theorem integers_in_range (budget : Budget) (program : Program) (input : Input) (trace : Trace)
    (strings : ∀ t bytes, .string t ∈ program.values budget (.initial input trace) →
      Utf8.toBytes t = .ok bytes → bytes.length < 2 ^ 63)
    (arrays : ∀ m ∈ program.states budget (.initial input trace), ∀ elements ∈ m.arrays,
      elements.size < 2 ^ 63) :
    ∀ n, .integer n ∈ program.values budget (.initial input trace) →
      -2 ^ 63 ≤ n ∧ n ≤ 2 ^ 63 - 1 := by
  have measures : Trait.range.Measures (program.moments budget (.initial input trace)) := by
    constructor
    · intro moment told t bytes here has
      exact Trait.range_length (strings t bytes (mem_values_of_mem_moments told here) has)
    · intro m told a
      have short := m.size_elements_lt (by decide) (arrays m (mem_states_of_mem_moments told)) a
      exact Trait.range_length short
  intro n mem
  exact Trait.has_of_mem_values (Trait.range_fits_initial input trace)
    (fun l _ => Trait.range_has_literal l) measures _ mem

/-- In the run of `var a = [9223372036854775808, len("ab")];` a constant is brought into range and a
string is measured. -/
theorem integers_in_range_measured :
    let program : Program := [.stmt (.declare (text "a") (.array [
      .literal (.integer 0x8000000000000000),
      .call (text "len") [.literal (.string (text "ab"))] ⟨1, 30⟩]))]
    let values := program.values ⟨0, 0⟩ (.initial (.ofText []) (.empty false 3))
    .integer (-0x8000000000000000) ∈ values ∧ .integer 2 ∈ values ∧
      ∀ n, .integer n ∈ values → -2 ^ 63 ≤ n ∧ n ≤ 2 ^ 63 - 1 := by
  refine ⟨by decide, by decide, integers_in_range _ _ _ _ (fun t bytes mem has => ?_) (by decide)⟩
  have only : ∀ v ∈ Program.values ⟨0, 0⟩ [.stmt (.declare (text "a") (.array [
      .literal (.integer 0x8000000000000000),
      .call (text "len") [.literal (.string (text "ab"))] ⟨1, 30⟩]))]
      (.initial (.ofText []) (.empty false 3)), v.kind = .string → v = .string (text "ab") := by
    decide
  cases only _ mem rfl
  have two : Utf8.toBytes (text "ab") = .ok [0x61, 0x62] := by decide
  cases two.symm.trans has
  decide

end Program

end Script
