import Script.Source.Position

/-!
# Integers of 64 bits

Integer values are the integers from `-2^63` to `2^63 - 1`. Results of arithmetic are brought back
into that range by adding or taking away multiples of `2^64`. Quotients are cut off toward zero,
and a remainder has the sign of its dividend.
-/

namespace Script.Integer64

/-- The integer from `-2^63` to `2^63 - 1` that differs from `n` by a multiple of `2^64`. -/
def wrap (n : Int) : Int :=
  n.bmod 0x10000000000000000

def quotient? (a b : Int) : Option Int :=
  if b = 0 then none else some (a.tdiv b)

def remainder? (a b : Int) : Option Int :=
  if b = 0 then none else some (a.tmod b)

theorem le_wrap (n : Int) : -0x8000000000000000 ≤ wrap n := by
  have := Int.le_bmod (x := n) (m := 0x10000000000000000) (by decide)
  simpa [wrap] using this

theorem wrap_lt (n : Int) : wrap n < 0x8000000000000000 := by
  have := Int.bmod_lt (x := n) (m := 0x10000000000000000) (by decide)
  simpa [wrap] using this

/-- An integer that is in range stays as it is. -/
theorem wrap_eq_self {n : Int} (low : -0x8000000000000000 ≤ n) (high : n < 0x8000000000000000) :
    wrap n = n := by
  simp only [wrap, Int.bmod]
  split <;> omega

/-- Bringing an integer into range changes it by a multiple of `2^64` only. -/
theorem wrap_emod (n : Int) : wrap n % 0x10000000000000000 = n % 0x10000000000000000 := by
  simp only [wrap, Int.bmod]
  split <;> omega

@[simp] theorem wrap_wrap (n : Int) : wrap (wrap n) = wrap n :=
  wrap_eq_self (le_wrap n) (wrap_lt n)

end Script.Integer64
