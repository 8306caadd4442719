import Mathlib.Algebra.Order.Ring.Abs
import Mathlib.Algebra.Order.Ring.Int
import Script.Proofs.Arithmetic
import Script.Proofs.Effects

/-!
# Division toward zero

The quotient of two integers is that of their magnitudes, with a minus sign if just one of them is
negative. Multiplied with the divisor it gives the largest multiple that is no further from zero
than the dividend, on the same side; the remainder is the way from there to the dividend. Only one
quotient of integers of 64 bits is not in range itself, and even then the dividend is got back from
the quotient and the remainder, since bringing integers into range respects products and sums.
-/

namespace Script

namespace Integer64
variable {a b q r : Int}

/-- The quotient of the magnitudes, with a sign. -/
def signedQuotient (a b : Int) : Int :=
  if a < 0 ↔ b < 0 then |a| / |b| else -(|a| / |b|)

/-- The laws of a quotient and a remainder that are cut off toward zero. -/
structure Truncates (a b q r : Int) : Prop where
  dividend : a = b * q + r
  short : |r| < |b|
  sign : r = 0 ∨ r.sign = a.sign
  inward : |b * q| ≤ |a|

/-- Whatever the sign of the divisor, the multiple has the sign of the dividend. -/
theorem mul_signedQuotient (a b : Int) :
    b * signedQuotient a b = if a < 0 then -(|b| * (|a| / |b|)) else |b| * (|a| / |b|) := by
  unfold signedQuotient
  by_cases ha : a < 0 <;> by_cases hb : b < 0
  · simp [ha, hb, abs_of_neg hb]
  · simp [ha, hb, abs_of_nonneg (Int.not_lt.mp hb)]
  · simp [ha, hb, abs_of_neg hb]
  · simp [ha, hb, abs_of_nonneg (Int.not_lt.mp hb)]

/-- The remainder is that of the magnitudes, with the sign of the dividend. -/
theorem sub_mul_signedQuotient (a b : Int) :
    a - b * signedQuotient a b = if a < 0 then -(|a| % |b|) else |a| % |b| := by
  have parts := Int.mul_ediv_add_emod |a| |b|
  rw [mul_signedQuotient]
  split
  · rename_i negative
    rw [abs_of_neg negative] at parts ⊢
    omega
  · rename_i positive
    rw [abs_of_nonneg (Int.not_lt.mp positive)] at parts ⊢
    omega

theorem truncates_signedQuotient (a : Int) (nonzero : b ≠ 0) :
    Truncates a b (signedQuotient a b) (a - b * signedQuotient a b) := by
  have positive : 0 < |b| := abs_pos.mpr nonzero
  have low : 0 ≤ |a| % |b| := Int.emod_nonneg _ positive.ne'
  have high : |a| % |b| < |b| := Int.emod_lt_of_pos _ positive
  have multiple : 0 ≤ |b| * (|a| / |b|) :=
    mul_nonneg positive.le (Int.ediv_nonneg (abs_nonneg a) positive.le)
  have parts := Int.mul_ediv_add_emod |a| |b|
  refine ⟨(add_sub_cancel _ a).symm, ?_, ?_, ?_⟩
  · rw [sub_mul_signedQuotient]
    split
    · rwa [abs_neg, abs_of_nonneg low]
    · rwa [abs_of_nonneg low]
  · rw [sub_mul_signedQuotient]
    rcases low.eq_or_lt with none | some
    · exact .inl (by simp [← none])
    · right
      split
      · rename_i negative
        rw [Int.sign_eq_neg_one_of_neg negative, Int.sign_eq_neg_one_of_neg (by omega)]
      · rename_i other
        have same : |a| = a := abs_of_nonneg (Int.not_lt.mp other)
        have large : 0 < a := by omega
        rw [Int.sign_eq_one_of_pos some, Int.sign_eq_one_of_pos large]
  · rw [mul_signedQuotient]
    split
    · rw [abs_neg, abs_of_nonneg multiple]
      omega
    · rw [abs_of_nonneg multiple]
      omega

theorem tdiv_eq_signedQuotient (a b : Int) : a.tdiv b = signedQuotient a b := by
  have magnitudes : |a| / |b| = |a|.tdiv |b| := (Int.tdiv_eq_ediv_of_nonneg (abs_nonneg a)).symm
  rw [signedQuotient, magnitudes]
  by_cases ha : a < 0 <;> by_cases hb : b < 0
  · simp [ha, hb, abs_of_neg ha, abs_of_neg hb]
  · simp [ha, hb, abs_of_neg ha, abs_of_nonneg (Int.not_lt.mp hb)]
  · simp [ha, hb, abs_of_neg hb, abs_of_nonneg (Int.not_lt.mp ha)]
  · simp [ha, hb, abs_of_nonneg (Int.not_lt.mp hb), abs_of_nonneg (Int.not_lt.mp ha)]

theorem quotient?_of_ne_zero (a : Int) (nonzero : b ≠ 0) :
    quotient? a b = some (signedQuotient a b) := by
  rw [quotient?, if_neg nonzero, tdiv_eq_signedQuotient]

theorem remainder?_of_ne_zero (a : Int) (nonzero : b ≠ 0) :
    remainder? a b = some (a - b * signedQuotient a b) := by
  rw [remainder?, if_neg nonzero, Int.tmod_def, tdiv_eq_signedQuotient]

namespace Truncates
variable (h : Truncates a b q r)
include h

theorem abs_quotient_le (nonzero : b ≠ 0) : |q| ≤ |a| := by
  have inward := h.inward
  rw [abs_mul] at inward
  exact (le_mul_of_one_le_left (abs_nonneg q) (Int.one_le_abs nonzero)).trans inward

theorem remainder_eq_zero (unit : |b| = 1) : r = 0 := by
  have short := h.short
  rw [unit] at short
  exact Int.abs_lt_one_iff.mp short

/-- A quotient as far out as `2^63` takes the lowest dividend and the divisor `-1`. -/
theorem lowest_of_quotient (low : -2 ^ 63 ≤ a) (high : a < 2 ^ 63) (nonzero : b ≠ 0)
    (far : q = 2 ^ 63) : a = -2 ^ 63 ∧ b = -1 := by
  have inward := h.inward
  have bound : |a| ≤ 2 ^ 63 := abs_le.mpr ⟨low, high.le⟩
  rw [abs_mul, far, abs_of_nonneg (by decide : (0 : Int) ≤ 2 ^ 63)] at inward
  have unit : |b| = 1 := by
    have := Int.one_le_abs nonzero
    omega
  have exact := h.dividend
  rw [h.remainder_eq_zero unit, far, Int.add_zero] at exact
  rcases abs_eq_abs.mp (unit.trans abs_one.symm) with rfl | rfl
  · omega
  · omega

/-- The quotient is out of range only if the lowest integer is divided by `-1`. -/
theorem wrap_quotient (low : -2 ^ 63 ≤ a) (high : a < 2 ^ 63) (nonzero : b ≠ 0) :
    wrap q = if a = -2 ^ 63 ∧ b = -1 then -2 ^ 63 else q := by
  have bounds := abs_le.mp (h.abs_quotient_le nonzero)
  have bound : |a| ≤ 2 ^ 63 := abs_le.mpr ⟨low, high.le⟩
  split
  · rename_i corner
    obtain ⟨rfl, rfl⟩ := corner
    have exact := h.dividend
    rw [h.remainder_eq_zero rfl] at exact
    obtain rfl : q = 2 ^ 63 := by omega
    rfl
  · rename_i other
    have near : q ≠ 2 ^ 63 := fun far => other (h.lowest_of_quotient low high nonzero far)
    exact wrap_eq_self (by omega) (by omega)

theorem wrap_remainder (low : -2 ^ 63 ≤ b) (high : b < 2 ^ 63) : wrap r = r := by
  have short := abs_lt.mp h.short
  have bound : |b| ≤ 2 ^ 63 := abs_le.mpr ⟨low, high.le⟩
  exact wrap_eq_self (by omega) (by omega)

/-- The dividend is got back from the quotient and the remainder, in range or not. -/
theorem wrap_dividend (low : -2 ^ 63 ≤ a) (high : a < 2 ^ 63) :
    wrap (wrap (wrap q * wrap b) + wrap r) = a := by
  have product : wrap (wrap q * wrap b) = wrap (q * b) := RingOp.mul.wrap_exact q b
  calc wrap (wrap (wrap q * wrap b) + wrap r) = wrap (wrap (q * b) + wrap r) := by rw [product]
    _ = wrap (q * b + r) := RingOp.add.wrap_exact (q * b) r
    _ = wrap a := by rw [Int.mul_comm q b, ← h.dividend]
    _ = a := wrap_eq_self low high

end Truncates

end Integer64

/-! ### Expressions -/

theorem BinaryOp.div_onIntegers (a : Int) {b : Int} (nonzero : b ≠ 0) :
    BinaryOp.div.onIntegers a b =
      .ok (.integer (Integer64.wrap (Integer64.signedQuotient a b))) := by
  rw [onIntegers, Integer64.quotient?_of_ne_zero a nonzero]

theorem BinaryOp.mod_onIntegers (a : Int) {b : Int} (nonzero : b ≠ 0) :
    BinaryOp.mod.onIntegers a b =
      .ok (.integer (Integer64.wrap (a - b * Integer64.signedQuotient a b))) := by
  rw [onIntegers, Integer64.remainder?_of_ne_zero a nonzero]

/-- An expression that has a value whatever has been traced, and changes nothing but the trace. -/
def Expr.Yields (e : Expr) (call : Caller) (env : Env) (m : Machine) (v : Value) : Prop :=
  ∀ t, ∃ t', evalExpr call env e { m with trace := t } = .ok v { m with trace := t' }

namespace Expr.Yields
variable {call : Caller} {env : Env} {m : Machine} {a b c : Int} {x y : Expr}

theorem arithmetic (e : Arithmetic) :
    e.expr.Yields call env m (.integer (Integer64.wrap e.value)) :=
  fun t => e.exists_evalExpr call env { m with trace := t }

theorem name {name : Name} {v : Value} (found : m.scopes.lookup? env name = some v)
    (position : Position) : (Expr.name name position).Yields call env m v := by
  intro t
  have same : ({ m with trace := t } : Machine).scopes.lookup? env name = some v := found
  exact ⟨t, Eval.resolve_of_some same position⟩

theorem binary {op : BinaryOp} (left : x.Yields call env m (.integer a))
    (right : y.Yields call env m (.integer b)) (computed : op.onIntegers a b = .ok (.integer c))
    (position : Position) : (Expr.binary op x y position).Yields call env m (.integer c) := by
  intro t
  obtain ⟨t', first⟩ := left t
  obtain ⟨t'', second⟩ := right t'
  exact exists_evalExpr_binary first second computed position

theorem ringOp (op : RingOp) (left : x.Yields call env m (.integer a))
    (right : y.Yields call env m (.integer b)) (position : Position) :
    (Expr.binary op.toBinaryOp x y position).Yields call env m
      (.integer (Integer64.wrap (op.exact a b))) :=
  left.binary right (by cases op <;> rfl) position

end Expr.Yields

/-- The expression `(x / y) * y + x % y`. -/
def Expr.recomposed (x y : Expr) (place : Nat → Position) : Expr :=
  .binary .add (.binary .mul (.binary .div x y (place 0)) y (place 1)) (.binary .mod x y (place 2))
    (place 3)

/-- By a divisor that is not zero, integers of any size have a quotient and a remainder: the
quotient is that of the magnitudes, with a minus sign if just one of the two is negative, and they
are cut off toward zero. Expressions that evaluate to two integers of 64 bits have this quotient and
this remainder, but for the lowest integer divided by `-1`, which is the lowest integer again and
leaves nothing over. The dividend is always got back from the two. -/
theorem division_toward_zero (a : Int) {b : Int} (nonzero : b ≠ 0) :
    ∃ q r, Integer64.quotient? a b = some q ∧ Integer64.remainder? a b = some r ∧
      q = Integer64.signedQuotient a b ∧ r = a - b * q ∧ Integer64.Truncates a b q r ∧
      ((-2 ^ 63 ≤ a ∧ a < 2 ^ 63) → (-2 ^ 63 ≤ b ∧ b < 2 ^ 63) →
        (∀ (call : Caller) (env : Env) (x y : Expr) (position : Position) (m m' m'' : Machine),
          evalExpr call env x m = .ok (.integer a) m' →
          evalExpr call env y m' = .ok (.integer b) m'' →
          (∃ t, evalExpr call env (.binary .div x y position) m =
            .ok (.integer (if a = -2 ^ 63 ∧ b = -1 then -2 ^ 63 else q)) { m'' with trace := t }) ∧
          ∃ t, evalExpr call env (.binary .mod x y position) m =
            .ok (.integer r) { m'' with trace := t }) ∧
        (a = -2 ^ 63 ∧ b = -1 → r = 0) ∧
        ∀ (call : Caller) (env : Env) (m : Machine) (x y : Expr) (place : Nat → Position),
          x.Yields call env m (.integer a) → y.Yields call env m (.integer b) →
          (x.recomposed y place).Yields call env m (.integer a)) := by
  have truncates := Integer64.truncates_signedQuotient a nonzero
  refine ⟨_, _, Integer64.quotient?_of_ne_zero a nonzero, Integer64.remainder?_of_ne_zero a nonzero,
    rfl, rfl, truncates, ?_⟩
  rintro ⟨low, high⟩ ⟨low', high'⟩
  have div := BinaryOp.div_onIntegers a nonzero
  have mod := BinaryOp.mod_onIntegers a nonzero
  have quotient := truncates.wrap_quotient low high nonzero
  have remainder := truncates.wrap_remainder low' high'
  refine ⟨fun call env x y position m m' m'' first second => ⟨?_, ?_⟩, ?_, ?_⟩
  · rw [← quotient]
    exact exists_evalExpr_binary first second div position
  · rw [remainder] at mod
    exact exists_evalExpr_binary first second mod position
  · rintro ⟨-, rfl⟩
    exact truncates.remainder_eq_zero rfl
  · intro call env m x y place left right
    have product := (left.binary right div (place 0)).ringOp .mul right (place 1)
    have sum := product.ringOp .add (left.binary right mod (place 2)) (place 3)
    have back := truncates.wrap_dividend low high
    rw [Integer64.wrap_eq_self low' high'] at back
    rwa [← back]

/-- The lowest integer, written as `-9223372036854775808`, divided by a variable that is `-1`. -/
theorem division_toward_zero_lowest :
    let x := (Arithmetic.negate (.literal 9223372036854775808) ⟨1, 2⟩).expr
    let y : Expr := .name (text "b") ⟨1, 25⟩
    let call := Budget.standard.caller
    let env := Machine.globalEnv
    let m := { Machine.initial (Input.ofText []) (.empty true 3) with
      scopes := #[⟨text "global", [(text "b", .integer (-1))]⟩] }
    let place (n : Nat) : Position := ⟨1, n⟩
    (-1 : Int) ≠ 0 ∧ ((-2 ^ 63 : Int) ≤ -2 ^ 63 ∧ (-2 ^ 63 : Int) < 2 ^ 63) ∧
    ((-2 ^ 63 : Int) ≤ -1 ∧ (-1 : Int) < 2 ^ 63) ∧
    x.Yields call env m (.integer (-2 ^ 63)) ∧ y.Yields call env m (.integer (-1)) ∧
    (∃ t, evalExpr call env (.binary .div x y ⟨1, 2⟩) m =
      .ok (.integer (-2 ^ 63)) { m with trace := t }) ∧
    (∃ t, evalExpr call env (.binary .mod x y ⟨1, 2⟩) m = .ok (.integer 0) { m with trace := t }) ∧
    (x.recomposed y place).Yields call env m (.integer (-2 ^ 63)) := by
  intro x y call env m place
  have left : x.Yields call env m (.integer (-2 ^ 63)) := .arithmetic _
  have right : y.Yields call env m (.integer (-1)) := .name rfl _
  have lowest : (-2 ^ 63 : Int) ≤ -2 ^ 63 ∧ (-2 ^ 63 : Int) < 2 ^ 63 := by decide
  have unit : (-2 ^ 63 : Int) ≤ -1 ∧ (-1 : Int) < 2 ^ 63 := by decide
  have nonzero : (-1 : Int) ≠ 0 := by decide
  obtain ⟨q, r, -, -, -, -, -, evaluated⟩ := division_toward_zero (-2 ^ 63) nonzero
  obtain ⟨divided, corner, recomposed⟩ := evaluated lowest unit
  obtain rfl := corner ⟨rfl, rfl⟩
  obtain ⟨t, first⟩ := left m.trace
  obtain ⟨t', second⟩ := right t
  obtain ⟨quotient, remainder⟩ := divided call env x y ⟨1, 2⟩ _ _ _ first second
  exact ⟨nonzero, lowest, unit, left, right, quotient, remainder,
    recomposed call env m x y place left right⟩

end Script
