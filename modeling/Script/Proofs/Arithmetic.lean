import Mathlib.Data.Int.ModEq
import Script.Proofs.Observer
import Script.Proofs.Readable

/-!
# Arithmetic of 64 bits

Bringing integers into range respects sums, differences, products and negation. So it makes no
difference that an evaluation does so at every literal and every operator: the result is that of the
integers without bounds, brought into range once at the end.
-/

namespace Script

namespace Integer64

theorem wrap_congr {a b : Int} (congruent : a ≡ b [ZMOD 2 ^ 64]) : wrap a = wrap b := by
  have same : a % (0x10000000000000000 : Nat) = b % (0x10000000000000000 : Nat) := congruent
  rw [wrap, wrap, ← Int.emod_bmod a, same, Int.emod_bmod]

/-- The only integer in range that is congruent to an integer is the one that this becomes. -/
theorem eq_wrap_iff {n z : Int} :
    n = wrap z ↔ (-2 ^ 63 ≤ n ∧ n ≤ 2 ^ 63 - 1) ∧ n ≡ z [ZMOD 2 ^ 64] := by
  constructor
  · rintro rfl
    have low := le_wrap z
    have high := wrap_lt z
    exact ⟨⟨low, Int.le_sub_one_of_lt high⟩, wrap_emod z⟩
  · rintro ⟨⟨low, high⟩, congruent⟩
    rw [← wrap_congr congruent, wrap_eq_self low (Int.lt_of_le_sub_one high)]

theorem wrap_neg (a : Int) : wrap (-wrap a) = wrap (-a) :=
  Int.bmod_neg_bmod

end Integer64

inductive RingOp where
  | add | sub | mul
  deriving Repr, DecidableEq

namespace RingOp

def toBinaryOp : RingOp → BinaryOp
  | add => .add
  | sub => .sub
  | mul => .mul

def exact : RingOp → Int → Int → Int
  | add, a, b => a + b
  | sub, a, b => a - b
  | mul, a, b => a * b

/-- On operands in range the operation gives what it gives on the operands themselves. -/
theorem wrap_exact (op : RingOp) (a b : Int) :
    Integer64.wrap (op.exact (Integer64.wrap a) (Integer64.wrap b)) =
      Integer64.wrap (op.exact a b) := by
  cases op with
  | add => exact Int.add_bmod_bmod.trans Int.bmod_add_bmod
  | sub => exact Int.sub_bmod_bmod.trans Int.bmod_sub_bmod
  | mul => exact Int.mul_bmod_bmod.trans Int.bmod_mul_bmod

theorem apply_toBinaryOp (op : RingOp) (a b : Int) (position : Position) (m : Machine) :
    op.toBinaryOp.apply (.integer a) (.integer b) position m =
      .ok (.integer (Integer64.wrap (op.exact a b))) m := by
  cases op <;> rfl

end RingOp

theorem Machine.display_integer (m : Machine) (n : Int) :
    m.display (.integer n) = .ok (Text.ofInt n) := by
  unfold Machine.display
  cases m.arrays.size <;> rfl

theorem Machine.isReadable_integer (m : Machine) (n : Int) : m.IsReadable (.integer n) :=
  ⟨_, m.display_integer n⟩

theorem Traces.exists_ok_of_integers {values : List Value} {x : Eval Unit} (h : Traces values x)
    (integers : ∀ v ∈ values, v.kind = .integer) (m : Machine) :
    ∃ t, x m = .ok () { m with trace := t } := by
  refine h.exists_ok fun v mem => ?_
  have integer := integers v mem
  cases v with
  | integer n => exact m.isReadable_integer n
  | _ => cases integer

section Operators
variable {call : Caller} {env : Env} {m m' m'' : Machine} {a b : Int}

theorem exists_evalExpr_negate {operand : Expr}
    (evaluated : evalExpr call env operand m = .ok (.integer a) m') (position : Position) :
    ∃ t, evalExpr call env (.unary .negate operand position) m =
      .ok (.integer (Integer64.wrap (-a))) { m' with trace := t } := by
  obtain ⟨t, traced⟩ :=
    (Traces.unary .negate (.integer a) (.integer (Integer64.wrap (-a)))).exists_ok_of_integers
      (by simp [Value.kind]) m'
  refine ⟨t, ?_⟩
  rw [evalExpr, onValue_of_ok evaluated (by simp)]
  exact bind_of_ok traced

theorem exists_evalExpr_binary {op : BinaryOp} {left right : Expr} {c : Int}
    (first : evalExpr call env left m = .ok (.integer a) m')
    (second : evalExpr call env right m' = .ok (.integer b) m'')
    (computed : op.onIntegers a b = .ok (.integer c)) (position : Position) :
    ∃ t, evalExpr call env (.binary op left right position) m =
      .ok (.integer c) { m'' with trace := t } := by
  have applied : op.apply (.integer a) (.integer b) position m'' = .ok (.integer c) m'' := by
    cases op with
    | equal | unequal => cases computed
    | _ => simp only [BinaryOp.apply, computed]; rfl
  obtain ⟨t, traced⟩ := (Traces.binary op (.integer a) (.integer b)
    (.integer c)).exists_ok_of_integers (by simp [Value.kind]) m''
  refine ⟨t, ?_⟩
  rw [evalExpr, onValue_of_ok first (by simp), onValue_of_ok second (by simp), tracedBinary,
    bind_of_ok applied]
  exact bind_of_ok traced

theorem exists_evalExpr_ringOp {left right : Expr}
    (first : evalExpr call env left m = .ok (.integer a) m')
    (second : evalExpr call env right m' = .ok (.integer b) m'') (op : RingOp)
    (position : Position) :
    ∃ t, evalExpr call env (.binary op.toBinaryOp left right position) m =
      .ok (.integer (Integer64.wrap (op.exact a b))) { m'' with trace := t } :=
  exists_evalExpr_binary first second (by cases op <;> rfl) position

end Operators

/-- What can be written with integer literals, sums, differences, products and negation. -/
inductive Arithmetic where
  | literal (n : Int)
  | negate (operand : Arithmetic) (position : Position)
  | binary (op : RingOp) (left right : Arithmetic) (position : Position)
  deriving Repr

namespace Arithmetic

def expr : Arithmetic → Expr
  | literal n => .literal (.integer n)
  | negate operand position => .unary .negate operand.expr position
  | binary op left right position => .binary op.toBinaryOp left.expr right.expr position

/-- The value over the integers without bounds. -/
def value : Arithmetic → Int
  | literal n => n
  | negate operand _ => -operand.value
  | binary op left right _ => op.exact left.value right.value

theorem exists_evalExpr (e : Arithmetic) (call : Caller) (env : Env) (m : Machine) :
    ∃ t, evalExpr call env e.expr m =
      .ok (.integer (Integer64.wrap e.value)) { m with trace := t } := by
  induction e generalizing m with
  | literal n => exact ⟨m.trace, rfl⟩
  | negate operand position ih =>
      obtain ⟨t, evaluated⟩ := ih m
      have negated := exists_evalExpr_negate evaluated position
      rwa [Integer64.wrap_neg] at negated
  | binary op left right position ihLeft ihRight =>
      obtain ⟨t, first⟩ := ihLeft m
      obtain ⟨t', second⟩ := ihRight { m with trace := t }
      have combined := exists_evalExpr_ringOp first second op position
      rwa [op.wrap_exact] at combined

/-- Evaluated in any environment and on any machine, an arithmetic expression has its value over the
integers without bounds, brought into range. Nothing but the trace changes. What an integer becomes
in range is the only integer from `-2^63` to `2^63 - 1` that is congruent to it modulo `2^64`. -/
theorem evalExpr_expr :
    (∀ (e : Arithmetic) (call : Caller) (env : Env) (m : Machine),
      ∃ t, evalExpr call env e.expr m =
        .ok (.integer (Integer64.wrap e.value)) { m with trace := t }) ∧
    ∀ n z : Int, n = Integer64.wrap z ↔
      (-2 ^ 63 ≤ n ∧ n ≤ 2 ^ 63 - 1) ∧ n ≡ z [ZMOD 2 ^ 64] :=
  ⟨exists_evalExpr, fun _ _ => Integer64.eq_wrap_iff⟩

end Arithmetic

end Script
