import Mathlib.Tactic.Ring
import Script.Text.Utf8

/-!
# Decoding one character after the other

Each character that is no surrogate is written as a lead byte with up to three trailing bytes, and a
trailing byte never leads. So decoding finds every character wherever its bytes begin, whatever has
come before, and a byte at which no character begins is escaped on its own. `ofBytes_cons` says this
of the first byte of any bytes.
-/

namespace Script.Utf8

/-- Bytes that only go on with characters. -/
def IsTrailing (b : UInt8) : Prop :=
  0x80 ≤ b.toNat ∧ b.toNat ≤ 0xBF

/-- The last `k + 1` bytes of a number in groups of six bits. -/
def trailing (n : Nat) : Nat → List UInt8
  | 0 => [.ofNat (0x80 + n % 0x40)]
  | k + 1 => .ofNat (0x80 + n / 0x40 ^ (k + 1) % 0x40) :: trailing n k

theorem isTrailing_ofNat (n : Nat) : IsTrailing (.ofNat (0x80 + n % 0x40)) := by
  have small : n % 0x40 < 0x40 := Nat.mod_lt _ (by decide)
  have value : (UInt8.ofNat (0x80 + n % 0x40)).toNat = 0x80 + n % 0x40 := by
    rw [UInt8.toNat_ofNat']
    omega
  constructor <;> omega

theorem isTrailing_of_mem_trailing {n k : Nat} {b : UInt8} (h : b ∈ trailing n k) :
    IsTrailing b := by
  induction k with
  | zero =>
      rw [List.mem_singleton.mp h]
      exact isTrailing_ofNat n
  | succ k ih =>
      rcases List.mem_cons.mp h with rfl | h
      · exact isTrailing_ofNat _
      · exact ih h

theorem trailing_ne_nil (n k : Nat) : trailing n k ≠ [] := by
  cases k <;> exact List.cons_ne_nil _ _

/-- The number that is left after the groups of six bits of `k + 1` trailing bytes. -/
theorem toNat_trailing (n k : Nat) :
    (UInt8.ofNat (0x80 + n / 0x40 ^ k % 0x40)).toNat = 0x80 + n / 0x40 ^ k % 0x40 := by
  have small : n / 0x40 ^ k % 0x40 < 0x40 := Nat.mod_lt _ (by decide)
  rw [UInt8.toNat_ofNat']
  omega

section Leads
variable {b : UInt8}

theorem ofFirst_one (h : b.toNat < 0x80) :
    Progress.ofFirst b = .done (.scalar (Fin.ofNat _ b.toNat)) := by
  have below : b < 0x80 := UInt8.lt_iff_toNat_lt.mpr h
  simp [Progress.ofFirst, below]

theorem ofFirst_two (low : 0xC2 ≤ b.toNat) (high : b.toNat < 0xE0) :
    Progress.ofFirst b = .more ⟨[b], b.toNat - 0xC0, 0x80, 0xBF, 0⟩ := by
  simp only [Progress.ofFirst, UInt8.lt_iff_toNat_lt, UInt8.reduceToNat]
  rw [if_neg (by omega), if_neg (by omega), if_pos high]

/-- The second of three bytes rules out forms that are too long and surrogates. -/
theorem ofFirst_three (low : 0xE0 ≤ b.toNat) (high : b.toNat < 0xF0) :
    Progress.ofFirst b = .more ⟨[b], b.toNat - 0xE0, if b.toNat = 0xE0 then 0xA0 else 0x80,
      if b.toNat = 0xED then 0x9F else 0xBF, 1⟩ := by
  simp only [Progress.ofFirst, UInt8.lt_iff_toNat_lt, ← UInt8.toNat_inj, UInt8.reduceToNat]
  rw [if_neg (by omega), if_neg (by omega), if_neg (by omega)]
  by_cases first : b.toNat = 0xE0
  · simp [first]
  · by_cases surrogates : b.toNat = 0xED
    · simp [surrogates]
    · simp [first, surrogates, high]

/-- The second of four bytes rules out forms that are too long and numbers that are too large. -/
theorem ofFirst_four (low : 0xF0 ≤ b.toNat) (high : b.toNat < 0xF5) :
    Progress.ofFirst b = .more ⟨[b], b.toNat - 0xF0, if b.toNat = 0xF0 then 0x90 else 0x80,
      if b.toNat = 0xF4 then 0x8F else 0xBF, 2⟩ := by
  simp only [Progress.ofFirst, UInt8.lt_iff_toNat_lt, ← UInt8.toNat_inj, UInt8.reduceToNat]
  rw [if_neg (by omega), if_neg (by omega), if_neg (by omega), if_neg (by omega),
    if_neg (by omega), if_neg (by omega)]
  by_cases first : b.toNat = 0xF0
  · simp [first]
  · by_cases last : b.toNat = 0xF4
    · simp [last]
    · rw [if_neg first, if_pos (by omega)]
      simp [first, last]

theorem ofFirst_broken (low : 0x80 ≤ b.toNat) (high : b.toNat < 0xC2 ∨ 0xF5 ≤ b.toNat) :
    Progress.ofFirst b = .done (.broken [b]) := by
  simp only [Progress.ofFirst, UInt8.lt_iff_toNat_lt, ← UInt8.toNat_inj, UInt8.reduceToNat]
  rw [if_neg (by omega)]
  rcases high with high | high
  · rw [if_pos high]
  · rw [if_neg (by omega), if_neg (by omega), if_neg (by omega), if_neg (by omega),
      if_neg (by omega), if_neg (by omega), if_neg (by omega), if_neg (by omega)]

end Leads

section Characters
variable {c : CodePoint}

theorem scalarBytes_one (h : c.val < 0x80) : scalarBytes c = [.ofNat c.val] := by
  simp [scalarBytes, h]

theorem scalarBytes_two (low : 0x80 ≤ c.val) (high : c.val < 0x800) :
    scalarBytes c = .ofNat (0xC0 + c.val / 0x40) :: trailing c.val 0 := by
  simp only [scalarBytes]
  rw [if_neg (by omega), if_pos high]
  rfl

theorem scalarBytes_three (low : 0x800 ≤ c.val) (high : c.val < 0x10000) :
    scalarBytes c = .ofNat (0xE0 + c.val / 0x1000) :: trailing c.val 1 := by
  simp only [scalarBytes]
  rw [if_neg (by omega), if_neg (by omega), if_pos high]
  rfl

theorem scalarBytes_four (low : 0x10000 ≤ c.val) :
    scalarBytes c = .ofNat (0xF0 + c.val / 0x40000) :: trailing c.val 2 := by
  simp only [scalarBytes]
  rw [if_neg (by omega), if_neg (by omega), if_neg (by omega)]
  rfl

end Characters

namespace Incomplete

/-- A character of which the first bytes have been read, and of which the next byte is accepted. -/
structure Awaits (p : Incomplete) (c : CodePoint) : Prop where
  value : c.val / 0x40 ^ (p.missing + 1) = p.value
  low : p.low.toNat ≤ 0x80 + c.val / 0x40 ^ p.missing % 0x40
  high : 0x80 + c.val / 0x40 ^ p.missing % 0x40 ≤ p.high.toNat

/-- What has been read of a character starts the bytes of all characters that are awaited. -/
structure Spells (p : Incomplete) : Prop where
  bytes {c : CodePoint} : p.Awaits c →
    c.isSurrogate = false ∧ scalarBytes c = p.bytes ++ trailing c.val p.missing
  low : 0x80 ≤ p.low.toNat
  high : p.high.toNat ≤ 0xBF
  bound : (p.value * 0x40 + (p.high.toNat - 0x80) + 1) * 0x40 ^ p.missing ≤ 0x110000

theorem accepts_iff {p : Incomplete} {b : UInt8} :
    p.accepts b ↔ p.low.toNat ≤ b.toNat ∧ b.toNat ≤ p.high.toNat := by
  simp [accepts, UInt8.le_iff_toNat_le]

end Incomplete

theorem isSurrogate_eq_false_iff {c : CodePoint} :
    c.isSurrogate = false ↔ c.val < 0xD800 ∨ 0xDFFF < c.val := by
  simp only [CodePoint.isSurrogate, Bool.and_eq_false_iff, decide_eq_false_iff_not]
  omega

theorem ofNat_of_lt {n : Nat} (h : n < 0x110000) : (Fin.ofNat 0x110000 n : CodePoint) = ⟨n, h⟩ := by
  rw [← Fin.val_inj, Fin.val_ofNat, Nat.mod_eq_of_lt h]

theorem ofNat_eq_of_toNat_eq {b : UInt8} {n : Nat} (h : n = b.toNat) : UInt8.ofNat n = b := by
  rw [h, UInt8.ofNat_toNat]

section Leads
variable {b : UInt8}

theorem spells_two (low : 0xC2 ≤ b.toNat) (high : b.toNat < 0xE0) :
    Incomplete.Spells ⟨[b], b.toNat - 0xC0, 0x80, 0xBF, 0⟩ where
  bytes {c} h := by
    have value : c.val / 0x40 = b.toNat - 0xC0 := by simpa using h.value
    have lead : UInt8.ofNat (0xC0 + c.val / 0x40) = b := ofNat_eq_of_toNat_eq (by omega)
    refine ⟨isSurrogate_eq_false_iff.mpr (by omega), ?_⟩
    rw [scalarBytes_two (by omega) (by omega), lead]
    rfl
  low := by simp
  high := by simp
  bound := by simp; omega

theorem spells_three (low : 0xE0 ≤ b.toNat) (high : b.toNat < 0xF0) :
    Incomplete.Spells ⟨[b], b.toNat - 0xE0, if b.toNat = 0xE0 then 0xA0 else 0x80,
      if b.toNat = 0xED then 0x9F else 0xBF, 1⟩ where
  bytes {c} h := by
    have value : c.val / 0x1000 = b.toNat - 0xE0 := by simpa using h.value
    have second := h.low
    have second' := h.high
    have lead : UInt8.ofNat (0xE0 + c.val / 0x1000) = b := ofNat_eq_of_toNat_eq (by omega)
    have long : 0x800 ≤ c.val := by
      by_cases first : b.toNat = 0xE0
      · simp [first] at second
        omega
      · omega
    have scalar : c.val < 0xD800 ∨ 0xDFFF < c.val := by
      by_cases surrogates : b.toNat = 0xED
      · simp [surrogates] at second'
        omega
      · omega
    refine ⟨isSurrogate_eq_false_iff.mpr scalar, ?_⟩
    rw [scalarBytes_three long (by omega), lead]
    rfl
  low := by
    dsimp only
    split <;> simp
  high := by
    dsimp only
    split <;> simp
  bound := by
    dsimp only
    split <;> simp <;> omega

theorem spells_four (low : 0xF0 ≤ b.toNat) (high : b.toNat < 0xF5) :
    Incomplete.Spells ⟨[b], b.toNat - 0xF0, if b.toNat = 0xF0 then 0x90 else 0x80,
      if b.toNat = 0xF4 then 0x8F else 0xBF, 2⟩ where
  bytes {c} h := by
    have value : c.val / 0x40000 = b.toNat - 0xF0 := by simpa using h.value
    have second := h.low
    have lead : UInt8.ofNat (0xF0 + c.val / 0x40000) = b := ofNat_eq_of_toNat_eq (by omega)
    have long : 0x10000 ≤ c.val := by
      by_cases first : b.toNat = 0xF0
      · simp [first] at second
        omega
      · omega
    refine ⟨isSurrogate_eq_false_iff.mpr (by omega), ?_⟩
    rw [scalarBytes_four long, lead]
    rfl
  low := by
    dsimp only
    split <;> simp
  high := by
    dsimp only
    split <;> simp
  bound := by
    dsimp only
    split <;> simp <;> omega

theorem ofFirst_cases (b : UInt8) :
    (b.toNat < 0x80 ∧ Progress.ofFirst b = .done (.scalar (Fin.ofNat _ b.toNat))) ∨
      (0x80 ≤ b.toNat ∧ Progress.ofFirst b = .done (.broken [b])) ∨
      (0x80 ≤ b.toNat ∧ ∃ p, Progress.ofFirst b = .more p ∧ p.Spells ∧ p.bytes = [b]) := by
  have small := b.toNat_lt
  by_cases one : b.toNat < 0x80
  · exact .inl ⟨one, ofFirst_one one⟩
  by_cases unused : b.toNat < 0xC2 ∨ 0xF5 ≤ b.toNat
  · exact .inr (.inl ⟨by omega, ofFirst_broken (by omega) unused⟩)
  refine .inr (.inr ⟨by omega, ?_⟩)
  by_cases two : b.toNat < 0xE0
  · exact ⟨_, ofFirst_two (by omega) two, spells_two (by omega) two, rfl⟩
  by_cases three : b.toNat < 0xF0
  · exact ⟨_, ofFirst_three (by omega) three, spells_three (by omega) three, rfl⟩
  · exact ⟨_, ofFirst_four (by omega) (by omega), spells_four (by omega) (by omega), rfl⟩

theorem IsTrailing.ofFirst (h : IsTrailing b) : Progress.ofFirst b = .done (.broken [b]) := by
  obtain ⟨low, high⟩ := h
  exact ofFirst_broken low (.inl (by omega))

end Leads

/-- A character of more than one byte is awaited behind its lead byte. -/
theorem exists_ofFirst_awaits {c : CodePoint} (long : 0x80 ≤ c.val)
    (scalar : c.isSurrogate = false) :
    ∃ b p, scalarBytes c = b :: trailing c.val p.missing ∧ 0x80 ≤ b.toNat ∧
      Progress.ofFirst b = .more p ∧ p.Awaits c := by
  have bounds := isSurrogate_eq_false_iff.mp scalar
  have last := c.isLt
  have toNat (n : Nat) (h : n < 0x100) : (UInt8.ofNat n).toNat = n := by
    rw [UInt8.toNat_ofNat']
    omega
  by_cases two : c.val < 0x800
  · have lead := toNat (0xC0 + c.val / 0x40) (by omega)
    refine ⟨_, _, scalarBytes_two long two, by omega,
      ofFirst_two (by omega) (by omega), ?_, ?_, ?_⟩
    · simp
      omega
    · simp
    · simp
      omega
  by_cases three : c.val < 0x10000
  · have lead := toNat (0xE0 + c.val / 0x1000) (by omega)
    refine ⟨_, _, scalarBytes_three (by omega) three, by omega,
      ofFirst_three (by omega) (by omega), ?_, ?_, ?_⟩
    · simp
      omega
    · rw [lead]
      dsimp only
      split <;> simp
      omega
    · rw [lead]
      dsimp only
      split <;> simp <;> omega
  · have lead := toNat (0xF0 + c.val / 0x40000) (by omega)
    refine ⟨_, _, scalarBytes_four (by omega), by omega,
      ofFirst_four (by omega) (by omega), ?_, ?_, ?_⟩
    · simp
      omega
    · rw [lead]
      dsimp only
      split <;> simp
      omega
    · rw [lead]
      dsimp only
      split <;> simp <;> omega

namespace Incomplete
variable {p : Incomplete} {b : UInt8}

theorem Spells.isTrailing (h : p.Spells) (accepted : p.accepts b) : IsTrailing b := by
  have range := accepts_iff.mp accepted
  have low := h.low
  have high := h.high
  constructor <;> omega

theorem Spells.push_last (h : p.Spells) (accepted : p.accepts b) (last : p.missing = 0) :
    ∃ c, p.push b = .done (.scalar c) ∧ c.isSurrogate = false ∧
      scalarBytes c = p.bytes ++ [b] := by
  obtain ⟨low, high⟩ := h.isTrailing accepted
  have range := accepts_iff.mp accepted
  have bound := h.bound
  rw [last] at bound
  have fits : p.value * 0x40 + (b.toNat - 0x80) < 0x110000 := by omega
  have awaited : p.Awaits ⟨p.value * 0x40 + (b.toNat - 0x80), fits⟩ := by
    constructor <;> simp only [last] <;> omega
  obtain ⟨scalar, bytes⟩ := h.bytes awaited
  have group : UInt8.ofNat (0x80 + (p.value * 0x40 + (b.toNat - 0x80)) % 0x40) = b :=
    ofNat_eq_of_toNat_eq (by omega)
  refine ⟨_, ?_, scalar, ?_⟩
  · simp only [push, last, ofNat_of_lt fits]
  · rw [bytes, last, trailing, group]

theorem Spells.push_next (h : p.Spells) (accepted : p.accepts b) {n : Nat}
    (next : p.missing = n + 1) :
    ∃ p', p.push b = .more p' ∧ p'.Spells ∧ p'.bytes = p.bytes ++ [b] ∧ p'.missing = n := by
  obtain ⟨low, high⟩ := h.isTrailing accepted
  have range := accepts_iff.mp accepted
  refine ⟨⟨p.bytes ++ [b], p.value * 0x40 + (b.toNat - 0x80), 0x80, 0xBF, n⟩, ?_, ?_, rfl, rfl⟩
  · simp only [push, next]
  · constructor
    · intro c awaited
      have value : c.val / 0x40 ^ (n + 1) = p.value * 0x40 + (b.toNat - 0x80) := awaited.value
      have group : c.val / 0x40 ^ (n + 1) / 0x40 = c.val / 0x40 ^ (n + 1 + 1) := by
        rw [Nat.div_div_eq_div_mul, ← Nat.pow_succ]
      have before : p.Awaits c := by
        constructor <;> rw [next] <;> omega
      obtain ⟨scalar, bytes⟩ := h.bytes before
      refine ⟨scalar, ?_⟩
      rw [bytes, next, trailing, ofNat_eq_of_toNat_eq (b := b) (by omega)]
      simp
    · simp
    · simp
    · have bound := h.bound
      rw [next, Nat.pow_succ] at bound
      have most : p.value * 0x40 + (b.toNat - 0x80) + 1 ≤
          p.value * 0x40 + (p.high.toNat - 0x80) + 1 := by omega
      calc ((p.value * 0x40 + (b.toNat - 0x80)) * 0x40 + ((0xBF : UInt8).toNat - 0x80) + 1)
            * 0x40 ^ n
          = (p.value * 0x40 + (b.toNat - 0x80) + 1) * (0x40 ^ n * 0x40) := by
            simp only [UInt8.reduceToNat]
            ring
        _ ≤ (p.value * 0x40 + (p.high.toNat - 0x80) + 1) * (0x40 ^ n * 0x40) :=
            Nat.mul_le_mul_right _ most
        _ ≤ 0x110000 := bound

/-- The trailing bytes of a character that is awaited finish it. -/
theorem Awaits.piecesFrom_eq {c : CodePoint} (h : p.Awaits c) (rest : List UInt8) :
    piecesFrom (some p) (trailing c.val p.missing ++ rest) =
      .scalar c :: piecesFrom none rest := by
  generalize missing : p.missing = n
  induction n generalizing p with
  | zero =>
      have next := toNat_trailing c.val 0
      have value := h.value
      have low := h.low
      have high := h.high
      rw [missing] at value low high
      simp only [Nat.pow_zero, Nat.div_one] at next low high
      have accepted : p.accepts (.ofNat (0x80 + c.val % 0x40)) := by
        rw [accepts_iff, next]
        exact ⟨low, high⟩
      have number : p.value * 0x40 + (0x80 + c.val % 0x40 - 0x80) = c.val := by omega
      simp only [trailing, List.cons_append, List.nil_append, piecesFrom, accepted, if_true, push,
        missing, next, number, ofNat_of_lt c.isLt]
  | succ n ih =>
      have next := toNat_trailing c.val (n + 1)
      have value := h.value
      have low := h.low
      have high := h.high
      rw [missing] at value low high
      have accepted : p.accepts (.ofNat (0x80 + c.val / 0x40 ^ (n + 1) % 0x40)) := by
        rw [accepts_iff, next]
        exact ⟨low, high⟩
      have group : c.val / 0x40 ^ (n + 1) / 0x40 = c.val / 0x40 ^ (n + 1 + 1) := by
        rw [Nat.div_div_eq_div_mul, ← Nat.pow_succ]
      simp only [trailing, List.cons_append, piecesFrom, accepted, if_true, push, missing, next]
      refine ih ⟨?_, ?_, ?_⟩ rfl
      · dsimp only
        omega
      · simp
      · have small : c.val / 0x40 ^ n % 0x40 < 0x40 := Nat.mod_lt _ (by decide)
        simp
        omega

/-- Reading on behind the first bytes of a character either finishes a character, or breaks off
behind some trailing bytes. -/
theorem Spells.piecesFrom_cases (h : p.Spells) (bytes : List UInt8) :
    (∃ c front rest, c.isSurrogate = false ∧ scalarBytes c = p.bytes ++ front ∧
      bytes = front ++ rest ∧ piecesFrom (some p) bytes = .scalar c :: piecesFrom none rest) ∨
    ∃ front rest, (∀ b ∈ front, IsTrailing b) ∧ bytes = front ++ rest ∧
      piecesFrom (some p) bytes = .broken (p.bytes ++ front) :: piecesFrom none rest := by
  induction bytes generalizing p with
  | nil => exact .inr ⟨[], [], nofun, rfl, by simp [piecesFrom]⟩
  | cons b bytes ih =>
      by_cases accepted : p.accepts b
      · cases missing : p.missing with
        | zero =>
            obtain ⟨c, pushed, scalar, spelled⟩ := h.push_last accepted missing
            refine .inl ⟨c, [b], bytes, scalar, spelled, rfl, ?_⟩
            simp only [piecesFrom, accepted, if_true, pushed]
        | succ n =>
            obtain ⟨p', pushed, spells, read, -⟩ := h.push_next accepted missing
            have step : piecesFrom (some p) (b :: bytes) = piecesFrom (some p') bytes := by
              simp only [piecesFrom, accepted, if_true, pushed]
            rw [step]
            rcases ih spells with ⟨c, front, rest, scalar, spelled, rfl, same⟩ |
              ⟨front, rest, trail, rfl, same⟩
            · refine .inl ⟨c, b :: front, rest, scalar, ?_, rfl, same⟩
              rw [spelled, read, List.append_assoc]
              rfl
            · refine .inr ⟨b :: front, rest, ?_, rfl, ?_⟩
              · intro d mem
                rcases List.mem_cons.mp mem with rfl | mem
                · exact h.isTrailing accepted
                · exact trail d mem
              · rw [same, read, List.append_assoc]
                rfl
      · refine .inr ⟨[], b :: bytes, nofun, rfl, ?_⟩
        simp only [piecesFrom, accepted, List.append_nil]
        rfl

end Incomplete

section Texts
variable {c : CodePoint}

theorem pieces_scalarBytes_append (scalar : c.isSurrogate = false) (rest : List UInt8) :
    pieces (scalarBytes c ++ rest) = .scalar c :: pieces rest := by
  by_cases one : c.val < 0x80
  · have lead : (UInt8.ofNat c.val).toNat = c.val := by
      rw [UInt8.toNat_ofNat']
      omega
    have first := ofFirst_one (b := .ofNat c.val) (by omega)
    rw [lead, ofNat_of_lt c.isLt] at first
    rw [scalarBytes_one one]
    simp [pieces, piecesFrom, first]
  · obtain ⟨b, p, bytes, -, first, awaits⟩ := exists_ofFirst_awaits (by omega) scalar
    have read := awaits.piecesFrom_eq rest
    rw [bytes]
    simp [pieces, piecesFrom, first, read]

theorem ofBytes_scalarBytes_append (scalar : c.isSurrogate = false) (rest : List UInt8) :
    ofBytes (scalarBytes c ++ rest) = c :: ofBytes rest := by
  rw [ofBytes, pieces_scalarBytes_append scalar]
  rfl

theorem ofBytes_cons_of_broken {b : UInt8} (h : Progress.ofFirst b = .done (.broken [b]))
    (rest : List UInt8) : ofBytes (b :: rest) = escapedByte b :: ofBytes rest := by
  simp [ofBytes, pieces, piecesFrom, h, Piece.escaped]

/-- Trailing bytes begin no character. -/
theorem ofBytes_trailing_append {front : List UInt8} (h : ∀ b ∈ front, IsTrailing b)
    (rest : List UInt8) : ofBytes (front ++ rest) = front.map escapedByte ++ ofBytes rest := by
  induction front with
  | nil => rfl
  | cons b front ih =>
      have first := (h b List.mem_cons_self).ofFirst
      have others := ih fun d mem => h d (List.mem_cons_of_mem b mem)
      rw [List.cons_append, ofBytes_cons_of_broken first, others]
      rfl

/-- A character begins at the first byte, or the byte is escaped and decoding goes on behind it. -/
theorem ofBytes_cons (b : UInt8) (bytes : List UInt8) :
    (∃ c front rest, c.isSurrogate = false ∧ scalarBytes c = b :: front ∧ bytes = front ++ rest) ∨
      0x80 ≤ b.toNat ∧ ofBytes (b :: bytes) = escapedByte b :: ofBytes bytes := by
  rcases ofFirst_cases b with ⟨one, -⟩ | ⟨large, first⟩ | ⟨large, p, first, spells, read⟩
  · refine .inl ⟨⟨b.toNat, by omega⟩, [], bytes, isSurrogate_eq_false_iff.mpr ?_, ?_, rfl⟩
    · dsimp only
      omega
    · rw [scalarBytes_one one, ofNat_eq_of_toNat_eq rfl]
  · exact .inr ⟨large, ofBytes_cons_of_broken first bytes⟩
  · rcases spells.piecesFrom_cases bytes with ⟨c, front, rest, scalar, spelled, rfl, -⟩ |
      ⟨front, rest, trail, rfl, same⟩
    · refine .inl ⟨c, front, rest, scalar, ?_, rfl⟩
      rw [spelled, read]
      rfl
    · refine .inr ⟨large, ?_⟩
      rw [ofBytes_trailing_append trail]
      simp [ofBytes, pieces, piecesFrom, first, same, read, Piece.escaped]

theorem isTrailing_of_scalarBytes {b : UInt8} {front : List UInt8}
    (scalar : c.isSurrogate = false) (h : scalarBytes c = b :: front) (large : 0x80 ≤ b.toNat) :
    front ≠ [] ∧ ∀ d ∈ front, IsTrailing d := by
  have long : 0x80 ≤ c.val := by
    by_contra one
    rw [scalarBytes_one (by omega)] at h
    have lead : UInt8.ofNat c.val = b := (List.cons.inj h).1
    rw [← lead, UInt8.toNat_ofNat'] at large
    omega
  obtain ⟨lead, p, bytes, -, -, -⟩ := exists_ofFirst_awaits long scalar
  rw [bytes] at h
  obtain ⟨-, rfl⟩ := List.cons.inj h
  exact ⟨trailing_ne_nil _ _, fun d => isTrailing_of_mem_trailing⟩

end Texts

end Script.Utf8
