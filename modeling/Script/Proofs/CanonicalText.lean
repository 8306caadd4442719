import Script.Proofs.Utf8Decoding

/-!
# Canonical texts

A text is canonical if it is what its bytes are decoded to. No text is shorter than the one that its
bytes are decoded to, and any other text with the same bytes is longer: it spells some character by
escaped bytes. Since both parts of a text together are no shorter than the whole one, every part of
a canonical text is canonical. Canonical texts are equal exactly if their bytes are.
-/

namespace Script

namespace Utf8

inductive HasBytes : Text → List UInt8 → Prop
  | nil : HasBytes [] []
  | cons {c : CodePoint} {t : Text} {front bytes : List UInt8} :
      pointBytes? c = some front → HasBytes t bytes → HasBytes (c :: t) (front ++ bytes)

theorem toBytesFrom_eq_ok_iff {i : Nat} {t : Text} {bytes : List UInt8} :
    toBytesFrom i t = .ok bytes ↔ HasBytes t bytes := by
  constructor
  · intro h
    induction t generalizing i bytes with
    | nil =>
        cases h
        exact .nil
    | cons c t ih =>
        simp only [toBytesFrom] at h
        cases point : pointBytes? c with
        | none => rw [point] at h; cases h
        | some front =>
            rw [point] at h
            cases tail : toBytesFrom (i + 1) t with
            | error e => rw [tail] at h; cases h
            | ok rest =>
                rw [tail] at h
                cases h
                exact .cons point (ih tail)
  · intro h
    induction h generalizing i with
    | nil => rfl
    | cons point _ ih =>
        simp only [toBytesFrom, point, ih]
        rfl

theorem toBytes_eq_ok_iff {t : Text} {bytes : List UInt8} :
    toBytes t = .ok bytes ↔ HasBytes t bytes :=
  toBytesFrom_eq_ok_iff

namespace HasBytes
variable {s t : Text} {bytes : List UInt8}

theorem append {front : List UInt8} (hs : HasBytes s front) (ht : HasBytes t bytes) :
    HasBytes (s ++ t) (front ++ bytes) := by
  induction hs with
  | nil => exact ht
  | cons point _ ih =>
      rw [List.append_assoc]
      exact .cons point ih

theorem split (h : HasBytes (s ++ t) bytes) :
    ∃ front back, HasBytes s front ∧ HasBytes t back ∧ bytes = front ++ back := by
  induction s generalizing bytes with
  | nil => exact ⟨[], bytes, .nil, h, rfl⟩
  | cons c s ih =>
      cases h with
      | @cons _ _ first rest point h =>
          obtain ⟨front, back, hs, ht, rfl⟩ := ih h
          exact ⟨first ++ front, back, .cons point hs, ht, (List.append_assoc _ _ _).symm⟩

end HasBytes

theorem pointBytes?_of_scalar {c : CodePoint} (scalar : c.isSurrogate = false) :
    pointBytes? c = some (scalarBytes c) := by
  have range := isSurrogate_eq_false_iff.mp scalar
  have other : c.isEscapedByte = false := by
    simp only [CodePoint.isEscapedByte, Bool.and_eq_false_iff, decide_eq_false_iff_not]
    omega
  simp [pointBytes?, other, scalar]

theorem pointBytes?_escapedByte {b : UInt8} (large : 0x80 ≤ b.toNat) :
    pointBytes? (escapedByte b) = some [b] := by
  have small := b.toNat_lt
  have value : (escapedByte b).val = 0xDC00 + b.toNat := by
    rw [escapedByte, ofNat_of_lt (by omega)]
  have escaped : (escapedByte b).isEscapedByte = true := by
    simp only [CodePoint.isEscapedByte, value, Bool.and_eq_true, decide_eq_true_eq]
    omega
  have byte : UInt8.ofNat (0xDC00 + b.toNat - 0xDC00) = b := ofNat_eq_of_toNat_eq (by omega)
  rw [pointBytes?, if_pos escaped, value, byte]

theorem pointBytes?_cases {c : CodePoint} {front : List UInt8} (h : pointBytes? c = some front) :
    (c.isSurrogate = false ∧ front = scalarBytes c) ∨
      ∃ b, 0x80 ≤ b.toNat ∧ front = [b] ∧ escapedByte b = c := by
  unfold pointBytes? at h
  split at h
  · rename_i escaped
    simp only [CodePoint.isEscapedByte, Bool.and_eq_true, decide_eq_true_eq] at escaped
    have byte : (UInt8.ofNat (c.val - 0xDC00)).toNat = c.val - 0xDC00 := by
      rw [UInt8.toNat_ofNat']
      omega
    refine .inr ⟨_, ?_, (Option.some.inj h).symm, ?_⟩
    · omega
    · rw [escapedByte, byte, ofNat_of_lt (by omega), ← Fin.val_inj]
      dsimp only
      omega
  · split at h
    · cases h
    · rename_i scalar
      exact .inl ⟨by simpa using scalar, (Option.some.inj h).symm⟩

theorem hasBytes_ofBytes (bytes : List UInt8) : HasBytes (ofBytes bytes) bytes := by
  induction length : bytes.length using Nat.strong_induction_on generalizing bytes with
  | _ n ih =>
      subst length
      cases bytes with
      | nil => exact .nil
      | cons b bytes =>
          rcases ofBytes_cons b bytes with ⟨c, front, rest, scalar, spelled, rfl⟩ | ⟨large, same⟩
          · have shorter : rest.length < (b :: (front ++ rest)).length := by
              rw [List.length_cons, List.length_append]
              omega
            rw [← List.cons_append, ← spelled, ofBytes_scalarBytes_append scalar]
            exact .cons (pointBytes?_of_scalar scalar) (ih _ shorter rest rfl)
          · rw [same]
            exact .cons (pointBytes?_escapedByte large) (ih _ (Nat.lt_succ_self _) bytes rfl)

/-- No text is shorter than what its bytes are decoded to, and no other text is as short. -/
theorem HasBytes.length_ofBytes_le {t : Text} {bytes : List UInt8} (h : HasBytes t bytes) :
    (ofBytes bytes).length ≤ t.length ∧
      ((ofBytes bytes).length = t.length → ofBytes bytes = t) := by
  induction h with
  | nil => exact ⟨Nat.le_refl _, fun _ => rfl⟩
  | @cons c t front bytes point _ ih =>
      obtain ⟨le, eq⟩ := ih
      rcases pointBytes?_cases point with ⟨scalar, rfl⟩ | ⟨b, large, rfl, rfl⟩
      · rw [ofBytes_scalarBytes_append scalar]
        simp only [List.length_cons, Nat.add_le_add_iff_right, Nat.add_right_cancel_iff]
        exact ⟨le, fun same => by rw [eq same]⟩
      · rcases ofBytes_cons b bytes with ⟨c, front, rest, scalar, spelled, rfl⟩ | ⟨-, same⟩
        · -- the escaped byte begins a character, whose other bytes are escaped in `t` as well
          obtain ⟨others, trail⟩ := isTrailing_of_scalarBytes scalar spelled large
          have whole : ofBytes ([b] ++ (front ++ rest)) = c :: ofBytes rest := by
            rw [List.singleton_append, ← List.cons_append, ← spelled,
              ofBytes_scalarBytes_append scalar]
          rw [ofBytes_trailing_append trail, List.length_append, List.length_map] at le
          have positive : 0 < front.length := List.length_pos_iff.mpr others
          rw [whole]
          simp only [List.length_cons]
          constructor
          · omega
          · intro same
            omega
        · rw [List.singleton_append, same]
          simp only [List.length_cons, Nat.add_le_add_iff_right, Nat.add_right_cancel_iff]
          exact ⟨le, fun same => by rw [eq same]⟩

end Utf8

namespace Text
open Utf8

/-- A text that is what its bytes are decoded to. -/
def Canonical (t : Text) : Prop :=
  (toBytes t).map ofBytes = .ok t

instance (t : Text) : Decidable t.Canonical :=
  inferInstanceAs (Decidable (_ = _))

theorem canonical_iff {t : Text} : t.Canonical ↔ ∃ bytes, HasBytes t bytes ∧ ofBytes bytes = t := by
  unfold Canonical
  constructor
  · intro h
    cases bytes : toBytes t with
    | error e => rw [bytes] at h; cases h
    | ok bs =>
        rw [bytes] at h
        exact ⟨bs, toBytes_eq_ok_iff.mp bytes, Except.ok.inj h⟩
  · rintro ⟨bytes, h, same⟩
    rw [toBytes_eq_ok_iff.mpr h]
    exact congrArg Except.ok same

theorem canonical_ofBytes (bytes : List UInt8) : Canonical (ofBytes bytes) :=
  canonical_iff.mpr ⟨bytes, hasBytes_ofBytes bytes, rfl⟩

namespace Canonical
variable {s t : Text}

/-- Both parts of a canonical text are as short as they can be. -/
theorem of_append (h : Canonical (s ++ t)) : s.Canonical ∧ t.Canonical := by
  obtain ⟨bytes, has, same⟩ := canonical_iff.mp h
  obtain ⟨front, back, hs, ht, rfl⟩ := has.split
  obtain ⟨le, eq⟩ := hs.length_ofBytes_le
  obtain ⟨le', eq'⟩ := ht.length_ofBytes_le
  have decoded := (hasBytes_ofBytes front).append (hasBytes_ofBytes back)
  have least := decoded.length_ofBytes_le.1
  rw [same, List.length_append, List.length_append] at least
  have shortest : (ofBytes front).length = s.length := by omega
  have shortest' : (ofBytes back).length = t.length := by omega
  exact ⟨canonical_iff.mpr ⟨front, hs, eq shortest⟩, canonical_iff.mpr ⟨back, ht, eq' shortest'⟩⟩

theorem of_infix (h : t.Canonical) (part : s <:+: t) : s.Canonical := by
  obtain ⟨front, back, rfl⟩ := part
  exact h.of_append.1.of_append.2

/-- Canonical texts are known by their bytes. -/
theorem eq_iff (hs : s.Canonical) (ht : t.Canonical) : s = t ↔ toBytes s = toBytes t := by
  constructor
  · rintro rfl
    rfl
  · intro same
    unfold Canonical at hs ht
    rw [same, ht] at hs
    exact (Except.ok.inj hs).symm

end Canonical

end Text

end Script
