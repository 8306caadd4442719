import Script.Proofs.CanonicalText

/-!
# The byte codec

Decoding loses no byte. Encoding fails on the surrogates that stand for no byte, and it loses the
difference between a character and code points that stand for its bytes one by one. A text without
such a disguised character is decoded from its bytes as it was.

The readable form of a text shows the characters that its bytes spell and a replacement character
for everything else. So it has no surrogates, and a text without surrogates is its own readable
form.
-/

namespace Script

/-! ### Texts that have bytes -/

/-- A text has bytes if every surrogate in it stands for a byte. -/
def Text.Encodable (t : Text) : Prop :=
  ∀ c ∈ t, c.isSurrogate → c.isEscapedByte

instance (t : Text) : Decidable t.Encodable :=
  List.decidableBAll (fun c : CodePoint => c.isSurrogate = true → c.isEscapedByte = true) t

theorem Utf8.exists_pointBytes?_iff {c : CodePoint} :
    (∃ bytes, pointBytes? c = some bytes) ↔ (c.isSurrogate → c.isEscapedByte) := by
  unfold pointBytes?
  split
  · rename_i escaped
    simp [escaped]
  · rename_i other
    split
    · rename_i surrogate
      simp [other, surrogate]
    · rename_i scalar
      simp [scalar]

theorem Text.encodable_iff {t : Text} : t.Encodable ↔ ∃ bytes, Utf8.HasBytes t bytes := by
  constructor
  · intro encodable
    induction t with
    | nil => exact ⟨[], .nil⟩
    | cons c t ih =>
        obtain ⟨first, others⟩ := List.forall_mem_cons.mp encodable
        obtain ⟨front, point⟩ := Utf8.exists_pointBytes?_iff.mpr first
        obtain ⟨bytes, has⟩ := ih others
        exact ⟨front ++ bytes, .cons point has⟩
  · rintro ⟨bytes, has⟩
    induction has with
    | nil => exact fun c mem => absurd mem List.not_mem_nil
    | cons point _ ih =>
        exact List.forall_mem_cons.mpr ⟨Utf8.exists_pointBytes?_iff.mp ⟨_, point⟩, ih⟩

namespace Text.Encodable
variable {s t : Text}

theorem exists_toBytes (h : t.Encodable) : ∃ bytes, Utf8.toBytes t = .ok bytes := by
  obtain ⟨bytes, has⟩ := Text.encodable_iff.mp h
  exact ⟨bytes, Utf8.toBytes_eq_ok_iff.mpr has⟩

theorem exists_display (h : t.Encodable) : ∃ shown, Utf8.display t = .ok shown := by
  obtain ⟨bytes, has⟩ := h.exists_toBytes
  exact ⟨_, by rw [Utf8.display, has]; rfl⟩

theorem ofBytes (bytes : List UInt8) : (Utf8.ofBytes bytes).Encodable :=
  Text.encodable_iff.mpr ⟨bytes, Utf8.hasBytes_ofBytes bytes⟩

theorem of_infix (h : t.Encodable) (part : s <:+: t) : s.Encodable :=
  fun c mem => h c (part.subset mem)

end Text.Encodable

theorem Utf8.toBytes_ofBytes (bytes : List UInt8) : toBytes (ofBytes bytes) = .ok bytes :=
  toBytes_eq_ok_iff.mpr (hasBytes_ofBytes bytes)

/-! ### Disguised characters -/

/-- A character is disguised in a text that consists of code points for its bytes. -/
structure Text.Disguises (t : Text) (c : CodePoint) : Prop where
  least : 2 ≤ t.length
  most : t.length ≤ 4
  escaped : ∀ d ∈ t, d.isEscapedByte
  scalar : c.isSurrogate = false
  spells : Utf8.toBytes t = .ok (Utf8.scalarBytes c)

namespace Utf8

theorem isEscapedByte_escapedByte {b : UInt8} (large : 0x80 ≤ b.toNat) :
    (escapedByte b).isEscapedByte := by
  have small := b.toNat_lt
  rw [escapedByte, ofNat_of_lt (by omega)]
  simp only [CodePoint.isEscapedByte, Bool.and_eq_true, decide_eq_true_eq]
  omega

theorem hasBytes_map_escapedByte {bytes : List UInt8} (large : ∀ b ∈ bytes, 0x80 ≤ b.toNat) :
    HasBytes (bytes.map escapedByte) bytes := by
  induction bytes with
  | nil => exact .nil
  | cons b bytes ih =>
      obtain ⟨first, others⟩ := List.forall_mem_cons.mp large
      exact .cons (pointBytes?_escapedByte first) (ih others)

theorem length_scalarBytes_le (c : CodePoint) : (scalarBytes c).length ≤ 4 := by
  unfold scalarBytes
  dsimp only
  split
  · simp
  split
  · simp
  split
  · simp
  · simp

/-- The bytes of a character of more than one byte disguise it. -/
theorem disguises_scalarBytes {c : CodePoint} {b : UInt8} {front : List UInt8}
    (scalar : c.isSurrogate = false) (spelled : scalarBytes c = b :: front)
    (large : 0x80 ≤ b.toNat) : Text.Disguises ((b :: front).map escapedByte) c := by
  obtain ⟨others, trail⟩ := isTrailing_of_scalarBytes scalar spelled large
  have all : ∀ d ∈ b :: front, 0x80 ≤ d.toNat :=
    List.forall_mem_cons.mpr ⟨large, fun d mem => (trail d mem).1⟩
  have positive : 0 < front.length := List.length_pos_iff.mpr others
  have most := length_scalarBytes_le c
  rw [spelled] at most
  constructor
  · rw [List.length_map, List.length_cons]
    omega
  · rwa [List.length_map]
  · rintro d mem
    obtain ⟨e, spelling, rfl⟩ := List.mem_map.mp mem
    exact isEscapedByte_escapedByte (all e spelling)
  · exact scalar
  · rw [spelled]
    exact toBytes_eq_ok_iff.mpr (hasBytes_map_escapedByte all)

/-- A text in which no character is disguised is decoded from its bytes. -/
theorem HasBytes.ofBytes_eq {t : Text} {bytes : List UInt8} (h : HasBytes t bytes)
    (open_ : ∀ part : Text, part <:+: t → ∀ c, ¬ part.Disguises c) : ofBytes bytes = t := by
  induction h with
  | nil => rfl
  | @cons d t front bytes point _ ih =>
      have same : ofBytes bytes = t :=
        ih fun part inside => open_ part (inside.trans (List.suffix_cons d t).isInfix)
      rcases pointBytes?_cases point with ⟨scalar, rfl⟩ | ⟨b, large, rfl, rfl⟩
      · rw [ofBytes_scalarBytes_append scalar, same]
      · rcases ofBytes_cons b bytes with ⟨c, front, rest, scalar, spelled, rfl⟩ | ⟨-, escaped⟩
        · -- what is left of the text starts with code points for the other bytes of the character
          have trail := (isTrailing_of_scalarBytes scalar spelled large).2
          rw [ofBytes_trailing_append trail] at same
          have inside : (b :: front).map escapedByte <:+: escapedByte b :: t :=
            ⟨[], ofBytes rest, by rw [← same]; rfl⟩
          exact absurd (disguises_scalarBytes scalar spelled large) (open_ _ inside c)
        · rw [List.singleton_append, escaped, same]

end Utf8

namespace Text
open Utf8

theorem Disguises.not_canonical {t : Text} {c : CodePoint} (h : t.Disguises c) :
    ¬ t.Canonical := by
  intro canonical
  have decoded : ofBytes (scalarBytes c) = [c] := by
    have alone := ofBytes_scalarBytes_append h.scalar []
    rwa [List.append_nil] at alone
  unfold Canonical at canonical
  rw [h.spells] at canonical
  have same : [c] = t := decoded.symm.trans (Except.ok.inj canonical)
  have least := h.least
  rw [← same, List.length_singleton] at least
  omega

/-- Exactly the texts in which no character is disguised are decoded from their bytes. -/
theorem ofBytes_eq_iff {t : Text} {bytes : List UInt8} (h : toBytes t = .ok bytes) :
    ofBytes bytes = t ↔ ∀ part : Text, part <:+: t → ∀ c, ¬ part.Disguises c := by
  have has := toBytes_eq_ok_iff.mp h
  constructor
  · intro same part inside c disguised
    have canonical : t.Canonical := canonical_iff.mpr ⟨bytes, has, same⟩
    exact disguised.not_canonical (canonical.of_infix inside)
  · exact has.ofBytes_eq

end Text

/-! ### Readable forms -/

namespace Utf8

theorem isSurrogate_replaced (bytes : List UInt8) :
    ∀ piece ∈ pieces bytes, piece.replaced.isSurrogate = false := by
  induction length : bytes.length using Nat.strong_induction_on generalizing bytes with
  | _ n ih =>
      subst length
      cases bytes with
      | nil => exact fun piece mem => absurd mem List.not_mem_nil
      | cons b bytes =>
          rcases ofFirst_cases b with ⟨one, first⟩ | ⟨-, first⟩ | ⟨-, p, first, spells, -⟩
          · have read : pieces (b :: bytes) = .scalar (Fin.ofNat _ b.toNat) :: pieces bytes := by
              simp only [pieces, piecesFrom, first]
            rw [read]
            refine List.forall_mem_cons.mpr ⟨?_, ih _ (Nat.lt_succ_self _) bytes rfl⟩
            rw [Piece.replaced, ofNat_of_lt (by omega)]
            exact isSurrogate_eq_false_iff.mpr (.inl (by dsimp only; omega))
          · have read : pieces (b :: bytes) = .broken [b] :: pieces bytes := by
              simp only [pieces, piecesFrom, first]
            rw [read]
            exact List.forall_mem_cons.mpr ⟨rfl, ih _ (Nat.lt_succ_self _) bytes rfl⟩
          · have read : pieces (b :: bytes) = piecesFrom (some p) bytes := by
              simp only [pieces, piecesFrom, first]
            have shorter (front rest : List UInt8) :
                rest.length < (b :: (front ++ rest)).length := by
              rw [List.length_cons, List.length_append]
              omega
            rcases spells.piecesFrom_cases bytes with ⟨c, front, rest, scalar, -, rfl, same⟩ |
              ⟨front, rest, -, rfl, same⟩
            · rw [read, same]
              exact List.forall_mem_cons.mpr ⟨scalar, ih _ (shorter front rest) rest rfl⟩
            · rw [read, same]
              exact List.forall_mem_cons.mpr ⟨rfl, ih _ (shorter front rest) rest rfl⟩

theorem hasSurrogate_eq_false_iff {t : Text} :
    t.hasSurrogate = false ↔ ∀ c ∈ t, c.isSurrogate = false := by
  simp [Text.hasSurrogate]

theorem HasBytes.pieces_eq {t : Text} {bytes : List UInt8} (h : HasBytes t bytes)
    (scalars : ∀ c ∈ t, c.isSurrogate = false) : pieces bytes = t.map .scalar := by
  induction h with
  | nil => rfl
  | @cons c t front bytes point _ ih =>
      obtain ⟨scalar, others⟩ := List.forall_mem_cons.mp scalars
      obtain rfl : scalarBytes c = front :=
        Option.some.inj ((pointBytes?_of_scalar scalar).symm.trans point)
      rw [pieces_scalarBytes_append scalar, ih others, List.map_cons]

theorem display_of_hasSurrogate {t : Text} (h : t.hasSurrogate = false) : display t = .ok t := by
  have scalars := hasSurrogate_eq_false_iff.mp h
  have encodable : t.Encodable := by
    intro c mem surrogate
    rw [scalars c mem] at surrogate
    cases surrogate
  obtain ⟨bytes, has⟩ := Text.encodable_iff.mp encodable
  have same : (t.map Piece.scalar).map Piece.replaced = t := by
    rw [List.map_map]
    exact List.map_id t
  rw [display, toBytes_eq_ok_iff.mpr has]
  exact congrArg Except.ok ((congrArg _ (has.pieces_eq scalars)).trans same)

theorem hasSurrogate_display {t shown : Text} (h : display t = .ok shown) :
    shown.hasSurrogate = false := by
  rw [display] at h
  cases bytes : toBytes t with
  | error e =>
      rw [bytes] at h
      cases h
  | ok bs =>
      rw [bytes] at h
      cases h
      refine hasSurrogate_eq_false_iff.mpr fun c mem => ?_
      obtain ⟨piece, cut, rfl⟩ := List.mem_map.mp mem
      exact isSurrogate_replaced bs piece cut

theorem exists_toBytes_error_iff {t : Text} :
    (∃ e, toBytes t = .error e) ↔ ∃ c ∈ t, c.isSurrogate ∧ ¬ c.isEscapedByte := by
  have encodable : (∃ bytes, toBytes t = .ok bytes) ↔ t.Encodable := by
    simp only [toBytes_eq_ok_iff, Text.encodable_iff]
  have total : (∃ e, toBytes t = .error e) ↔ ¬ ∃ bytes, toBytes t = .ok bytes := by
    cases toBytes t <;> simp
  rw [total, encodable, Text.Encodable]
  simp

/-- The codec of strings is lossless. All bytes are those of the text that they are decoded to. A
text fails to have bytes exactly if some surrogate in it stands for no byte; any other text is
decoded from its bytes exactly if no character is disguised in it, and it has a readable form
without surrogates, which is a readable form already and is the text itself exactly if that has
none. -/
theorem codec_lossless :
    (∀ bytes, toBytes (ofBytes bytes) = .ok bytes) ∧
    ∀ t : Text, ((∃ e, toBytes t = .error e) ↔ ∃ c ∈ t, c.isSurrogate ∧ ¬ c.isEscapedByte) ∧
      ∀ bytes, toBytes t = .ok bytes →
        (ofBytes bytes = t ↔ ∀ part : Text, part <:+: t → ∀ c, ¬ part.Disguises c) ∧
        ∃ shown, display t = .ok shown ∧ shown.hasSurrogate = false ∧ display shown = .ok shown ∧
          (shown = t ↔ t.hasSurrogate = false) := by
  refine ⟨toBytes_ofBytes, fun t => ?_⟩
  refine ⟨exists_toBytes_error_iff, fun bytes has => ⟨Text.ofBytes_eq_iff has, ?_⟩⟩
  have shows : display t = .ok ((pieces bytes).map Piece.replaced) := by
    rw [display, has]
    rfl
  have clean := hasSurrogate_display shows
  refine ⟨_, shows, clean, display_of_hasSurrogate clean, fun same => ?_, fun none => ?_⟩
  · rwa [← same]
  · exact Except.ok.inj (shows.symm.trans (display_of_hasSurrogate none))

/-- A text in which the character `é` is disguised, with a byte behind it that spells nothing. -/
theorem codec_lossless_disguised :
    let t : Text := [0xDCC3, 0xDCA9, 0x61, 0xDCFF]
    let bytes : List UInt8 := [0xC3, 0xA9, 0x61, 0xFF]
    toBytes t = .ok bytes ∧ Text.Disguises (t.take 2) 0xE9 ∧
      (ofBytes bytes = t ↔ ∀ part : Text, part <:+: t → ∀ c, ¬ part.Disguises c) ∧
      ∃ shown, display t = .ok shown ∧ shown.hasSurrogate = false ∧ display shown = .ok shown ∧
        (shown = t ↔ t.hasSurrogate = false) := by
  intro t bytes
  have has : toBytes t = .ok bytes := by decide
  have escaped : (t.take 2).all CodePoint.isEscapedByte := by decide
  have disguised : Text.Disguises (t.take 2) 0xE9 :=
    ⟨by decide, by decide, List.all_eq_true.mp escaped, by decide, by decide⟩
  exact ⟨has, disguised, (codec_lossless.2 t).2 bytes has⟩

end Utf8

end Script
