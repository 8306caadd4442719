import Script.Proofs.CanonicalText
import Script.Proofs.Traits

/-!
# Strings stay canonical

Operators and built-in functions join and cut strings at any byte, and readers take pieces of the
input. What bytes are decoded to is canonical, and so are the pieces of a canonical text. So if the
constants of a program and its input are canonical, then all strings of its run are, and equality
agrees with equality of bytes.
-/

namespace Script

def Trait.canonical : Trait where
  integers _ := True
  strings := Text.Canonical
  wrap _ := trivial
  decoded := Text.canonical_ofBytes
  piece part whole := whole.of_infix part

theorem Trait.canonical_fits_initial {input : Input} (stdin : input.rest.Canonical)
    (trace : Trace) : Trait.canonical.Fits (.initial input trace) where
  holds := .initial _ input trace
  input := stdin
  functions f mem := absurd mem (Array.not_mem_empty f)
  sizes _ := trivial

theorem Trait.canonical_measures (log : List Moment) : Trait.canonical.Measures log where
  strings _ _ _ _ _ _ := trivial
  arrays _ _ _ := trivial

/-- Equality of canonical strings is equality of their bytes. -/
theorem BinaryOp.equal_apply_canonical {s t : Text} (hs : s.Canonical) (ht : t.Canonical) :
    ∃ front back, Utf8.toBytes s = .ok front ∧ Utf8.toBytes t = .ok back ∧
      ∀ position m, BinaryOp.equal.apply (.string s) (.string t) position m =
        .ok (.boolean (front = back)) m := by
  obtain ⟨front, hasFront, -⟩ := Text.canonical_iff.mp hs
  obtain ⟨back, hasBack, -⟩ := Text.canonical_iff.mp ht
  have front_eq := Utf8.toBytes_eq_ok_iff.mpr hasFront
  have back_eq := Utf8.toBytes_eq_ok_iff.mpr hasBack
  refine ⟨front, back, front_eq, back_eq, fun position m => ?_⟩
  have same : Value.string s = .string t ↔ front = back := by
    rw [Value.string.injEq, hs.eq_iff ht, front_eq, back_eq, Except.ok.injEq]
  change EStateM.Result.ok (Value.boolean (decide (Value.string s = .string t))) m = _
  rw [decide_eq_decide.mpr same]

namespace Program

/-- If the strings in a program and the input are canonical, then so are all strings of the run, and
any two of them are equal for the program exactly if their bytes are. -/
theorem strings_canonical (budget : Budget) (program : Program) (input : Input) (trace : Trace)
    (constants : ∀ t, .string t ∈ bodyLiterals program → t.Canonical)
    (stdin : input.rest.Canonical) :
    let values := program.values budget (.initial input trace)
    (∀ t, .string t ∈ values → t.Canonical) ∧
      ∀ s t, .string s ∈ values → .string t ∈ values →
        ∃ front back, Utf8.toBytes s = .ok front ∧ Utf8.toBytes t = .ok back ∧
          ∀ position m, BinaryOp.equal.apply (.string s) (.string t) position m =
            .ok (.boolean (front = back)) m := by
  have fits := Trait.canonical_fits_initial stdin trace
  have literal : ∀ l ∈ bodyLiterals program, Trait.canonical.Has l.value := by
    intro l mem
    cases l with
    | string t => exact constants t mem
    | _ => trivial
  have all : ∀ t, .string t ∈ program.values budget (.initial input trace) → t.Canonical :=
    fun t mem => Trait.has_of_mem_values fits literal (Trait.canonical_measures _) _ mem
  exact ⟨all, fun s t hs ht => BinaryOp.equal_apply_canonical (all s hs) (all t ht)⟩

/-- In the run of `var a = [first("é") + rest("é"), readc()];` on the input `é`, a character is cut
between its two bytes and joined again. -/
theorem strings_canonical_cut :
    let program : Program := [.stmt (.declare (text "a") (.array [
      .binary .add
        (.call (text "first") [.literal (.string (text "é"))] ⟨1, 10⟩)
        (.call (text "rest") [.literal (.string (text "é"))] ⟨1, 23⟩) ⟨1, 10⟩,
      .call (text "readc") [] ⟨1, 34⟩]))]
    let values := program.values ⟨0, 0⟩ (.initial (.ofText (text "é")) (.empty false 3))
    .string [0xDCC3] ∈ values ∧ .string (text "é") ∈ values ∧
      (∀ t, .string t ∈ values → t.Canonical) ∧
      ∀ s t, .string s ∈ values → .string t ∈ values →
        ∃ front back, Utf8.toBytes s = .ok front ∧ Utf8.toBytes t = .ok back ∧
          ∀ position m, BinaryOp.equal.apply (.string s) (.string t) position m =
            .ok (.boolean (front = back)) m := by
  refine ⟨by decide +kernel, by decide +kernel, ?_⟩
  refine strings_canonical _ _ _ _ (fun t mem => ?_) (by decide)
  have spelled : Literal.string t ∈ [Literal.string (text "é"), .string (text "é")] := mem
  have same : t = text "é" := by simpa using spelled
  rw [same]
  decide

end Program

end Script
