import Script.Proofs.ByteCodec
import Script.Proofs.Effects

/-!
# Sequences

Strings with bytes and arrays are sequences. The parts of a string are the strings of its single
bytes, and the parts of an array are its elements. Measuring a sequence, taking a part of it and
dropping its first part are the operations of that kind on the list of its parts, however often they
are repeated, and pushing the parts one by one makes a sequence with these parts again.

A string is cut and joined at any byte. An operation on an array that has an array as its result
makes a new one, and changes nothing else.
-/

namespace Script

def byteValue (b : UInt8) : Value :=
  .string (Utf8.ofBytes [b])

namespace Machine

theorem elements_of_found {m : Machine} {a : ArrayId} {elements : Array Value}
    (found : m.arrays[a]? = some elements) : m.elements a = elements := by
  rw [Machine.elements, found]
  rfl

def withArrays (m : Machine) (made : Array (Array Value)) : Machine :=
  { m with arrays := m.arrays ++ made }

theorem withArrays_empty (m : Machine) : m.withArrays #[] = m := by
  rw [withArrays, Array.append_empty]

theorem withArrays_withArrays (m : Machine) (made more : Array (Array Value)) :
    (m.withArrays made).withArrays more = m.withArrays (made ++ more) := by
  simp only [withArrays, Array.append_assoc]

theorem allocate_eq (m : Machine) (elements : Array Value) :
    m.allocate elements = m.withArrays #[elements] := by
  rw [allocate, withArrays, Array.push_eq_append]

theorem found_withArrays {m : Machine} {a : ArrayId} {elements : Array Value}
    (found : m.arrays[a]? = some elements) (made : Array (Array Value)) :
    (m.withArrays made).arrays[a]? = some elements := by
  obtain ⟨lt, -⟩ := Array.getElem?_eq_some_iff.mp found
  exact (Array.getElem?_append_left lt).trans found

/-- A sequence and its parts. -/
inductive Lists (m : Machine) : Value → List Value → Prop
  | string {t : Text} {bytes : List UInt8} : Utf8.toBytes t = .ok bytes →
      m.Lists (.string t) (bytes.map byteValue)
  | array {a : ArrayId} {elements : Array Value} : m.arrays[a]? = some elements →
      m.Lists (.array a) elements.toList

end Machine

namespace Eval

/-- Applies `rest` to a value, then to the result, and so on. -/
def restTimes : Nat → Value → Eval Value
  | 0, v => pure v
  | k + 1, v => do restTimes k (← Builtin.rest.call [v])

/-- Pushes `n` parts of `source`, from the one with index `i` on. -/
def pushParts (source : Value) (position : Position) (i : Nat) : Nat → Value → Eval Value
  | 0, v => pure v
  | n + 1, v => do
    let part ← indexValue source (.integer i) position
    pushParts source position (i + 1) n (← Builtin.push.call [v, part])

theorem bytesOf_of_ok {t : Text} {bytes : List UInt8} (h : Utf8.toBytes t = .ok bytes)
    (m : Machine) : bytesOf t m = .ok bytes m := by
  rw [bytesOf, h]
  rfl

end Eval

/-! ### Strings -/

section Strings
variable {s t : Text} {front back : List UInt8} (m : Machine)

theorem Builtin.rest_string {b : UInt8} (h : Utf8.toBytes t = .ok (b :: back)) :
    Builtin.rest.call [.string t] m = .ok (.string (Utf8.ofBytes back)) m :=
  bind_of_ok (Eval.bytesOf_of_ok h m)

variable (hs : Utf8.toBytes s = .ok front) (ht : Utf8.toBytes t = .ok back)
include hs ht

theorem Builtin.push_string : Builtin.push.call [.string s, .string t] m =
    .ok (.string (Utf8.ofBytes (front ++ back))) m :=
  (bind_of_ok (Eval.bytesOf_of_ok hs m)).trans (bind_of_ok (Eval.bytesOf_of_ok ht m))

theorem BinaryOp.add_string (position : Position) :
    BinaryOp.add.apply (.string s) (.string t) position m =
      .ok (.string (Utf8.ofBytes (front ++ back))) m :=
  (bind_of_ok (Eval.bytesOf_of_ok hs m)).trans (bind_of_ok (Eval.bytesOf_of_ok ht m))

end Strings

/-! ### Arrays -/

section Arrays
variable {m : Machine} {a : ArrayId} {elements : Array Value}
  (found : m.arrays[a]? = some elements)
include found

theorem Builtin.rest_array (other : elements ≠ #[]) : Builtin.rest.call [.array a] m =
    .ok (.array m.arrays.size) (m.allocate (elements.extract 1 elements.size)) := by
  have same := Machine.elements_of_found found
  change Builtin.callRest (.array a) m = _
  rw [Builtin.callRest_array, same, if_neg (by simpa using other)]

theorem Builtin.push_array (v : Value) : Builtin.push.call [.array a, v] m =
    .ok (.array m.arrays.size) (m.allocate (elements.push v)) := by
  rw [← Machine.elements_of_found found]
  rfl

end Arrays

/-! ### Sequences -/

namespace Machine.Lists
variable {m : Machine} {v : Value} {parts : List Value}

theorem len (h : m.Lists v parts) : Builtin.len.call [v] m = .ok (.integer parts.length) m := by
  cases h with
  | string has =>
      rw [List.length_map]
      exact bind_of_ok (Eval.bytesOf_of_ok has m)
  | @array a elements found =>
      rw [Array.length_toList, ← elements_of_found found]
      rfl

theorem index (h : m.Lists v parts) (i : Int) (position : Position) :
    indexValue v (.integer i) position m =
      .ok (if 0 ≤ i then parts[i.toNat]?.getD .nil else .nil) m := by
  cases h with
  | string has =>
      rw [List.getElem?_map]
      exact bind_of_ok (Eval.bytesOf_of_ok has m)
  | @array a elements found =>
      rw [Array.getElem?_toList, ← elements_of_found found]
      rfl

theorem index_of_some (h : m.Lists v parts) {i : Nat} {part : Value}
    (found : parts[i]? = some part) (position : Position) :
    indexValue v (.integer i) position m = .ok part m := by
  rw [h.index, if_pos (Int.natCast_nonneg i), Int.toNat_natCast, found]
  rfl

theorem first (h : m.Lists v parts) :
    Builtin.first.call [v] m = .ok (parts.head?.getD .nil) m := by
  cases h with
  | @string t bytes has =>
      have called : Builtin.first.call [.string t] m =
          .ok (Builtin.ofBytesOrNil bytes (·.take 1)) m := bind_of_ok (Eval.bytesOf_of_ok has m)
      rw [called]
      cases bytes <;> rfl
  | @array a elements found =>
      rw [List.head?_eq_getElem?, Array.getElem?_toList, ← elements_of_found found]
      rfl

theorem last (h : m.Lists v parts) :
    Builtin.last.call [v] m = .ok (parts.getLast?.getD .nil) m := by
  cases h with
  | @string t bytes has =>
      have called : Builtin.last.call [.string t] m =
          .ok (Builtin.ofBytesOrNil bytes fun bytes => bytes.drop (bytes.length - 1)) m :=
        bind_of_ok (Eval.bytesOf_of_ok has m)
      rw [called]
      rcases List.eq_nil_or_concat bytes with rfl | ⟨front, b, rfl⟩
      · rfl
      · simp [Builtin.ofBytesOrNil, byteValue]
  | @array a elements found =>
      rw [Array.getLast?_toList, ← elements_of_found found]
      rfl

theorem rest_nil (h : m.Lists v []) : Builtin.rest.call [v] m = .ok .nil m := by
  generalize none : [] = parts at h
  cases h with
  | @string t bytes has =>
      obtain rfl : bytes = [] := List.map_eq_nil_iff.mp none.symm
      exact bind_of_ok (Eval.bytesOf_of_ok has m)
  | @array a elements found =>
      obtain rfl : elements = #[] := Array.toList_eq_nil_iff.mp none.symm
      have same := elements_of_found found
      change Builtin.callRest (.array a) m = _
      rw [Builtin.callRest_array, same]
      rfl

/-- What is left of a sequence behind its first part is a sequence of the same kind. -/
theorem rest_cons {part : Value} (h : m.Lists v (part :: parts)) :
    ∃ u made, Builtin.rest.call [v] m = .ok u (m.withArrays made) ∧
      (m.withArrays made).Lists u parts ∧ u.kind = v.kind := by
  generalize whole : part :: parts = listed at h
  cases h with
  | @string t bytes has =>
      obtain ⟨b, back, rfl, -, rfl⟩ := List.map_eq_cons_iff.mp whole.symm
      have bytes : Utf8.toBytes (Utf8.ofBytes back) = .ok back := Utf8.toBytes_ofBytes back
      refine ⟨.string (Utf8.ofBytes back), #[], ?_, .string bytes, rfl⟩
      rw [withArrays_empty]
      exact Builtin.rest_string m has
  | @array a elements found =>
      have other : elements ≠ #[] := by
        rintro rfl
        cases whole
      refine ⟨.array m.arrays.size, #[elements.extract 1 elements.size], ?_, ?_, rfl⟩
      · rw [← allocate_eq]
        exact Builtin.rest_array found other
      · have behind : (elements.extract 1 elements.size).toList = parts := by
          have length : elements.size = parts.length + 1 := by
            rw [← Array.length_toList, ← whole, List.length_cons]
          rw [Array.toList_extract, ← whole, length]
          simp
        rw [← behind, ← allocate_eq]
        exact .array Array.getElem?_push_size

theorem restTimes (h : m.Lists v parts) {k : Nat} (le : k ≤ parts.length) :
    ∃ u made, Eval.restTimes k v m = .ok u (m.withArrays made) ∧
      (m.withArrays made).Lists u (parts.drop k) ∧ u.kind = v.kind := by
  induction k generalizing m v parts with
  | zero =>
      refine ⟨v, #[], ?_, ?_, rfl⟩
      · rw [withArrays_empty]
        rfl
      · rwa [withArrays_empty]
  | succ k ih =>
      cases parts with
      | nil => exact absurd le (Nat.not_succ_le_zero k)
      | cons part parts =>
          obtain ⟨u, made, called, lists, kind⟩ := h.rest_cons
          obtain ⟨w, more, times, lists', kind'⟩ := ih lists (Nat.le_of_succ_le_succ le)
          rw [withArrays_withArrays] at times lists'
          exact ⟨w, made ++ more, (bind_of_ok called).trans times, lists', kind'.trans kind⟩

end Machine.Lists

/-! ### Pushing the parts of a sequence -/

/-- Pushing the bytes of a string onto the first ones of them. -/
theorem Eval.pushParts_string {t : Text} {front back : List UInt8}
    (h : Utf8.toBytes t = .ok (front ++ back)) (position : Position) (m : Machine) :
    Eval.pushParts (.string t) position front.length back.length (.string (Utf8.ofBytes front)) m =
      .ok (.string (Utf8.ofBytes (front ++ back))) m := by
  induction back generalizing front with
  | nil =>
      rw [List.append_nil]
      rfl
  | cons b back ih =>
      have lists : m.Lists (.string t) ((front ++ b :: back).map byteValue) := .string h
      have part : indexValue (.string t) (.integer front.length) position m = .ok (byteValue b) m :=
        lists.index_of_some (by simp) position
      have pushed : Builtin.push.call [.string (Utf8.ofBytes front), byteValue b] m =
          .ok (.string (Utf8.ofBytes (front ++ [b]))) m :=
        Builtin.push_string m (Utf8.toBytes_ofBytes front) (Utf8.toBytes_ofBytes [b])
      rw [List.append_cons] at h ⊢
      have further := ih h
      rw [List.length_append, List.length_singleton] at further
      exact (bind_of_ok part).trans ((bind_of_ok pushed).trans further)

/-- Pushing the elements of an array onto a new one that has the first ones of them. The arrays that
are made have the next numbers. -/
theorem Eval.pushParts_array {a e : ArrayId} {elements front : Array Value} {back : List Value}
    {m : Machine} (found : m.arrays[a]? = some elements)
    (split : elements.toList = front.toList ++ back) (started : m.arrays[e]? = some front)
    (new : m.arrays.size = e + 1) (position : Position) :
    ∃ made, Eval.pushParts (.array a) position front.size back.length (.array e) m =
        .ok (.array (e + back.length)) (m.withArrays made) ∧
      (m.withArrays made).arrays[e + back.length]? = some elements := by
  induction back generalizing m e front with
  | nil =>
      obtain rfl : elements = front := Array.toList_inj.mp (by rw [split, List.append_nil])
      refine ⟨#[], ?_, ?_⟩
      · rw [Machine.withArrays_empty]
        rfl
      · rwa [Machine.withArrays_empty]
  | cons v back ih =>
      have lists : m.Lists (.array a) (front.toList ++ v :: back) := split ▸ .array found
      have part : indexValue (.array a) (.integer front.size) position m = .ok v m :=
        lists.index_of_some (by simp) position
      have pushed := Builtin.push_array started v
      rw [Machine.allocate_eq, new] at pushed
      let next := m.withArrays #[front.push v]
      have size : next.arrays.size = e + 1 + 1 := by
        rw [← new]
        exact Array.size_append
      have grown : next.arrays[e + 1]? = some (front.push v) := by
        rw [← new]
        exact Array.getElem?_push_size
      have whole : elements.toList = (front.push v).toList ++ back := by
        rw [split, Array.toList_push, List.append_cons]
      obtain ⟨made, further, done⟩ := ih (Machine.found_withArrays found _) whole grown size
      rw [Array.size_push, Machine.withArrays_withArrays] at further
      rw [Machine.withArrays_withArrays] at done
      have count : e + 1 + back.length = e + (v :: back).length := by
        rw [List.length_cons, Nat.add_assoc, Nat.add_comm 1]
      rw [count] at further done
      exact ⟨_, (bind_of_ok part).trans ((bind_of_ok pushed).trans further), done⟩

/-! ### The laws -/

/-- Operations on a sequence are operations on the list of its parts. -/
structure Machine.ActsAsList (m : Machine) (v : Value) (parts : List Value) : Prop where
  len : Builtin.len.call [v] m = .ok (.integer parts.length) m
  index (i : Int) (position : Position) : indexValue v (.integer i) position m =
    .ok (if 0 ≤ i then parts[i.toNat]?.getD .nil else .nil) m
  first : Builtin.first.call [v] m = .ok (parts.head?.getD .nil) m
  last : Builtin.last.call [v] m = .ok (parts.getLast?.getD .nil) m
  rest : parts = [] → Builtin.rest.call [v] m = .ok .nil m
  restTimes (k : Nat) : k ≤ parts.length → ∃ u made,
    Eval.restTimes k v m = .ok u (m.withArrays made) ∧ u.kind = v.kind ∧
    Builtin.len.call [u] (m.withArrays made) =
      .ok (.integer (parts.length - k : Nat)) (m.withArrays made) ∧
    (k < parts.length → ∀ position, ∃ part, indexValue v (.integer k) position m = .ok part m ∧
      Builtin.first.call [u] (m.withArrays made) = .ok part (m.withArrays made))

theorem Machine.Lists.actsAsList {m : Machine} {v : Value} {parts : List Value}
    (h : m.Lists v parts) : m.ActsAsList v parts where
  len := h.len
  index := h.index
  first := h.first
  last := h.last
  rest := by
    rintro rfl
    exact h.rest_nil
  restTimes k le := by
    obtain ⟨u, made, called, lists, kind⟩ := h.restTimes le
    have length := lists.len
    rw [List.length_drop] at length
    refine ⟨u, made, called, kind, length, fun lt position => ?_⟩
    have part : parts[k]? = some parts[k] := List.getElem?_eq_getElem lt
    have first := lists.first
    rw [List.head?_drop, part] at first
    exact ⟨parts[k], h.index_of_some part position, first⟩

/-- Sequence operations are list operations on bytes and on elements. For a string with bytes the
parts are the strings of its bytes; `rest` has the bytes behind the first, `push` and sums join the
bytes of two strings, and pushing the parts one by one onto the empty string makes the string that
the bytes are decoded to. For an array the parts are its elements; `rest` and `push` make a new
array with the same elements without the first or with one more behind them, and pushing the parts
one by one onto an empty array makes a new array with the same elements. -/
theorem sequences_act_as_lists (m : Machine) (position : Position) :
    (∀ bytes, Utf8.toBytes (Utf8.ofBytes bytes) = .ok bytes) ∧
    (∀ t bytes, Utf8.toBytes t = .ok bytes →
      m.ActsAsList (.string t) (bytes.map byteValue) ∧
      (∀ b back, bytes = b :: back →
        Builtin.rest.call [.string t] m = .ok (.string (Utf8.ofBytes back)) m) ∧
      (∀ u more, Utf8.toBytes u = .ok more →
        let joined := Value.string (Utf8.ofBytes (bytes ++ more))
        Builtin.push.call [.string t, .string u] m = .ok joined m ∧
          BinaryOp.add.apply (.string t) (.string u) position m = .ok joined m) ∧
      let pushed := Value.string (Utf8.ofBytes bytes)
      Eval.pushParts (.string t) position 0 bytes.length (.string []) m = .ok pushed m ∧
        (pushed = .string t ↔ t.Canonical)) ∧
    ∀ a elements, m.arrays[a]? = some elements →
      m.ActsAsList (.array a) elements.toList ∧
      (elements ≠ #[] → Builtin.rest.call [.array a] m =
        .ok (.array m.arrays.size) (m.allocate (elements.extract 1 elements.size))) ∧
      (∀ v, Builtin.push.call [.array a, v] m =
        .ok (.array m.arrays.size) (m.allocate (elements.push v))) ∧
      ∃ made, (Eval.newArray #[] >>= Eval.pushParts (.array a) position 0 elements.size) m =
          .ok (.array (m.arrays.size + elements.size)) (m.withArrays made) ∧
        (m.withArrays made).arrays[m.arrays.size + elements.size]? = some elements := by
  refine ⟨Utf8.toBytes_ofBytes, fun t bytes has => ?_, fun a elements found => ?_⟩
  · refine ⟨Machine.Lists.actsAsList (.string has), ?_, fun u more has' => ?_, ?_, ?_⟩
    · rintro b back rfl
      exact Builtin.rest_string m has
    · exact ⟨Builtin.push_string m has has', BinaryOp.add_string m has has' position⟩
    · have whole : Utf8.toBytes t = .ok ([] ++ bytes) := has
      exact Eval.pushParts_string whole position m
    · rw [Text.Canonical, has, Value.string.injEq]
      exact ⟨congrArg _, Except.ok.inj⟩
  · refine ⟨Machine.Lists.actsAsList (.array found), Builtin.rest_array found,
      Builtin.push_array found, ?_⟩
    have started : (m.allocate #[]).arrays[m.arrays.size]? = some #[] := Array.getElem?_push_size
    have kept : (m.allocate #[]).arrays[a]? = some elements := by
      rw [Machine.allocate_eq]
      exact Machine.found_withArrays found _
    obtain ⟨made, pushed, done⟩ := Eval.pushParts_array kept (List.nil_append _).symm started
      (Array.size_push _) position
    rw [Machine.allocate_eq, Machine.withArrays_withArrays, Array.length_toList] at pushed done
    exact ⟨_, pushed, done⟩

/-- The character `é` is cut between its two bytes, and an array holds nil. -/
theorem sequences_act_as_lists_cut :
    let m := (Machine.initial (.ofText []) (.empty false 3)).allocate #[.nil, .integer 7]
    let cut := [byteValue 0xC3, byteValue 0xA9]
    Utf8.toBytes (text "é") = .ok [0xC3, 0xA9] ∧ m.ActsAsList (.string (text "é")) cut ∧
      m.arrays[0]? = some #[.nil, .integer 7] ∧ m.ActsAsList (.array 0) [.nil, .integer 7] := by
  intro m cut
  obtain ⟨-, strings, arrays⟩ := sequences_act_as_lists m .nowhere
  have has : Utf8.toBytes (text "é") = .ok [0xC3, 0xA9] := by decide
  have found : m.arrays[0]? = some #[.nil, .integer 7] := rfl
  exact ⟨has, (strings _ _ has).1, found, (arrays _ _ found).1⟩

end Script
