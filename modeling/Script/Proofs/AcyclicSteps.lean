import Script.Proofs.ArrayGraph
import Script.Proofs.TraceIndependence

/-!
# Steps and the graph of arrays

A machine is sound if its arrays exist and form no cycle. Every primitive step but a call of `set`
keeps a machine sound, makes no arrays disappear, and has a value that exists afterwards. A call of
`set` either changes one element and has no value, or it fails and changes nothing.
-/

namespace Script

structure Machine.Sound (m : Machine) : Prop extends m.Closed where
  acyclic : m.Acyclic

theorem Machine.Sound.of_arrays_eq {m m' : Machine} (sound : m.Sound)
    (arrays : m'.arrays = m.arrays)
    (bindings : ∀ id, ∀ binding ∈ m'.scopes.bindings id,
      binding ∈ m.scopes.bindings id ∨ binding.2.Within m.arrays.size) : m'.Sound := by
  have elements : m'.elements = m.elements := by
    funext a
    simp only [Machine.elements, arrays]
  have points : m'.Points = m.Points := by
    funext a b
    simp only [Machine.Points, elements]
  constructor
  · constructor
    · rw [elements, arrays]
      exact sound.elements
    · intro id binding h
      rw [arrays]
      rcases bindings id binding h with old | within
      · exact sound.bindings id binding old
      · exact within
  · rw [Machine.Acyclic, points]
    exact sound.acyclic

theorem Machine.Sound.retraced {m : Machine} (sound : m.Sound) (t : Trace) :
    ({ m with trace := t } : Machine).Sound :=
  sound.of_arrays_eq rfl fun _ _ h => .inl h

/-- In a sound machine, every value that exists has a readable form unless it holds a string that
has no bytes. -/
theorem Machine.Sound.unencodable_of_display {m : Machine} (sound : m.Sound) {v : Value}
    {reason : Halt} (within : v.Within m.arrays.size) (h : m.display v = .error reason) :
    ∃ e, reason = .unencodable e := by
  have unreadable := isUnreadable_display h
  cases reason with
  | unencodable e => exact ⟨e, rfl⟩
  | recursion => exact absurd h (sound.toClosed.display_ne_recursion sound.acyclic within)
  | _ => exact unreadable.elim

theorem Machine.Sound.initial (input : Input) (trace : Trace) :
    (Machine.initial input trace).Sound := by
  have none (a : ArrayId) (v : Value) : v ∉ (Machine.initial input trace).elements a := by
    simp [Machine.initial, Machine.elements]
  constructor
  · constructor
    · intro a v h
      exact absurd h (none a v)
    · intro id binding h
      cases id <;> simp [Machine.initial, Scopes.bindings] at h
  · intro a cycle
    obtain ⟨b, -, h⟩ := Relation.TransGen.tail'_iff.mp cycle
    exact none b _ h

theorem Value.Within.of_kind {n : Nat} {v : Value} (h : v.kind ≠ .array) : v.Within n := by
  rintro a rfl
  exact absurd rfl h

namespace Eval
variable {α β : Type} {n : Nat}

/-- A computation that starts with `n` arrays in a sound machine and, if it comes to its end, leaves
a sound machine with no fewer arrays, of which `Q` holds together with the result. -/
def Keeps (n : Nat) (x : Eval α) (Q : Nat → α → Prop) : Prop :=
  ∀ m a m', m.Sound → m.arrays.size = n → x m = .ok a m' →
    m'.Sound ∧ n ≤ m'.arrays.size ∧ Q m'.arrays.size a

namespace Keeps
variable {Q : Nat → α → Prop} {Q' : Nat → β → Prop}

theorem pure {a : α} (h : Q n a) : Keeps n (pure a) Q := by
  rintro m _ _ sound rfl ⟨⟩
  exact ⟨sound, Nat.le_refl _, h⟩

theorem halt (reason : Halt) : Keeps n (throw reason) Q := by
  intro m a m' _ _ h
  cases h

theorem bind {x : Eval α} {f : α → Eval β} (hx : Keeps n x Q)
    (hf : ∀ n' a, n ≤ n' → Q n' a → Keeps n' (f a) Q') : Keeps n (x >>= f) Q' := by
  intro m b m'' sound size h
  cases hm : x m with
  | error reason m' =>
      rw [bind_of_error hm] at h
      cases h
  | ok a m' =>
      rw [bind_of_ok hm] at h
      obtain ⟨sound', le, ha⟩ := hx m a m' sound size hm
      obtain ⟨sound'', le', hb⟩ := hf _ a le ha m' b m'' sound' rfl h
      exact ⟨sound'', Nat.le_trans le le', hb⟩

theorem get {f : Machine → Eval α} (h : ∀ m, m.Sound → m.arrays.size = n → Keeps n (f m) Q) :
    Keeps n (get >>= f) Q :=
  fun m a m' sound size hm => h m sound size m a m' sound size hm

theorem modifyGet {f : Machine → α × Machine} (arrays : ∀ m, (f m).2.arrays = m.arrays)
    (bindings : ∀ m id, ∀ binding ∈ (f m).2.scopes.bindings id,
      binding ∈ m.scopes.bindings id ∨ binding.2.Within n) (result : ∀ m, Q n (f m).1) :
    Keeps n (modifyGet f) Q := by
  rintro m _ _ sound rfl ⟨⟩
  have sound' := sound.of_arrays_eq (arrays m) (bindings m)
  have size : (f m).2.arrays.size = m.arrays.size := by rw [arrays]
  refine ⟨sound', Nat.le_of_eq size.symm, ?_⟩
  rw [size]
  exact result m

theorem modify {f : Machine → Machine} (arrays : ∀ m, (f m).arrays = m.arrays)
    (scopes : ∀ m, (f m).scopes = m.scopes) : Keeps n (modify f) fun _ _ => True :=
  modifyGet arrays (fun m _ _ h => .inl (by rwa [scopes] at h)) fun _ => trivial

theorem ofExcept (r : Except Halt α) : Keeps n (Eval.ofExcept r) fun _ _ => True := by
  cases r with
  | ok a => exact pure trivial
  | error reason => exact halt reason

theorem traces {values : List Value} {x : Eval Unit} (h : Traces values x) :
    Keeps n x fun _ _ => True := by
  intro m a m' sound size hm
  obtain ⟨t, ht⟩ | ⟨reason, ht, -⟩ := h.result m
  · rw [ht] at hm
    cases hm
    exact ⟨sound.retraced t, Nat.le_of_eq size.symm, trivial⟩
  · rw [ht] at hm
    cases hm

theorem newArray {elements : Array Value} (within : ∀ v ∈ elements, v.Within n) :
    Keeps n (Eval.newArray elements) fun n => Value.Within n := by
  rintro m _ _ sound rfl ⟨⟩
  have acyclic := sound.toClosed.acyclic_allocate sound.acyclic within
  have size : (m.allocate elements).arrays.size = m.arrays.size + 1 := Array.size_push _
  have le : m.arrays.size ≤ (m.allocate elements).arrays.size := by omega
  refine ⟨⟨sound.toClosed.allocate within, acyclic⟩, le, ?_⟩
  rintro a ⟨⟩
  change m.arrays.size < (m.allocate elements).arrays.size
  omega

theorem bytesOf (t : Text) : Keeps n (Eval.bytesOf t) fun _ _ => True := ofExcept _

theorem display (value : Value) : Keeps n (Eval.display value) fun _ _ => True :=
  get fun _ _ _ => ofExcept _

end Keeps

end Eval

namespace Builtin
open Eval
variable {n : Nat}

theorem within_getD {elements : Array Value} (h : ∀ v ∈ elements, v.Within n) (v? : Option Value)
    (mem : ∀ v, v? = some v → v ∈ elements) : (v?.getD .nil).Within n := by
  cases v? with
  | none => exact .of_kind nofun
  | some v => exact h v (mem v rfl)

theorem keeps_callLen (value : Value) : Keeps n (callLen value) fun n => Value.Within n := by
  cases value with
  | string t => exact .bind (.bytesOf t) fun _ _ _ _ => .pure (.of_kind nofun)
  | array id => exact .get fun _ _ _ => .pure (.of_kind nofun)
  | _ => exact .pure (.of_kind nofun)

theorem within_ofBytesOrNil (bytes : List UInt8) (part : List UInt8 → List UInt8) :
    (ofBytesOrNil bytes part).Within n := by
  unfold ofBytesOrNil
  split <;> exact .of_kind nofun

theorem keeps_callFirst (value : Value) : Keeps n (callFirst value) fun n => Value.Within n := by
  cases value with
  | string t => exact .bind (.bytesOf t) fun _ _ _ _ => .pure (within_ofBytesOrNil _ _)
  | array id =>
      refine .get fun m sound size => .pure ?_
      have within := within_getD (sound.elements id) (m.elements id)[0]? fun v h =>
        Array.mem_of_getElem? h
      exact size ▸ within
  | _ => exact .pure (.of_kind nofun)

theorem keeps_callLast (value : Value) : Keeps n (callLast value) fun n => Value.Within n := by
  cases value with
  | string t => exact .bind (.bytesOf t) fun _ _ _ _ => .pure (within_ofBytesOrNil _ _)
  | array id =>
      refine .get fun m sound size => .pure ?_
      have within := within_getD (sound.elements id) (m.elements id).back? fun v h =>
        Array.mem_of_back? h
      exact size ▸ within
  | _ => exact .pure (.of_kind nofun)

theorem keeps_callRest (value : Value) : Keeps n (callRest value) fun n => Value.Within n := by
  cases value with
  | string t => exact .bind (.bytesOf t) fun _ _ _ _ => .pure (within_ofBytesOrNil _ _)
  | array id =>
      refine .get fun m sound size => ?_
      dsimp only
      split
      · exact .pure (.of_kind nofun)
      · refine .newArray fun v h => ?_
        have mem : v ∈ m.elements id := by
          obtain ⟨i, -, -, rfl⟩ := Array.mem_extract_iff_getElem.mp h
          exact Array.getElem_mem _
        exact size ▸ sound.elements id v mem
  | _ => exact .pure (.of_kind nofun)

theorem keeps_callPush {container value : Value} (within : value.Within n) :
    Keeps n (callPush container value) fun n => Value.Within n := by
  cases container with
  | string s =>
      cases value with
      | string t =>
          exact .bind (.bytesOf s) fun _ _ _ _ => .bind (.bytesOf t) fun _ _ _ _ =>
            .pure (.of_kind nofun)
      | _ => exact .pure (.of_kind nofun)
  | array id =>
      refine .get fun m sound size => .newArray fun v h => ?_
      rcases Array.mem_push.mp h with h | rfl
      · exact size ▸ sound.elements id v h
      · exact within
  | _ => exact .pure (.of_kind nofun)

theorem keeps_callAlloc {count fill : Value} (within : fill.Within n) :
    Keeps n (callAlloc count fill) fun n => Value.Within n := by
  cases count with
  | integer k =>
      dsimp only [callAlloc]
      split
      · exact .pure (.of_kind nofun)
      · split
        · exact .halt _
        · refine .newArray fun v h => ?_
          rw [Array.eq_of_mem_replicate h]
          exact within
  | _ => exact .pure (.of_kind nofun)

theorem keeps_printEach (ending : Text) (values : List Value) :
    Keeps n (printEach ending values) fun n => Value.Within n := by
  induction values generalizing n with
  | nil => exact .pure (.of_kind nofun)
  | cons value values ih =>
      refine .bind (.display value) fun _ shown _ _ => ?_
      exact .bind (.modify (fun _ => rfl) fun _ => rfl) fun _ _ _ _ => ih

theorem keeps_takeInput (b : Builtin) (read : Input → Reading) :
    Keeps n (b.takeInput read) fun n => Value.Within n := by
  refine .get fun m _ _ => .bind (.modify (fun _ => rfl) fun _ => rfl) fun _ _ _ _ => ?_
  dsimp only
  split
  · exact .pure (.of_kind nofun)
  · split
    · exact .bind (.traces (.line _)) fun _ _ _ _ => .pure (.of_kind nofun)
    · exact .bind (.halt (Q := fun _ _ => False) _) fun _ _ _ h => h.elim

/-- A built-in function other than `set` makes no cycles. -/
theorem keeps_call {b : Builtin} (other : b ≠ .set) {arguments : List Value}
    (within : ∀ v ∈ arguments, v.Within n) :
    Keeps n (b.call arguments) fun n => Value.Within n := by
  have performed : Keeps n (b.perform arguments) fun n => Value.Within n := by
    unfold perform
    split
    · exact keeps_callLen _
    · exact keeps_callFirst _
    · exact keeps_callLast _
    · exact keeps_callRest _
    · exact keeps_callPush (within _ (by simp))
    · exact keeps_callAlloc (within _ (by simp))
    · exact absurd rfl other
    · exact keeps_printEach _ _
    · exact keeps_printEach _ _
    · exact keeps_takeInput _ _
    · exact keeps_takeInput _ _
    · exact keeps_takeInput _ _
    · exact keeps_takeInput _ _
    · exact .pure (.of_kind nofun)
  unfold call
  split
  · exact performed
  · split
    · exact performed
    · exact .pure (.of_kind nofun)

theorem callSet_cases (array index value : Value) (m : Machine) :
    (∃ a i, array = .array a ∧ index = .integer i ∧ i.toNat < (m.elements a).size ∧
      callSet array index value m = .ok .nil (m.store a i.toNat value)) ∨
    ∃ failure, callSet array index value m = .ok (.error failure) m := by
  cases array with
  | array a =>
      cases index with
      | integer i =>
          have called : callSet (.array a) (.integer i) value m =
              if 0 ≤ i ∧ i < (m.elements a).size then .ok .nil (m.store a i.toNat value)
              else .ok (.unplacedError (.outOfRange i (m.elements a).size)) m := by
            simp only [callSet]
            change (if _ then _ else _ : Eval Value) m = _
            split <;> rfl
          rw [called]
          split
          · exact .inl ⟨a, i, rfl, rfl, by omega, rfl⟩
          · exact .inr ⟨_, rfl⟩
      | _ => exact .inr ⟨_, rfl⟩
  | _ => exact .inr ⟨_, rfl⟩

/-- A call of `set` puts a value into a place of an array that has this place, or it fails. -/
theorem call_set_cases (arguments : List Value) (m : Machine) :
    (∃ a i v, arguments = [.array a, .integer i, v] ∧ i.toNat < (m.elements a).size ∧
      Builtin.set.call arguments m = .ok .nil (m.store a i.toNat v)) ∨
    ∃ failure, Builtin.set.call arguments m = .ok (.error failure) m := by
  rcases arguments with _ | ⟨x, _ | ⟨y, _ | ⟨v, _ | _⟩⟩⟩
  · exact .inr ⟨_, rfl⟩
  · exact .inr ⟨_, rfl⟩
  · exact .inr ⟨_, rfl⟩
  · rcases callSet_cases x y v m with ⟨a, i, rfl, rfl, bound, called⟩ | ⟨failure, called⟩
    · exact .inl ⟨a, i, v, rfl, bound, called⟩
    · exact .inr ⟨failure, called⟩
  · exact .inr ⟨_, rfl⟩

end Builtin

namespace Eval.Keeps
variable {n : Nat}

theorem resolve (env : Env) (name : Name) (position : Position) :
    Keeps n (resolve env name position) fun n => Value.Within n := by
  refine .get fun m sound size => ?_
  split
  · rename_i value found
    obtain ⟨id, mem⟩ := Scopes.mem_bindings_of_lookup? found
    exact .pure (size ▸ sound.bindings id _ mem)
  · split <;> exact .pure (.of_kind nofun)

theorem indexValue (target index : Value) (position : Position) :
    Keeps n (indexValue target index position) fun n => Value.Within n := by
  unfold Script.indexValue
  split
  · rename_i id i
    refine .get fun m sound size => .pure ?_
    split
    · exact size ▸ Builtin.within_getD (sound.elements id) _ fun v h => Array.mem_of_getElem? h
    · exact .of_kind nofun
  · rename_i t i
    refine .bind (.bytesOf t) fun _ bytes _ _ => .pure ?_
    split
    · cases bytes[i.toNat]? <;> exact .of_kind nofun
    · exact .of_kind nofun
  · exact .pure (.of_kind nofun)
  · exact .pure (.of_kind nofun)

theorem unary (op : UnaryOp) (operand : Value) (position : Position) :
    (op.apply operand position).Within n := by
  cases op <;> cases operand <;> exact .of_kind nofun

theorem onIntegers {op : BinaryOp} {a b : Int} {value : Value}
    (h : op.onIntegers a b = .ok value) : value.Within n := by
  cases op with
  | div | mod =>
      simp only [BinaryOp.onIntegers] at h
      split at h <;> cases h
      exact .of_kind nofun
  | _ =>
      cases h
      exact .of_kind nofun

theorem binary (op : BinaryOp) (left right : Value) (position : Position) :
    Keeps n (op.apply left right position) fun n => Value.Within n := by
  unfold BinaryOp.apply
  split
  · exact .pure (.of_kind nofun)
  · exact .pure (.of_kind nofun)
  · split
    · rename_i value h
      exact .pure (onIntegers h)
    · exact .pure (.of_kind nofun)
  · exact .bind (.bytesOf _) fun _ _ _ _ => .bind (.bytesOf _) fun _ _ _ _ => .pure (.of_kind nofun)
  · exact .pure (.of_kind nofun)

theorem newScope {bindings : Bindings} (name : Name) (env : Env)
    (within : ∀ binding ∈ bindings, binding.2.Within n) :
    Keeps n (Eval.newScope name bindings env) fun _ _ => True :=
  modifyGet (fun _ => rfl) (fun _ _ _ h => (Scopes.mem_bindings_make h).imp_right (within _))
    fun _ => trivial

theorem define {value : Value} (env : Env) (name : Name) (within : value.Within n) :
    Keeps n (Eval.define env name value) fun _ _ => True := by
  cases env with
  | nil => exact pure trivial
  | cons id env =>
      refine modifyGet (fun _ => rfl) (fun _ _ binding h => ?_) fun _ => trivial
      rcases Scopes.mem_bindings_define h with rfl | h
      · exact .inr within
      · exact .inl h

theorem assign {value : Value} (env : Env) (name : Name) (within : value.Within n) :
    Keeps n (Eval.assign env name value) fun _ _ => True := by
  refine modifyGet (fun m => ?_) (fun m id binding h => ?_) fun _ => trivial
  · split <;> rfl
  · split at h
    · rcases Scopes.mem_bindings_define h with rfl | h
      · exact .inr within
      · exact .inl h
    · exact .inl h

theorem newFunction (name : Name) (parameters : List Name) (body : List Decl) (env : Env) :
    Keeps n (Eval.newFunction name parameters body env) fun n => Value.Within n :=
  modifyGet (fun _ => rfl) (fun _ _ _ h => .inl h) fun _ => .of_kind nofun

theorem closure (id : FunctionId) : Keeps n (Eval.closure? id) fun _ _ => True :=
  get fun _ _ _ => pure trivial

end Eval.Keeps

end Script
