import Script.Proofs.ArrayGraph
import Script.Proofs.Upkeep

/-!
# What machines hold

A machine holds the values that names are bound to and the elements of arrays. If all of them have
a property, and the arguments of a step have it too, then all values of the machine have it after
the step, even if the step halts: steps put nothing into scopes and arrays but their arguments and
what scopes and arrays have held before. No step halts for want of a function to return from; this
is left to the run of a whole program.
-/

namespace Script

structure Machine.Holds (V : Value → Prop) (m : Machine) : Prop where
  bindings (id : ScopeId) : ∀ binding ∈ m.scopes.bindings id, V binding.2
  elements (a : ArrayId) : ∀ v ∈ m.elements a, V v

namespace Machine.Holds
variable {V : Value → Prop} {m : Machine}

theorem imp (holds : m.Holds V) {V' : Value → Prop} (weaker : ∀ v, V v → V' v) : m.Holds V' where
  bindings id binding mem := weaker _ (holds.bindings id binding mem)
  elements a v mem := weaker v (holds.elements a v mem)

theorem initial (V : Value → Prop) (input : Input) (trace : Trace) :
    (Machine.initial input trace).Holds V := by
  constructor
  · intro id binding h
    cases id <;> simp [Machine.initial, Scopes.bindings] at h
  · intro a v h
    simp [Machine.initial, Machine.elements] at h

theorem of_eq (holds : m.Holds V) {m' : Machine} (scopes : m'.scopes = m.scopes)
    (arrays : m'.arrays = m.arrays) : m'.Holds V := by
  constructor
  · rw [scopes]
    exact holds.bindings
  · unfold Machine.elements
    rw [arrays]
    exact holds.elements

theorem allocate (holds : m.Holds V) {elements : Array Value} (all : ∀ v ∈ elements, V v) :
    (m.allocate elements).Holds V := by
  refine ⟨holds.bindings, fun a v h => ?_⟩
  rw [Machine.elements_allocate] at h
  split at h
  · exact all v h
  · exact holds.elements a v h

theorem store (holds : m.Holds V) (a : ArrayId) (i : Nat) {v : Value} (hv : V v) :
    (m.store a i v).Holds V := by
  refine ⟨holds.bindings, fun b w h => ?_⟩
  rcases Machine.mem_elements_store h with old | ⟨-, rfl⟩
  · exact holds.elements b w old
  · exact hv

theorem define (holds : m.Holds V) (id : ScopeId) (name : Name) {v : Value} (hv : V v) :
    ({ m with scopes := m.scopes.define id name v } : Machine).Holds V := by
  refine ⟨fun id' binding h => ?_, holds.elements⟩
  rcases Scopes.mem_bindings_define h with rfl | old
  · exact hv
  · exact holds.bindings id' binding old

theorem make (holds : m.Holds V) (name : Name) {bindings : Bindings}
    (all : ∀ binding ∈ bindings, V binding.2) :
    ({ m with scopes := (m.scopes.make name bindings).2 } : Machine).Holds V := by
  refine ⟨fun id binding h => ?_, holds.elements⟩
  rcases Scopes.mem_bindings_make h with old | new
  · exact holds.bindings id binding old
  · exact all binding new

end Machine.Holds

/-- A result whose machine holds only values with a property, and which is no stray return. -/
def Eval.Leaves {α : Type} (V : Value → Prop) : EStateM.Result Halt Machine α → Prop
  | .ok _ m => m.Holds V
  | .error reason m => m.Holds V ∧ reason ≠ .strayReturn

/-- A computation that goes on holding only values with a property. -/
def Eval.Preserves {α : Type} (V : Value → Prop) (x : Eval α) : Prop :=
  ∀ m, m.Holds V → Eval.Leaves V (x m)

namespace Eval.Preserves
variable {α β : Type} {V : Value → Prop}

theorem pure (a : α) : Preserves V (Pure.pure a) := fun _ holds => holds

theorem halt {reason : Halt} (other : reason ≠ .strayReturn) :
    Preserves V (throw reason : Eval α) :=
  fun _ holds => ⟨holds, other⟩

theorem bind {x : Eval α} {f : α → Eval β} (hx : Preserves V x) (hf : ∀ a, Preserves V (f a)) :
    Preserves V (x >>= f) := by
  intro m holds
  have left := hx m holds
  cases hm : x m with
  | ok a m' =>
      rw [hm] at left
      rw [bind_of_ok hm]
      exact hf a m' left
  | error reason m' =>
      rw [hm] at left
      rw [bind_of_error hm]
      exact left

theorem get {f : Machine → Eval α} (h : ∀ m, m.Holds V → Preserves V (f m)) :
    Preserves V (get >>= f) :=
  fun m holds => h m holds m holds

theorem modifyGet {f : Machine → α × Machine} (h : ∀ m, m.Holds V → (f m).2.Holds V) :
    Preserves V (modifyGet f) :=
  fun m holds => h m holds

theorem modify {f : Machine → Machine} (scopes : ∀ m, (f m).scopes = m.scopes)
    (arrays : ∀ m, (f m).arrays = m.arrays) : Preserves V (modify f) :=
  modifyGet fun m holds => holds.of_eq (scopes m) (arrays m)

theorem ofExcept {r : Except Halt α} (h : ∀ reason, r = .error reason → reason ≠ .strayReturn) :
    Preserves V (Eval.ofExcept r) := by
  cases r with
  | ok a => exact pure a
  | error reason => exact halt (h reason rfl)

theorem bytesOf (t : Text) : Preserves V (Eval.bytesOf t) := by
  refine ofExcept fun reason h => ?_
  cases ht : Utf8.toBytes t with
  | ok bytes => rw [ht] at h; cases h
  | error e => rw [ht] at h; cases h; nofun

theorem display (value : Value) : Preserves V (Eval.display value) := by
  refine get fun m _ => ofExcept fun reason h => ?_
  rintro rfl
  exact Machine.isUnreadable_display h

theorem newArray {elements : Array Value} (all : ∀ v ∈ elements, V v) :
    Preserves V (Eval.newArray elements) :=
  modifyGet fun _ holds => holds.allocate all

theorem traces {values : List Value} {x : Eval Unit} (h : Traces values x) : Preserves V x := by
  intro m holds
  obtain ⟨t, ht⟩ | ⟨reason, ht, unreadable⟩ := h.result m
  · rw [ht]
    exact holds.of_eq rfl rfl
  · rw [ht]
    refine ⟨holds, ?_⟩
    rintro rfl
    exact unreadable

theorem resolve (env : Env) (name : Name) (position : Position) :
    Preserves V (Script.resolve env name position) := by
  refine get fun m _ => ?_
  split
  · exact pure _
  · split <;> exact pure _

theorem newScope {bindings : Bindings} (name : Name) (env : Env)
    (all : ∀ binding ∈ bindings, V binding.2) :
    Preserves V (Eval.newScope name bindings env) :=
  modifyGet fun _ holds => holds.make name all

theorem define {value : Value} (env : Env) (name : Name) (hv : V value) :
    Preserves V (Eval.define env name value) := by
  cases env with
  | nil => exact pure _
  | cons id env => exact modifyGet fun _ holds => holds.define id name hv

theorem assign {value : Value} (env : Env) (name : Name) (hv : V value) :
    Preserves V (Eval.assign env name value) := by
  refine modifyGet fun m holds => ?_
  split
  · exact holds.define _ name hv
  · exact holds

theorem newFunction (name : Name) (parameters : List Name) (body : List Decl) (env : Env) :
    Preserves V (Eval.newFunction name parameters body env) :=
  modifyGet fun _ holds => holds.of_eq rfl rfl

theorem closure (id : FunctionId) : Preserves V (Eval.closure? id) :=
  get fun _ _ => pure _

theorem indexValue (target index : Value) (position : Position) :
    Preserves V (Script.indexValue target index position) := by
  unfold Script.indexValue
  split
  · exact get fun _ _ => pure _
  · exact bind (bytesOf _) fun _ => pure _
  · exact pure _
  · exact pure _

theorem binary (op : BinaryOp) (left right : Value) (position : Position) :
    Preserves V (op.apply left right position) := by
  unfold BinaryOp.apply
  split
  · exact pure _
  · exact pure _
  · split <;> exact pure _
  · exact bind (bytesOf _) fun _ => bind (bytesOf _) fun _ => pure _
  · exact pure _

theorem tracedUnary (op : UnaryOp) (operand : Value) (position : Position) :
    Preserves V (Script.tracedUnary op operand position) :=
  bind (traces (.unary _ _ _)) fun _ => pure _

theorem tracedBinary (op : BinaryOp) (left right : Value) (position : Position) :
    Preserves V (Script.tracedBinary op left right position) :=
  bind (binary op left right position) fun _ => bind (traces (.binary _ _ _ _)) fun _ => pure _

end Eval.Preserves

namespace Builtin
open Eval
variable {V : Value → Prop}

theorem preserves_callLen (value : Value) : Preserves V (callLen value) := by
  cases value with
  | string t => exact .bind (.bytesOf t) fun _ => .pure _
  | array id => exact .get fun _ _ => .pure _
  | _ => exact .pure _

theorem preserves_callFirst (value : Value) : Preserves V (callFirst value) := by
  cases value with
  | string t => exact .bind (.bytesOf t) fun _ => .pure _
  | array id => exact .get fun _ _ => .pure _
  | _ => exact .pure _

theorem preserves_callLast (value : Value) : Preserves V (callLast value) := by
  cases value with
  | string t => exact .bind (.bytesOf t) fun _ => .pure _
  | array id => exact .get fun _ _ => .pure _
  | _ => exact .pure _

theorem preserves_callRest (value : Value) : Preserves V (callRest value) := by
  cases value with
  | string t => exact .bind (.bytesOf t) fun _ => .pure _
  | array id =>
      refine .get fun m holds => ?_
      dsimp only
      split
      · exact .pure _
      · refine .newArray fun v h => ?_
        obtain ⟨i, -, -, rfl⟩ := Array.mem_extract_iff_getElem.mp h
        exact holds.elements id _ (Array.getElem_mem _)
  | _ => exact .pure _

theorem preserves_callPush (container : Value) {value : Value} (hv : V value) :
    Preserves V (callPush container value) := by
  cases container with
  | string s =>
      cases value with
      | string t => exact .bind (.bytesOf s) fun _ => .bind (.bytesOf t) fun _ => .pure _
      | _ => exact .pure _
  | array id =>
      refine .get fun m holds => .newArray fun v h => ?_
      rcases Array.mem_push.mp h with old | rfl
      · exact holds.elements id v old
      · exact hv
  | _ => exact .pure _

theorem preserves_callAlloc (count : Value) {fill : Value} (hv : V fill) :
    Preserves V (callAlloc count fill) := by
  cases count with
  | integer k =>
      dsimp only [callAlloc]
      split
      · exact .pure _
      · split
        · exact .halt nofun
        · refine .newArray fun v h => ?_
          rw [Array.eq_of_mem_replicate h]
          exact hv
  | _ => exact .pure _

theorem preserves_callSet (array index : Value) {value : Value} (hv : V value) :
    Preserves V (callSet array index value) := by
  cases array with
  | array a =>
      cases index with
      | integer i =>
          refine .get fun m _ => ?_
          dsimp only
          split
          · exact .bind (.modifyGet fun _ holds => holds.store a i.toNat hv) fun _ => .pure _
          · exact .pure _
      | _ => exact .pure _
  | _ => exact .pure _

theorem preserves_printEach (ending : Text) (values : List Value) :
    Preserves V (printEach ending values) := by
  induction values with
  | nil => exact .pure _
  | cons value values ih =>
      refine .bind (.display value) fun shown => ?_
      exact .bind (.modify (fun _ => rfl) fun _ => rfl) fun _ => ih

theorem preserves_takeInput (b : Builtin) (read : Input → Reading) :
    Preserves V (b.takeInput read) := by
  refine .get fun m _ => .bind (.modify (fun _ => rfl) fun _ => rfl) fun _ => ?_
  dsimp only
  split
  · exact .pure _
  · split
    · exact .bind (.traces (.line _)) fun _ => .pure _
    · exact .bind (.halt nofun) fun _ => .pure _

/-- Of the arguments of a built-in function, only those with the property get into arrays. -/
theorem preserves_call (b : Builtin) {arguments : List Value} (all : ∀ v ∈ arguments, V v) :
    Preserves V (b.call arguments) := by
  have performed : Preserves V (b.perform arguments) := by
    unfold perform
    split
    · exact preserves_callLen _
    · exact preserves_callFirst _
    · exact preserves_callLast _
    · exact preserves_callRest _
    · exact preserves_callPush _ (all _ (by simp))
    · exact preserves_callAlloc _ (all _ (by simp))
    · exact preserves_callSet _ _ (all _ (by simp))
    · exact preserves_printEach _ _
    · exact preserves_printEach _ _
    · exact preserves_takeInput _ _
    · exact preserves_takeInput _ _
    · exact preserves_takeInput _ _
    · exact preserves_takeInput _ _
    · exact .pure _
  unfold call
  split
  · exact performed
  · split
    · exact performed
    · exact .pure _

end Builtin

end Script
