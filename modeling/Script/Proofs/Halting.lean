import Script.Proofs.ByteCodec
import Script.Proofs.Traits

/-!
# Why steps halt

A step halts if it needs the bytes of a string that has none, or the readable form of an array that
nests without end. Beyond that only two built-in functions halt a run: `alloc`, if it is asked for
too much, and a reader that meets a fault of the input that cannot be recovered from. The strings
that a step needs the bytes of have every trait that the values of the machine have.
-/

namespace Script

/-! ### Halts over values with a trait -/

/-- The halts for want of the bytes of a string with a trait, or of an end to the nesting of
arrays. -/
inductive Trait.Denies (T : Trait) : Halt → Prop
  | unencodable {t : Text} {e : Utf8.Unencodable} : T.strings t → Utf8.toBytes t = .error e →
      T.Denies (.unencodable e)
  | recursion : T.Denies .recursion

namespace Trait
variable {T : Trait}

theorem denies_displayAtom {m : Machine} {value : Value} {reason : Halt} (has : T.Has value)
    (h : m.displayAtom value = .error reason) : T.Denies reason := by
  cases value with
  | string t =>
      simp only [Machine.displayAtom, Utf8.display] at h
      cases ht : Utf8.toBytes t with
      | error e => rw [ht] at h; cases h; exact .unencodable has ht
      | ok bytes => rw [ht] at h; cases h
  | array a => cases h; exact .recursion
  | _ => cases h

theorem denies_displayWithin {m : Machine} (holds : m.Holds T.Has) {depth : Nat} {value : Value}
    {reason : Halt} (has : T.Has value) (h : m.displayWithin depth value = .error reason) :
    T.Denies reason := by
  induction depth generalizing value reason with
  | zero => exact denies_displayAtom has h
  | succ depth ih =>
      cases value with
      | array a =>
          obtain ⟨element, mem, halted⟩ := Machine.exists_of_displayWithin_array h
          exact ih (holds.elements a element mem) halted
      | _ => exact denies_displayAtom has h

theorem denies_display {m : Machine} (holds : m.Holds T.Has) {value : Value} {reason : Halt}
    (has : T.Has value) (h : m.display value = .error reason) : T.Denies reason :=
  denies_displayWithin holds has h

/-- A step that halts only so as long as the machine has the trait. -/
def Denied {α : Type} (T : Trait) (x : Eval α) : Prop :=
  ∀ m, T.Fits m → ∀ reason m', x m = .error reason m' → T.Denies reason

namespace Denied
variable {α β : Type}

theorem pure (a : α) : T.Denied (pure a) := by
  rintro m - reason m' ⟨⟩

theorem modifyGet (f : Machine → α × Machine) : T.Denied (modifyGet f) := by
  rintro m - reason m' ⟨⟩

theorem get {f : Machine → Eval α} (h : ∀ m, T.Denied (f m)) : T.Denied (get >>= f) :=
  fun m fits => h m m fits

theorem withBytes {t : Text} (has : T.strings t) {f : List UInt8 → Eval α}
    (h : ∀ bytes, T.Denied (f bytes)) : T.Denied (Eval.bytesOf t >>= f) := by
  intro m fits reason m' halted
  cases ht : Utf8.toBytes t with
  | ok bytes =>
      have found : Eval.bytesOf t m = .ok bytes m := by rw [Eval.bytesOf, ht]; rfl
      rw [bind_of_ok found] at halted
      exact h bytes m fits reason m' halted
  | error e =>
      have none : Eval.bytesOf t m = .error (.unencodable e) m := by rw [Eval.bytesOf, ht]; rfl
      rw [bind_of_error none] at halted
      cases halted
      exact .unencodable has ht

theorem traces {values : List Value} {x : Eval Unit} (h : Traces values x)
    (all : ∀ v ∈ values, T.Has v) : T.Denied x := by
  intro m fits reason m' halted
  obtain ⟨-, value, mem, unreadable⟩ := h.exists_of_error halted
  exact denies_display fits.holds (all value mem) unreadable

theorem traced {x : Eval Value} {trace : Value → Eval Unit} {shown : Value → List Value}
    (h : T.Denied x) (consults : Eval.Consults x) (traces : ∀ v, Traces (shown v) (trace v))
    (all : ∀ v, T.Has v → ∀ u ∈ shown v, T.Has u) :
    T.Denied (do let v ← x; trace v; return v) := by
  intro m fits reason m' halted
  obtain ⟨t, ⟨v, found, supplied⟩ | ⟨reason', first⟩⟩ := consults m
  · rw [bind_of_ok found] at halted
    have told := Denied.traces (traces v) (all v (fits.supplied supplied)) _ (fits.retraced t)
    cases line : trace v { m with trace := t } with
    | ok u t' => rw [bind_of_ok line] at halted; cases halted
    | error reason' t' =>
        rw [bind_of_error line] at halted
        cases halted
        exact told _ _ line
  · rw [bind_of_error first] at halted
    cases halted
    exact h m fits _ _ first

theorem indexValue {target index : Value} (has : T.Has target) (position : Position) :
    T.Denied (indexValue target index position) := by
  unfold Script.indexValue
  split
  · exact get fun _ => pure _
  · exact withBytes has fun _ => pure _
  · exact pure _
  · exact pure _

theorem binary (op : BinaryOp) {left right : Value} (hl : T.Has left) (hr : T.Has right)
    (position : Position) : T.Denied (op.apply left right position) := by
  unfold BinaryOp.apply
  split
  · exact pure _
  · exact pure _
  · split <;> exact pure _
  · exact withBytes hl fun _ => withBytes hr fun _ => pure _
  · exact pure _

theorem tracedUnary (op : UnaryOp) {operand : Value} (has : T.Has operand)
    (position : Position) : T.Denied (tracedUnary op operand position) := by
  refine traced (pure _) (.pure (op.computed_apply operand position)) (.unary op operand)
    fun v hv => ?_
  exact List.forall_mem_cons.mpr ⟨has, List.forall_mem_singleton.mpr hv⟩

theorem tracedBinary (op : BinaryOp) {left right : Value} (hl : T.Has left) (hr : T.Has right)
    (position : Position) : T.Denied (tracedBinary op left right position) := by
  refine traced (binary op hl hr position) (.binary op left right position)
    (.binary op left right) fun v hv => ?_
  exact List.forall_mem_cons.mpr ⟨hl, List.forall_mem_cons.mpr ⟨hr,
    List.forall_mem_singleton.mpr hv⟩⟩

theorem resolve (env : Env) (name : Name) (position : Position) :
    T.Denied (resolve env name position) := by
  intro m _ reason m' halted
  obtain ⟨v, found, -⟩ := Eval.supplies_resolve env name position m
  rw [found] at halted
  cases halted

theorem printEach (ending : Text) {values : List Value} (all : ∀ v ∈ values, T.Has v) :
    T.Denied (Builtin.printEach ending values) := by
  induction values with
  | nil => exact pure _
  | cons value values ih =>
      obtain ⟨has, others⟩ := List.forall_mem_cons.mp all
      intro m fits reason m' halted
      rw [Builtin.printEach, Eval.display_bind] at halted
      cases shown : m.display value with
      | error reason' =>
          rw [shown] at halted
          cases halted
          exact denies_display fits.holds has shown
      | ok form =>
          rw [shown] at halted
          let printed : Machine := { m with output := m.output ++ (form ++ ending) }
          have fits' : T.Fits printed := fits.left (List.suffix_refl _) _ m.trace
          exact ih others printed fits' reason m' halted

end Denied

end Trait

/-! ### Built-in functions -/

namespace Builtin

/-- Why a call of a built-in function halts a machine whose values have a trait. -/
inductive Stops (T : Trait) (m : Machine) : Builtin → List Value → Halt → Prop
  | denied {b : Builtin} {arguments : List Value} {reason : Halt} : T.Denies reason →
      Stops T m b arguments reason
  | tooMany {n : Int} (fill : Value) : 2 ^ 60 ≤ n → Stops T m .alloc [.integer n, fill] .memory
  | broken {b : Builtin} {message : Text} : b.isReader → m.input.fault = some ⟨false, message⟩ →
      Stops T m b [] (.brokenInput message)

variable {T : Trait}

theorem denied_callLen {value : Value} (has : T.Has value) : T.Denied (callLen value) := by
  cases value with
  | string t => exact .withBytes has fun _ => .pure _
  | array a => exact .get fun _ => .pure _
  | _ => exact .pure _

theorem denied_callFirst {value : Value} (has : T.Has value) : T.Denied (callFirst value) := by
  cases value with
  | string t => exact .withBytes has fun _ => .pure _
  | array a => exact .get fun _ => .pure _
  | _ => exact .pure _

theorem denied_callLast {value : Value} (has : T.Has value) : T.Denied (callLast value) := by
  cases value with
  | string t => exact .withBytes has fun _ => .pure _
  | array a => exact .get fun _ => .pure _
  | _ => exact .pure _

theorem denied_callRest {value : Value} (has : T.Has value) : T.Denied (callRest value) := by
  cases value with
  | string t => exact .withBytes has fun _ => .pure _
  | array a =>
      refine .get fun m => ?_
      dsimp only
      split
      · exact .pure _
      · exact .modifyGet _
  | _ => exact .pure _

theorem denied_callPush {container value : Value} (hc : T.Has container) (hv : T.Has value) :
    T.Denied (callPush container value) := by
  cases container with
  | string s =>
      cases value with
      | string t => exact .withBytes hc fun _ => .withBytes hv fun _ => .pure _
      | _ => exact .pure _
  | array a => exact .get fun _ => .modifyGet _
  | _ => exact .pure _

theorem denied_callSet (array index value : Value) : T.Denied (callSet array index value) := by
  cases array with
  | array a =>
      cases index with
      | integer i =>
          refine .get fun m => ?_
          dsimp only
          split
          · rintro m - reason m' ⟨⟩
          · exact .pure _
      | _ => exact .pure _
  | _ => exact .pure _

section Calls
variable {m : Machine}

/-- A result of a call that is no halt but for one of these reasons. -/
def StopsOnly (T : Trait) (m : Machine) (b : Builtin) (arguments : List Value)
    (result : EStateM.Result Halt Machine Value) : Prop :=
  ∀ reason m', result = .error reason m' → Stops T m b arguments reason

theorem stops_callAlloc (count fill : Value) :
    StopsOnly T m .alloc [count, fill] (callAlloc count fill m) := by
  intro reason m' halted
  cases count with
  | integer n =>
      simp only [callAlloc] at halted
      split at halted
      · cases halted
      · split at halted
        · rename_i large
          cases halted
          refine .tooMany fill ?_
          unfold tooLarge at large
          omega
        · cases halted
  | _ => cases halted

/-- A reader halts for the fault that it has met, which is that of the input. -/
theorem stops_takeInput {b : Builtin} (reader : b.isReader) {read : Input → Reading}
    (met : (read m.input).fault = none ∨ (read m.input).fault = m.input.fault) :
    StopsOnly T m b [] (takeInput b read m) := by
  intro reason m' halted
  have got : (get : Eval Machine) m = .ok m m := rfl
  have changed (f : Machine → Machine) : (modify f : Eval Unit) m = .ok () (f m) := rfl
  unfold takeInput at halted
  rw [bind_of_ok got] at halted
  dsimp only at halted
  rw [bind_of_ok (changed _)] at halted
  cases fault : (read m.input).fault with
  | none =>
      rw [fault] at halted
      cases halted
  | some f =>
      rw [fault] at halted met
      obtain ⟨recoverable, message⟩ := f
      cases recoverable with
      | true => cases halted
      | false =>
          cases halted
          exact .broken reader (met.resolve_left nofun).symm

theorem stops_perform (fits : T.Fits m) {b : Builtin} {arguments : List Value}
    (all : ∀ v ∈ arguments, T.Has v) : StopsOnly T m b arguments (b.perform arguments m) := by
  have denied {b : Builtin} {arguments : List Value} {x : Eval Value} (h : T.Denied x) :
      StopsOnly T m b arguments (x m) :=
    fun reason m' halted => .denied (h m fits reason m' halted)
  unfold perform
  split
  · exact denied (denied_callLen (all _ (by simp)))
  · exact denied (denied_callFirst (all _ (by simp)))
  · exact denied (denied_callLast (all _ (by simp)))
  · exact denied (denied_callRest (all _ (by simp)))
  · exact denied (denied_callPush (all _ (by simp)) (all _ (by simp)))
  · exact stops_callAlloc _ _
  · exact denied (denied_callSet _ _ _)
  · exact denied (.printEach _ all)
  · exact denied (.printEach _ all)
  · exact stops_takeInput rfl m.input.fault_readLine
  · exact stops_takeInput rfl m.input.fault_readWord
  · exact stops_takeInput rfl m.input.fault_readChar
  · exact stops_takeInput rfl (.inr rfl)
  · exact denied (.pure _)

theorem stops_call (fits : T.Fits m) {b : Builtin} {arguments : List Value}
    (all : ∀ v ∈ arguments, T.Has v) : StopsOnly T m b arguments (b.call arguments m) := by
  unfold call
  cases b.arity? with
  | none => exact stops_perform fits all
  | some expected =>
      dsimp only
      split
      · exact stops_perform fits all
      · nofun

end Calls

end Builtin

end Script
