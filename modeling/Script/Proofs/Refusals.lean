import Script.Proofs.Effects

/-!
# Refused calls of built-in functions

A built-in function refuses a call for one of a few reasons: the number of arguments, which comes
first whatever the arguments are, the kind of an argument, or an index outside the bounds of an
array. A refused call has a failure as its value and leaves the machine as it was. No other call has
a failure as its value, unless `first` or `last` finds one in an array.
-/

namespace Script.Builtin

/-- The calls that are refused, each with the cause. -/
inductive Refuses (m : Machine) : Builtin → List Value → Cause → Prop
  | arity {b : Builtin} {n : Nat} {arguments : List Value} : b.arity? = some n →
      arguments.length ≠ n → Refuses m b arguments (.builtinArity n arguments.length)
  | sequence {b : Builtin} {v : Value} : b ∈ [.len, .first, .last, .rest] → v.kind ≠ .string →
      v.kind ≠ .array → Refuses m b [v] (.unsupportedArgument b v.kind)
  | container {container : Value} (v : Value) : container.kind ≠ .string →
      container.kind ≠ .array →
      Refuses m .push [container, v] (.unsupportedArgument .push container.kind)
  | pushed (t : Text) {v : Value} : v.kind ≠ .string →
      Refuses m .push [.string t, v] (.notPushable v.kind)
  | count {count : Value} (fill : Value) : count.kind ≠ .integer →
      Refuses m .alloc [count, fill] (.unsupportedArgument .alloc count.kind)
  | target {target : Value} (index v : Value) : target.kind ≠ .array →
      Refuses m .set [target, index, v] (.unsupportedArgument .set target.kind)
  | index (a : ArrayId) {index : Value} (v : Value) : index.kind ≠ .integer →
      Refuses m .set [.array a, index, v] (.unsupportedIndexArgument .set index.kind)
  | bounds {a : ArrayId} {i : Int} (v : Value) : ¬(0 ≤ i ∧ i < (m.elements a).size) →
      Refuses m .set [.array a, .integer i, v] (.outOfRange i (m.elements a).size)

section
variable {m : Machine} {b : Builtin} {arguments : List Value}

theorem call_of_length {n : Nat} (arity : b.arity? = some n) (fits : arguments.length = n) :
    b.call arguments = b.perform arguments := by
  rw [call, arity]
  exact if_pos fits

/-- The number of arguments is checked before anything else. -/
theorem call_of_length_ne {n : Nat} (arity : b.arity? = some n) (differs : arguments.length ≠ n) :
    b.call arguments m = .ok (.unplacedError (.builtinArity n arguments.length)) m := by
  rw [call, arity]
  exact congrFun (if_neg differs) m

/-- A refused call fails for its cause, and nothing has been done. -/
theorem Refuses.call_eq {cause : Cause} (h : b.Refuses m arguments cause) :
    b.call arguments m = .ok (.unplacedError cause) m := by
  cases h with
  | arity arity differs => exact call_of_length_ne arity differs
  | @sequence _ v mem text list =>
      have refused : ∀ b ∈ [Builtin.len, .first, .last, .rest],
          b.call [v] m = .ok (.unplacedError (.unsupportedArgument b v.kind)) m := by
        cases v with
        | string _ => exact absurd rfl text
        | array _ => exact absurd rfl list
        | _ => simp only [List.forall_mem_cons]; exact ⟨rfl, rfl, rfl, rfl, List.forall_mem_nil _⟩
      exact refused b mem
  | @container container v text list =>
      cases container with
      | string _ => exact absurd rfl text
      | array _ => exact absurd rfl list
      | _ => rfl
  | @pushed t v text =>
      cases v with
      | string _ => exact absurd rfl text
      | _ => rfl
  | @count count fill number =>
      cases count with
      | integer _ => exact absurd rfl number
      | _ => rfl
  | @target target index v list =>
      cases target with
      | array _ => exact absurd rfl list
      | _ => rfl
  | @index a index v number =>
      cases index with
      | integer _ => exact absurd rfl number
      | _ => rfl
  | bounds v outside => exact congrFun (if_neg outside) m

/-! ### Only refused calls fail -/

/-- A result of a call that is a failure only if the call is refused. -/
def FailsIfRefused (m : Machine) (b : Builtin) (arguments : List Value)
    (result : EStateM.Result Halt Machine Value) : Prop :=
  ∀ failure m', result = .ok (.error failure) m' → ∃ cause, b.Refuses m arguments cause

namespace FailsIfRefused

theorem refused {cause : Cause} (h : b.Refuses m arguments cause)
    (result : EStateM.Result Halt Machine Value) : FailsIfRefused m b arguments result :=
  fun _ _ _ => ⟨cause, h⟩

theorem settled {v : Value} (h : v.kind ≠ .error) (m' : Machine) :
    FailsIfRefused m b arguments (.ok v m') := by
  rintro failure _ ⟨⟩
  exact absurd rfl h

theorem halted (reason : Halt) (m' : Machine) :
    FailsIfRefused m b arguments (.error reason m') := by
  rintro failure _ ⟨⟩

theorem withBytes (t : Text) {f : List UInt8 → Eval Value}
    (h : ∀ bytes, FailsIfRefused m b arguments (f bytes m)) :
    FailsIfRefused m b arguments ((Eval.bytesOf t >>= f) m) := by
  rcases Eval.bytesOf_cases t m with ⟨bytes, -, found⟩ | ⟨reason, stopped⟩
  · rw [bind_of_ok found]
    exact h bytes
  · rw [bind_of_error stopped]
    exact halted reason m

theorem newArray (elements : Array Value) :
    FailsIfRefused m b arguments (Eval.newArray elements m) := by
  change FailsIfRefused m b arguments (.ok (.array m.arrays.size) (m.allocate elements))
  exact settled (by simp) _

theorem pick {value? : Option Value} (h : ∀ v, value? = some v → v.kind ≠ .error) (m' : Machine) :
    FailsIfRefused m b arguments (.ok (value?.getD .nil) m') := by
  cases value? with
  | none => exact settled (by simp) m'
  | some v => exact settled (h v rfl) m'

/-- For the functions on sequences it is enough to look at strings and arrays. -/
theorem sequence (mem : b ∈ [.len, .first, .last, .rest]) {f : Value → Eval Value} {v : Value}
    (string : ∀ t, v = .string t → FailsIfRefused m b [v] (f v m))
    (array : ∀ a, v = .array a → FailsIfRefused m b [v] (f v m)) :
    FailsIfRefused m b [v] (f v m) := by
  by_cases text : v.kind = .string
  · obtain ⟨t, rfl⟩ := Value.exists_of_kind_string text
    exact string t rfl
  · by_cases list : v.kind = .array
    · obtain ⟨a, rfl⟩ := Value.exists_of_kind_array list
      exact array a rfl
    · exact refused (.sequence mem text list) _

end FailsIfRefused

/-- No array that is an argument has a failure among its elements. -/
def NoFailuresIn (m : Machine) (arguments : List Value) : Prop :=
  ∀ a, .array a ∈ arguments → ∀ v ∈ m.elements a, v.kind ≠ .error

theorem failsIfRefused_callLen (v : Value) : FailsIfRefused m .len [v] (callLen v m) := by
  apply FailsIfRefused.sequence (by simp)
  · rintro t rfl
    exact .withBytes t fun bytes => .settled (by simp) m
  · rintro a rfl
    exact .settled (by simp) m

theorem failsIfRefused_callFirst {v : Value} (clean : NoFailuresIn m [v]) :
    FailsIfRefused m .first [v] (callFirst v m) := by
  apply FailsIfRefused.sequence (by simp)
  · rintro t rfl
    exact .withBytes t fun bytes => .settled (kind_ofBytesOrNil bytes _) m
  · rintro a rfl
    have elements := clean a (List.mem_singleton_self _)
    exact .pick (fun v found => elements v (Array.mem_of_getElem? found)) m

theorem failsIfRefused_callLast {v : Value} (clean : NoFailuresIn m [v]) :
    FailsIfRefused m .last [v] (callLast v m) := by
  apply FailsIfRefused.sequence (by simp)
  · rintro t rfl
    exact .withBytes t fun bytes => .settled (kind_ofBytesOrNil bytes _) m
  · rintro a rfl
    have elements := clean a (List.mem_singleton_self _)
    exact .pick (fun v found => elements v (Array.mem_of_back? found)) m

theorem failsIfRefused_callRest (v : Value) : FailsIfRefused m .rest [v] (callRest v m) := by
  apply FailsIfRefused.sequence (by simp)
  · rintro t rfl
    exact .withBytes t fun bytes => .settled (kind_ofBytesOrNil bytes _) m
  · rintro a rfl
    rw [callRest_array]
    split
    · exact .settled (by simp) m
    · exact .settled (by simp) _

theorem failsIfRefused_callPush (container v : Value) :
    FailsIfRefused m .push [container, v] (callPush container v m) := by
  by_cases text : container.kind = .string
  · obtain ⟨s, rfl⟩ := Value.exists_of_kind_string text
    by_cases text' : v.kind = .string
    · obtain ⟨t, rfl⟩ := Value.exists_of_kind_string text'
      exact .withBytes s fun _ => .withBytes t fun _ => .settled (by simp) m
    · exact .refused (.pushed s text') _
  · by_cases list : container.kind = .array
    · obtain ⟨a, rfl⟩ := Value.exists_of_kind_array list
      exact .newArray _
    · exact .refused (.container v text list) _

theorem failsIfRefused_callAlloc (count fill : Value) :
    FailsIfRefused m .alloc [count, fill] (callAlloc count fill m) := by
  by_cases number : count.kind = .integer
  · obtain ⟨n, rfl⟩ := Value.exists_of_kind_integer number
    rw [callAlloc]
    split
    · exact .settled (by simp) m
    · split
      · exact .halted .memory m
      · exact .newArray _
  · exact .refused (.count fill number) _

theorem failsIfRefused_callSet (target index v : Value) :
    FailsIfRefused m .set [target, index, v] (callSet target index v m) := by
  by_cases list : target.kind = .array
  · obtain ⟨a, rfl⟩ := Value.exists_of_kind_array list
    by_cases number : index.kind = .integer
    · obtain ⟨i, rfl⟩ := Value.exists_of_kind_integer number
      by_cases within : 0 ≤ i ∧ i < (m.elements a).size
      · have stored : callSet (.array a) (.integer i) v m = .ok .nil (m.store a i.toNat v) :=
          congrFun (if_pos within) m
        rw [stored]
        exact .settled (by simp) _
      · exact .refused (.bounds v within) _
    · exact .refused (.index a v number) _
  · exact .refused (.target index v list) _

theorem failsIfRefused_printEach (ending : Text) (values : List Value) :
    FailsIfRefused m b arguments (printEach ending values m) := by
  obtain ⟨output, done | ⟨reason, stopped⟩⟩ := printEach_cases m ending values
  · rw [done]
    exact .settled (by simp) _
  · rw [stopped]
    exact .halted reason _

theorem failsIfRefused_takeInput (read : Input → Reading) :
    FailsIfRefused m b arguments (takeInput b read m) := by
  obtain ⟨-, called⟩ | ⟨_, _, -, -, called⟩ | ⟨_, -, -, called⟩ := takeInput_cases m b read
  · rw [called]
    exact .settled (by simp) _
  · rw [called]
    exact .settled (by simp) _
  · rw [called]
    exact .halted _ _

theorem failsIfRefused_perform (clean : NoFailuresIn m arguments) :
    FailsIfRefused m b arguments (b.perform arguments m) := by
  unfold perform
  split
  · exact failsIfRefused_callLen _
  · exact failsIfRefused_callFirst clean
  · exact failsIfRefused_callLast clean
  · exact failsIfRefused_callRest _
  · exact failsIfRefused_callPush _ _
  · exact failsIfRefused_callAlloc _ _
  · exact failsIfRefused_callSet _ _ _
  · exact failsIfRefused_printEach _ _
  · exact failsIfRefused_printEach _ _
  · exact failsIfRefused_takeInput _
  · exact failsIfRefused_takeInput _
  · exact failsIfRefused_takeInput _
  · exact failsIfRefused_takeInput _
  · exact .settled (by simp) m

theorem failsIfRefused_call (clean : NoFailuresIn m arguments) :
    FailsIfRefused m b arguments (b.call arguments m) := by
  cases arity : b.arity? with
  | none =>
      rw [call, arity]
      exact failsIfRefused_perform clean
  | some n =>
      by_cases fits : arguments.length = n
      · rw [call_of_length arity fits]
        exact failsIfRefused_perform clean
      · exact .refused (.arity arity fits) _

end

/-- Built-in functions find out what is wrong with a call before they do anything. A wrong number of
arguments is reported first, whatever the arguments are. A call that is refused fails for its cause,
and if no array among the arguments has a failure as an element, no other call fails. A failure
stands nowhere in the source, and the machine is then as it was before the call. -/
theorem refused_before_acting (m : Machine) (b : Builtin) (arguments : List Value) :
    (∀ n, b.arity? = some n → arguments.length ≠ n →
      b.call arguments m = .ok (.unplacedError (.builtinArity n arguments.length)) m) ∧
    (∀ cause, b.Refuses m arguments cause →
      b.call arguments m = .ok (.unplacedError cause) m) ∧
    (NoFailuresIn m arguments → ∀ v m', b.call arguments m = .ok v m' →
      ((∃ failure, v = .error failure) ↔ ∃ cause, b.Refuses m arguments cause) ∧
      ∀ failure, v = .error failure → m' = m ∧ failure.position = .nowhere ∧
        b.Refuses m arguments failure.cause) := by
  refine ⟨fun n arity differs => call_of_length_ne arity differs, fun _ refused => refused.call_eq,
    fun clean v m' called => ?_⟩
  have failed {failure : Failure} (same : v = .error failure) :
      m' = m ∧ failure.position = .nowhere ∧ b.Refuses m arguments failure.cause := by
    rw [same] at called
    obtain ⟨cause, refused⟩ := failsIfRefused_call clean failure m' called
    rw [refused.call_eq] at called
    obtain ⟨rfl, rfl⟩ : Failure.unplaced cause = failure ∧ m = m' := by
      simpa [Value.unplacedError] using called
    exact ⟨rfl, rfl, refused⟩
  refine ⟨⟨?_, ?_⟩, fun failure same => failed same⟩
  · rintro ⟨failure, same⟩
    exact ⟨failure.cause, (failed same).2.2⟩
  · rintro ⟨cause, refused⟩
    rw [refused.call_eq] at called
    cases called
    exact ⟨_, rfl⟩

/-- An index outside of an array is refused, and the array is left as it was. -/
theorem refused_before_acting_outside :
    let m := (Machine.initial (.ofText []) (.empty false 3)).allocate #[.integer 7]
    let arguments := [Value.array 0, .integer 1, .nil]
    NoFailuresIn m arguments ∧ set.Refuses m arguments (.outOfRange 1 1) ∧
      set.call arguments m = .ok (.unplacedError (.outOfRange 1 1)) m := by
  intro m arguments
  obtain ⟨-, fails, only⟩ := refused_before_acting m set arguments
  have clean : NoFailuresIn m arguments := by
    intro a mem
    obtain rfl : a = 0 := by simpa [arguments] using mem
    decide
  have refused : set.Refuses m arguments (.outOfRange 1 1) :=
    ((only clean _ m rfl).2 _ rfl).2.2
  exact ⟨clean, refused, fails _ refused⟩

end Script.Builtin
