import Script.Proofs.Effects
import Script.Proofs.Maintenance

/-!
# Traits of values

A trait is a property of integers together with one of texts that everything computed has: all
integers that have been brought into range, all texts that bytes have been decoded to, and all
pieces of texts with the trait. Only the values of `len` are integers that are computed without
being brought into range. So if the lengths that are measured in a run have a trait, and the
constants of the program and the input have it, then all values of the run have it.
-/

namespace Script

structure Trait where
  integers : Int → Prop
  strings : Text → Prop
  wrap (n : Int) : integers (Integer64.wrap n)
  decoded (bytes : List UInt8) : strings (Utf8.ofBytes bytes)
  piece {s t : Text} : s <:+: t → strings t → strings s

/-- Logs only get longer. -/
def Course.log : Course (List Moment) where
  moves _ log log' := log <+: log'
  refl _ log := List.prefix_refl log
  trans := List.IsPrefix.trans
  widen le := le

namespace Trait
variable (T : Trait)

def Has : Value → Prop
  | .integer n => T.integers n
  | .string t => T.strings t
  | .boolean _ | .nil | .array _ | .error _ | .builtin _ | .function _ => True

/-- All lengths that can be measured in a run have the trait. -/
structure Measures (log : List Moment) : Prop where
  strings : ∀ moment ∈ log, ∀ t bytes, .string t ∈ moment.values →
    Utf8.toBytes t = .ok bytes → T.integers bytes.length
  arrays : ∀ m, .stepped m ∈ log → ∀ a, T.integers (m.elements a).size

/-- A machine that holds and reads only what has the trait, and whose functions contain no other
constants. -/
structure Pervades (m : Machine) : Prop where
  holds : m.Holds T.Has
  input : T.strings m.input.rest
  functions : ∀ f ∈ m.functions, ∀ l ∈ bodyLiterals f.body, T.Has l.value

/-- A machine of which also the lengths have the trait. -/
structure Fits (m : Machine) : Prop extends T.Pervades m where
  sizes : ∀ a, T.integers (m.elements a).size

variable {T}

theorem has_of_computed {v : Value} (h : v.Computed) : T.Has v := by
  cases h with
  | integer n => exact T.wrap n
  | string bytes => exact T.decoded bytes
  | _ => trivial

theorem Measures.of_prefix {log log' : List Moment} (h : T.Measures log') (le : log <+: log') :
    T.Measures log where
  strings moment mem := h.strings moment (le.mem mem)
  arrays m mem := h.arrays m (le.mem mem)

namespace Pervades
variable {m : Machine}

theorem supplied (h : T.Pervades m) {v : Value} (supplied : m.Supplies v) : T.Has v := by
  cases supplied with
  | computed computed => exact has_of_computed computed
  | bound mem => exact h.holds.bindings _ _ mem
  | element mem => exact h.holds.elements _ v mem

/-- The trace and the output do not count, and the input may get shorter. -/
theorem left (h : T.Pervades m) {input : Input} (le : input.rest <:+ m.input.rest)
    (output : Array CodePoint) (trace : Trace) :
    T.Pervades { m with input := input, output := output, trace := trace } where
  holds := h.holds.of_eq rfl rfl
  input := T.piece le.isInfix h.input
  functions := h.functions

theorem allocate (h : T.Pervades m) {elements : Array Value} (all : ∀ v ∈ elements, T.Has v) :
    T.Pervades (m.allocate elements) where
  holds := h.holds.allocate all
  input := h.input
  functions := h.functions

theorem store (h : T.Pervades m) (a : ArrayId) (i : Nat) {v : Value} (hv : T.Has v) :
    T.Pervades (m.store a i v) where
  holds := h.holds.store a i hv
  input := h.input
  functions := h.functions

theorem scopes (h : T.Pervades m) {scopes : Scopes}
    (holds : ({ m with scopes := scopes } : Machine).Holds T.Has) :
    T.Pervades { m with scopes := scopes } where
  holds := holds
  input := h.input
  functions := h.functions

end Pervades

theorem Fits.left {m : Machine} (h : T.Fits m) {input : Input} (le : input.rest <:+ m.input.rest)
    (output : Array CodePoint) (trace : Trace) :
    T.Fits { m with input := input, output := output, trace := trace } where
  toPervades := h.toPervades.left le output trace
  sizes := h.sizes

theorem Fits.retraced {m : Machine} (h : T.Fits m) (trace : Trace) :
    T.Fits { m with trace := trace } :=
  h.left (List.suffix_refl _) m.output trace

/-! ### Steps -/

/-- A step that spreads a trait to the machine and to a result of which `Q` holds. It makes no array
if it halts. -/
def Spreads {α : Type} (T : Trait) (x : Eval α) (Q : α → Prop) : Prop :=
  ∀ m, T.Fits m → match x m with
    | .ok a m' => T.Pervades m' ∧ Q a
    | .error _ m' => T.Fits m'

namespace Spreads

theorem modifyGet {α : Type} {Q : α → Prop} {f : Machine → α × Machine}
    (h : ∀ m, T.Fits m → T.Pervades (f m).2 ∧ Q (f m).1) : T.Spreads (modifyGet f) Q :=
  fun m fits => And.intro (h m fits).1 (h m fits).2

theorem consults {x : Eval Value} (h : Eval.Consults x) : T.Spreads x T.Has := by
  intro m fits
  obtain ⟨t, ⟨v, found, supplied⟩ | ⟨reason, halted⟩⟩ := h m
  · rw [found]
    exact ⟨(fits.retraced t).toPervades, fits.supplied supplied⟩
  · rw [halted]
    exact fits.retraced t

theorem traces {values : List Value} {x : Eval Unit} (h : Traces values x) :
    T.Spreads x fun _ => True := by
  intro m fits
  rcases h.result m with ⟨t, done⟩ | ⟨reason, halted, -⟩
  · rw [done]
    exact ⟨(fits.retraced t).toPervades, trivial⟩
  · rw [halted]
    exact fits

theorem newArray {elements : Array Value} (all : ∀ v ∈ elements, T.Has v) :
    T.Spreads (Eval.newArray elements) T.Has :=
  modifyGet fun _ fits => ⟨fits.toPervades.allocate all, trivial⟩

theorem newScope {bindings : Bindings} (name : Name) (env : Env)
    (all : ∀ binding ∈ bindings, T.Has binding.2) :
    T.Spreads (Eval.newScope name bindings env) fun _ => True :=
  modifyGet fun _ fits => ⟨fits.toPervades.scopes (fits.holds.make name all), trivial⟩

theorem define {value : Value} (env : Env) (name : Name) (hv : T.Has value) :
    T.Spreads (Eval.define env name value) fun _ => True := by
  cases env with
  | nil => exact fun m fits => ⟨fits.toPervades, trivial⟩
  | cons id env =>
      exact modifyGet fun _ fits =>
        ⟨fits.toPervades.scopes (fits.holds.define id name hv), trivial⟩

theorem assign {value : Value} (env : Env) (name : Name) (hv : T.Has value) :
    T.Spreads (Eval.assign env name value) fun _ => True := by
  refine modifyGet fun m fits => ?_
  split
  · exact ⟨fits.toPervades.scopes (fits.holds.define _ name hv), trivial⟩
  · exact ⟨fits.toPervades, trivial⟩

theorem newFunction {body : List Decl} (name : Name) (parameters : List Name) (env : Env)
    (constants : ∀ l ∈ bodyLiterals body, T.Has l.value) :
    T.Spreads (Eval.newFunction name parameters body env) T.Has := by
  refine modifyGet fun m fits => ⟨⟨fits.holds.of_eq rfl rfl, fits.input, fun f mem => ?_⟩, trivial⟩
  rcases Array.mem_push.mp mem with old | rfl
  · exact fits.functions f old
  · exact constants

theorem closure (id : FunctionId) : T.Spreads (Eval.closure? id) fun f? =>
    ∀ f, f? = some f → ∀ l ∈ bodyLiterals f.body, T.Has l.value := by
  intro m fits
  exact ⟨fits.toPervades, fun f found => fits.functions f (Array.mem_of_getElem? found)⟩

theorem makes {m : Machine} (fits : T.Fits m) {b : Builtin} {arguments : List Value}
    {elements : Array Value} (all : ∀ v ∈ arguments, T.Has v)
    (made : Builtin.Makes m b arguments elements) : ∀ v ∈ elements, T.Has v := by
  intro v mem
  rcases made.mem_or mem with argument | ⟨a, old⟩
  · exact all v argument
  · exact fits.holds.elements a v old

/-- What `len` measures has to have the trait. -/
theorem builtin {b : Builtin} {arguments : List Value} (all : ∀ v ∈ arguments, T.Has v)
    (lengths : ∀ t bytes, .string t ∈ arguments → Utf8.toBytes t = .ok bytes →
      T.integers bytes.length) : T.Spreads (b.call arguments) T.Has := by
  intro m fits
  have done := Builtin.does_call m b arguments
  generalize b.call arguments m = result at done
  cases done with
  | refuses cause => exact ⟨fits.toPervades, trivial⟩
  | computes _ _ computed => exact ⟨fits.toPervades, has_of_computed computed⟩
  | picks _ mem => exact ⟨fits.toPervades, fits.holds.elements _ _ mem⟩
  | measuresString has => exact ⟨fits.toPervades, lengths _ _ (List.mem_singleton_self _) has⟩
  | measuresArray a => exact ⟨fits.toPervades, fits.sizes a⟩
  | makes made => exact ⟨fits.toPervades.allocate (makes fits all made), trivial⟩
  | stores v _ _ => exact ⟨fits.toPervades.store _ _ (all v (by simp)), trivial⟩
  | prints _ output _ => exact ⟨fits.toPervades.left (List.suffix_refl _) output m.trace, trivial⟩
  | reads t _ piece =>
      exact ⟨fits.toPervades.left piece.rest m.output t, T.piece piece.result fits.input⟩
  | halts reason output le => exact fits.left le output m.trace

end Spreads

/-! ### Runs -/

/-- A state is viewed by its log. If all lengths in the log have the trait, then so does everything
else. -/
structure View (T : Trait) (log : List Moment) (s : Logged Moment) : Prop where
  same : s.log = log
  machine : T.Measures log → T.Fits s.machine
  values : T.Measures log → ∀ moment ∈ log, ∀ v ∈ moment.values, T.Has v

/-- A value has the trait, if all lengths in the log have it. -/
def Granted (T : Trait) (log : List Moment) (v : Value) : Prop :=
  T.Measures log → T.Has v

theorem Granted.mono {log log' : List Moment} {v : Value} (h : T.Granted log v)
    (le : log <+: log') : T.Granted log' v :=
  fun measures => h (measures.of_prefix le)

abbrev Keeps {α : Type} (T : Trait) (log : List Moment) (x : Narrated α)
    (Q : List Moment → α → Prop) : Prop :=
  Maintains Course.log T.View none log x Q

theorem View.tell {log : List Moment} {s : Logged Moment} (view : T.View log s) {moment : Moment}
    (all : ∀ v ∈ moment.values, T.Granted log v) :
    T.View (log ++ [moment]) ⟨s.machine, s.log ++ [moment]⟩ where
  same := by rw [view.same]
  machine measures := view.machine (measures.of_prefix (List.prefix_append _ _))
  values measures other mem := by
    have before := measures.of_prefix (List.prefix_append log [moment])
    rcases List.mem_append.mp mem with old | new
    · exact view.values before other old
    · rw [List.mem_singleton.mp new]
      exact fun v here => all v here before

namespace Keeps
variable {α : Type} {log : List Moment}

theorem step {x : Eval α} {Q : α → Prop} (h : T.Measures log → T.Spreads x Q) :
    T.Keeps log (Narrated.step x) fun log a => T.Measures log → Q a := by
  refine Maintains.step fun s view => ?_
  have spread (measures : T.Measures log) := h measures s.machine (view.machine measures)
  cases hs : x s.machine with
  | error reason m =>
      refine ⟨log, List.prefix_refl log, view.same, fun measures => ?_, view.values⟩
      have left := spread measures
      rwa [hs] at left
  | ok a m =>
      have le := List.prefix_append log [.stepped m]
      have left (measures : T.Measures (log ++ [.stepped m])) : T.Pervades m ∧ Q a := by
        have left := spread (measures.of_prefix le)
        rwa [hs] at left
      refine ⟨_, le, ⟨by rw [view.same], ?_, ?_⟩, fun measures => (left measures).2⟩
      · intro measures
        have sizes := measures.arrays m (List.mem_append_right _ (List.mem_singleton_self _))
        exact ⟨(left measures).1, sizes⟩
      · intro measures moment mem
        rcases List.mem_append.mp mem with old | new
        · exact view.values (measures.of_prefix le) moment old
        · rw [List.mem_singleton.mp new]
          exact Machine.holds_iff.mp (left measures).1.holds

theorem consults {x : Eval Value} (h : Eval.Consults x) :
    T.Keeps log (Narrated.step x) T.Granted :=
  step fun _ => .consults h

theorem answered {x : Narrated Value} {function : Value} {arguments : List Value}
    (constant : T.Has function) (all : ∀ v ∈ arguments, T.Granted log v)
    (hx : ∀ log', log <+: log' → .calling function arguments ∈ log' → T.Keeps log' x T.Granted) :
    T.Keeps log (Narrated.between (.calling function arguments) (.answered function arguments) x)
      T.Granted := by
  let before := Moment.calling function arguments
  refine .between (P := fun log' => before ∈ log') (fun s view => ?_) hx
    fun log' result s le hr view => ?_
  · have told : before ∈ log ++ [before] := List.mem_append_right log (List.mem_singleton_self _)
    refine ⟨_, List.prefix_append _ _, view.tell fun v mem => ?_, told⟩
    rcases List.mem_cons.mp mem with rfl | mem
    · exact fun _ => constant
    · exact all v mem
  · refine ⟨_, List.prefix_append _ _, view.tell fun v mem => ?_,
      hr.mono (List.prefix_append _ _)⟩
    rcases List.mem_cons.mp mem with rfl | mem
    · exact fun _ => constant
    · rcases List.mem_cons.mp mem with rfl | mem
      · exact hr
      · exact (all v mem).mono le

theorem call {x : Narrated Value} {function : Value} {arguments : List Value} (callee : Name)
    (constant : T.Has function) (all : ∀ v ∈ arguments, T.Granted log v)
    (hx : ∀ log', log <+: log' → .calling function arguments ∈ log' → T.Keeps log' x T.Granted) :
    T.Keeps log (Observer.narrating.onCall callee function arguments x) T.Granted := by
  refine (answered constant all hx).bind fun log' result _ hr => ?_
  have traced : T.Keeps log' (Narrated.step (traceCall callee arguments result)) fun log' _ =>
      T.Measures log' → True := step fun _ => .traces (.call _ _ _)
  exact traced.bind fun log'' _ le _ => .pure (hr.mono le)

end Keeps

theorem View.blind {log : List Moment} {s : Logged Moment} (trace : Trace) (view : T.View log s) :
    T.View log { s with machine := { s.machine with trace := trace } } where
  same := view.same
  machine measures := (view.machine measures).retraced trace
  values := view.values

theorem spreading (T : Trait) :
    Observer.ScopedUpkeep (· <+: ·) (fun log l => T.Granted log l.value) (fun _ _ => True)
      T.Granted T.Granted (fun _ log x Q => T.Keeps log x Q) Observer.narrating where
  value_mono le h := h.mono le
  env_mono _ _ := trivial
  constant_mono le h := h.mono le
  nil _ _ := trivial
  literal h := h
  failure _ _ _ := trivial
  value h := h
  settled h _ := h
  pure h := .pure h
  bind hx hf := hx.bind hf
  widen h := h
  halt log reason Q _ := .halt reason
  resolve name position _ := .consults (.resolve _ name position)
  newArray all := .step fun measures => .newArray fun v mem => all v mem measures
  index position _ _ := .consults (.indexValue _ _ position)
  newScope {_ log bindings env _ _} name _ all hf := by
    have made : T.Keeps log (Narrated.step (Eval.newScope name bindings env)) fun log _ =>
        T.Measures log → True :=
      .step fun measures => .newScope name env fun binding mem => all binding mem measures
    exact made.bind fun log env' le _ => hf log env' le trivial
  define name _ hv :=
    (Keeps.step fun measures => .define _ name (hv measures)).imp fun _ _ _ => trivial
  assign name _ hv :=
    (Keeps.step fun measures => .assign _ name (hv measures)).imp fun _ _ _ => trivial
  newFunction name parameters _ constants :=
    .step fun measures => .newFunction name parameters _ fun l mem => constants l mem measures
  closure log id := (Keeps.step fun _ => .closure id).imp fun _ _ known f found =>
    ⟨trivial, fun l mem measures => known measures f found l mem⟩
  builtin {log arguments} callee b all := by
    refine .call callee trivial all fun log' le mem => .step fun measures => ?_
    refine .builtin (fun v here => (all v here).mono le measures) fun t bytes here has => ?_
    exact measures.strings _ mem t bytes (List.mem_cons_of_mem _ here) has
  call callee id all hx := .call callee trivial all fun log' le _ => hx log' le
  unary op position _ := .consults (.tracedUnary op _ position)
  binary op position _ _ := .consults (.tracedBinary op _ _ position)
  onExpr {log env x} e _ hx := by
    refine .between (P := fun _ => True) (fun s view => ?_) (fun log' le _ => hx log' le)
      fun log' v s _ hv view => ?_
    · exact ⟨_, List.prefix_append _ _, view.tell fun _ mem => absurd mem List.not_mem_nil, trivial⟩
    · have le := List.prefix_append log' [.evaluated env e v]
      refine ⟨_, le, view.tell fun u mem => ?_, hv.mono le⟩
      rwa [List.mem_singleton.mp mem]
  onDecl {_ log env x} s _ hx := by
    refine .between (P := fun _ => True) (fun t view => ?_) (fun log' le _ => hx log' le)
      fun log' c t _ hc view => ?_
    · exact ⟨_, List.prefix_append _ _, view.tell fun _ mem => absurd mem List.not_mem_nil, trivial⟩
    · have le := List.prefix_append log' [.executed env s c]
      cases c with
      | normal => exact ⟨_, le, view.tell fun _ mem => absurd mem List.not_mem_nil, trivial⟩
      | returned value =>
          refine ⟨_, le, view.tell fun u mem => ?_, Granted.mono hc le⟩
          rwa [List.mem_singleton.mp mem]
      | aborted failure =>
          refine ⟨_, le, view.tell fun u mem => ?_, trivial⟩
          rw [List.mem_singleton.mp mem]
          exact fun _ => trivial
  inBody h := .indented (fun _ _ trace view => view.blind trace) h
  onAbort log failure := (Keeps.step fun _ => .traces (.line _)).imp fun _ _ _ => trivial

/-- If all lengths that can be measured in a run have a trait, and the machine, the input and the
constants have it, then all values of the run have it. -/
theorem has_of_mem_values {budget : Budget} {program : Program} {m : Machine} (fits : T.Fits m)
    (constants : ∀ l ∈ bodyLiterals program, T.Has l.value)
    (measures : T.Measures (program.moments budget m)) :
    ∀ v ∈ program.values budget m, T.Has v := by
  have start : T.View [] ⟨m, []⟩ := ⟨rfl, fun _ => fits, fun _ _ mem => absurd mem List.not_mem_nil⟩
  have keeps : T.Keeps [] (Observer.narrating.run budget program) fun _ _ => True :=
    T.spreading.run (fun _ => .halt _) [] budget program trivial fun l mem _ => constants l mem
  obtain ⟨log, -, view⟩ := keeps.final ⟨m, []⟩ start
  obtain rfl : program.moments budget m = log := view.same
  have logged := view.values measures
  have left : (Logged.final (program.narrated budget m)).machine.Holds T.Has :=
    (view.machine measures).holds
  intro v mem
  rcases List.mem_append.mp mem with told | held
  · obtain ⟨moment, among, here⟩ := List.mem_flatMap.mp told
    exact logged moment among v here
  · obtain ⟨state, among, here⟩ := List.mem_flatMap.mp held
    rcases List.mem_append.mp among with before | last
    · rcases List.mem_cons.mp before with rfl | passed
      · exact Machine.holds_iff.mp fits.holds v here
      · obtain ⟨moment, among, found⟩ := List.mem_filterMap.mp passed
        cases moment with
        | stepped m' =>
            cases found
            exact logged _ among v here
        | _ => cases found
    · rw [List.mem_singleton.mp last] at here
      exact Machine.holds_iff.mp left v here

end Trait

end Script
