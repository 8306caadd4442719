import Script.Proofs.Halting
import Script.Proofs.RaisingRun
import Script.Proofs.UnwindingRun

/-!
# Why runs halt

No run raises more than a halt: each operation that is not defined everywhere is only carried out
where it is. Halts are accounted for by what has happened until then. The run has spent its calls or
the rounds of a loop, or it has come to an array that nests without end; `alloc` has been called
with `2^60` elements or more; the input has broken for good; or a string has no bytes, and then so
has a string of the program or the input, for strings with bytes are only joined and cut to strings
with bytes.
-/

namespace Script

namespace Trait

/-- What accounts for a halt, where the input breaks with this fault and these are the moments
before the halt. -/
inductive Accounts (T : Trait) (fault : Option InputFault) (log : List Moment) : Halt → Prop
  | denied {reason : Halt} : T.Denies reason → Accounts T fault log reason
  | tooMany {n : Int} {fill : Value} :
      log.getLast? = some (.calling (.builtin .alloc) [.integer n, fill]) → 2 ^ 60 ≤ n →
      Accounts T fault log .memory
  | broken {message : Text} : fault = some ⟨false, message⟩ →
      Accounts T fault log (.brokenInput message)
  | spent {reason : Halt} : reason.IsSpent → Accounts T fault log reason
  | stray : Accounts T fault log .strayReturn

/-- An end of a computation: the input breaks as before, or a halt is accounted for. -/
def Ends {α : Type} (T : Trait) (fault : Option InputFault) :
    EStateM.Result Halt (Logged Moment) α → Prop
  | .ok _ s => s.machine.input.fault = fault
  | .error reason s => T.Accounts fault s.log reason

/-- A computation that spreads a trait and whose halts are accounted for. -/
structure Ending {α : Type} (T : Trait) (fault : Option InputFault) (log : List Moment)
    (x : Narrated α) (Q : List Moment → α → Prop) : Prop where
  keeps : T.Keeps log x Q
  ends (s : Logged Moment) : T.View log s → s.machine.input.fault = fault → T.Ends fault (x s)

/-- A trait that all lengths have. -/
def IgnoresLengths (T : Trait) : Prop :=
  ∀ log, T.Measures log

namespace Ending
variable {T : Trait} {fault : Option InputFault} {log : List Moment} {α β : Type}

theorem pure {a : α} {Q : List Moment → α → Prop} (h : Q log a) :
    T.Ending fault log (pure a) Q where
  keeps := .pure h
  ends _ _ same := same

theorem bind {x : Narrated α} {f : α → Narrated β} {Q : List Moment → α → Prop}
    {Q' : List Moment → β → Prop} (hx : T.Ending fault log x Q)
    (hf : ∀ log' a, log <+: log' → Q log' a → T.Ending fault log' (f a) Q') :
    T.Ending fault log (x >>= f) Q' where
  keeps := hx.keeps.bind fun log' a le ha => (hf log' a le ha).keeps
  ends s view same := by
    have left := hx.keeps s view
    have ended := hx.ends s view same
    cases hs : x s with
    | error reason t =>
        rw [hs] at ended
        rw [bind_of_error hs]
        exact ended
    | ok a t =>
        rw [hs] at left ended
        obtain ⟨log', le, view', ha⟩ := left
        rw [bind_of_ok hs]
        exact (hf log' a le ha).ends t view' ended

theorem imp {x : Narrated α} {Q Q' : List Moment → α → Prop} (h : T.Ending fault log x Q)
    (weaker : ∀ log' a, Q log' a → Q' log' a) : T.Ending fault log x Q' where
  keeps := h.keeps.imp weaker
  ends := h.ends

theorem indented {x : Narrated α} {Q : List Moment → α → Prop} (h : T.Ending fault log x Q) :
    T.Ending fault log (Logged.indented x) Q where
  keeps := .indented (fun _ _ trace view => view.blind trace) h.keeps
  ends s view same := by
    have ended := h.ends _ (view.blind s.machine.trace.indent) same
    unfold Logged.indented
    generalize x _ = result at ended
    cases result with
    | ok a t => exact ended
    | error reason t => exact ended

theorem halt {reason : Halt} {Q : List Moment → α → Prop}
    (accounts : T.Accounts fault log reason) :
    T.Ending fault log (Narrated.step (throw reason)) Q where
  keeps := .halt reason
  ends s view _ := by
    have halted : (throw reason : Eval α) s.machine = .error reason s.machine := rfl
    rw [Narrated.step_of_error halted]
    change T.Accounts fault s.log reason
    rwa [view.same]

theorem between {x : Narrated α} {before : Moment} {after : α → Moment}
    {Q : List Moment → α → Prop}
    (keeps : T.Keeps log (Narrated.between before after x) Q)
    (known : ∀ v ∈ before.values, T.Granted log v)
    (hx : T.Ending fault (log ++ [before]) x Q) :
    T.Ending fault log (Narrated.between before after x) Q where
  keeps := keeps
  ends s view same := by
    have told : Narrated.tell before s = .ok () ⟨s.machine, s.log ++ [before]⟩ := rfl
    have ended := hx.ends ⟨s.machine, s.log ++ [before]⟩ (view.tell known) same
    rw [Narrated.between, bind_of_ok told]
    cases hs : x ⟨s.machine, s.log ++ [before]⟩ with
    | ok a t =>
        rw [hs] at ended
        rw [bind_of_ok hs]
        exact ended
    | error reason t =>
        rw [hs] at ended
        rw [bind_of_error hs]
        exact ended

section Steps
variable (ignores : T.IgnoresLengths)
include ignores

theorem step {x : Eval α} {Q : List Moment → α → Prop} (denied : T.Denied x)
    (same : ∀ m a m', x m = .ok a m' → m'.input.fault = m.input.fault)
    (keeps : T.Keeps log (Narrated.step x) Q) : T.Ending fault log (Narrated.step x) Q where
  keeps := keeps
  ends s view fixed := by
    cases hs : x s.machine with
    | ok a m =>
        rw [Narrated.step_of_ok hs]
        exact (same _ a m hs).trans fixed
    | error reason m =>
        rw [Narrated.step_of_error hs]
        exact .denied (denied _ (view.machine (ignores log)) reason m hs)

theorem looks {x : Eval α} {Q : List Moment → α → Prop} (looks : Eval.Looks x)
    (denied : T.Denied x) (keeps : T.Keeps log (Narrated.step x) Q) :
    T.Ending fault log (Narrated.step x) Q := by
  refine step ignores denied (fun m a m' done => ?_) keeps
  obtain ⟨t, left⟩ := looks m
  rw [done] at left
  rw [show m' = _ from left]

theorem call {x : Narrated Value} {function : Value} {arguments : List Value} (callee : Name)
    (constant : T.Has function) (all : ∀ v ∈ arguments, T.Granted log v)
    (keeps : ∀ log', log <+: log' → .calling function arguments ∈ log' →
      T.Keeps log' x T.Granted)
    (hx : T.Ending fault (log ++ [.calling function arguments]) x T.Granted) :
    T.Ending fault log (Observer.narrating.onCall callee function arguments x) T.Granted := by
  have known : ∀ v ∈ (Moment.calling function arguments).values, T.Granted log v :=
    List.forall_mem_cons.mpr ⟨fun _ => constant, all⟩
  refine (between (.answered constant all keeps) known hx).bind fun log' result le hr => ?_
  have shown : ∀ v ∈ arguments ++ [result], T.Has v := by
    refine List.forall_mem_append.mpr ⟨fun v mem => all v mem (ignores log), ?_⟩
    exact List.forall_mem_singleton.mpr (hr (ignores log'))
  have traces := Traces.call callee arguments result
  have traced : T.Ending fault log' (Narrated.step (traceCall callee arguments result))
      fun log' _ => T.Measures log' → True :=
    looks ignores traces.looks (.traces traces shown) (.step fun _ => .traces traces)
  exact traced.bind fun log'' _ le' _ => .pure (hr.mono le')

/-- A call of a built-in function. If it halts, its arguments have been logged last. -/
theorem builtin {b : Builtin} {arguments : List Value}
    (all : ∀ v ∈ arguments, T.Granted log v)
    (keeps : T.Keeps (log ++ [.calling (.builtin b) arguments])
      (Narrated.step (b.call arguments)) T.Granted) :
    T.Ending fault (log ++ [.calling (.builtin b) arguments])
      (Narrated.step (b.call arguments)) T.Granted where
  keeps := keeps
  ends s view fixed := by
    cases hs : b.call arguments s.machine with
    | ok v m =>
        have done := Builtin.does_call s.machine b arguments
        rw [hs] at done
        rw [Narrated.step_of_ok hs]
        exact done.fault.trans fixed
    | error reason m =>
        have has (v : Value) (mem : v ∈ arguments) : T.Has v := all v mem (ignores log)
        have fits := view.machine (ignores _)
        rw [Narrated.step_of_error hs]
        change T.Accounts fault s.log reason
        cases Builtin.stops_call fits has reason m hs with
        | denied denies => exact .denied denies
        | tooMany fill large => exact .tooMany (by rw [view.same, List.getLast?_concat]) large
        | broken _ broken => exact .broken (fixed ▸ broken)

end Steps

end Ending

theorem ending (T : Trait) (ignores : T.IgnoresLengths) (fault : Option InputFault) :
    Observer.ScopedUpkeep (· <+: ·) (fun log l => T.Granted log l.value) (fun _ _ => True)
      T.Granted T.Granted (fun _ log x Q => T.Ending fault log x Q) Observer.narrating where
  value_mono := T.spreading.value_mono
  env_mono _ _ := trivial
  constant_mono := T.spreading.constant_mono
  nil := T.spreading.nil
  literal := T.spreading.literal
  failure := T.spreading.failure
  value := T.spreading.value
  settled := T.spreading.settled
  pure h := .pure h
  bind hx hf := hx.bind hf
  widen h := h
  halt _ _ _ spent := .halt (.spent spent)
  resolve name position known :=
    .looks ignores (Eval.Consults.resolve _ name position).looks (.resolve _ name position)
      (T.spreading.resolve name position known)
  newArray all :=
    .step ignores (.modifyGet _) (by rintro _ _ _ ⟨⟩; rfl) (T.spreading.newArray all)
  index {log target _} position ht hi :=
    .looks ignores (Eval.Consults.indexValue _ _ position).looks
      (.indexValue (ht (ignores log)) position) (T.spreading.index position ht hi)
  newScope {_ log bindings env _ _} name _ all hf := by
    have made : T.Ending fault log (Narrated.step (Eval.newScope name bindings env)) fun log _ =>
        T.Measures log → True :=
      .step ignores (.modifyGet _) (by rintro _ _ _ ⟨⟩; rfl)
        (.step fun measures => .newScope name env fun binding mem => all binding mem measures)
    exact made.bind fun log env' le _ => hf log env' le trivial
  define {_ _ env} name known hv := by
    refine .step ignores ?_ ?_ (T.spreading.define name known hv)
    · cases env with
      | nil => exact .pure _
      | cons id env => exact .modifyGet _
    · cases env with
      | nil => rintro _ _ _ ⟨⟩; rfl
      | cons id env => rintro _ _ _ ⟨⟩; rfl
  assign {_ value env} name known hv := by
    refine .step ignores (.modifyGet _) (fun m bound m' done => ?_)
      (T.spreading.assign name known hv)
    obtain ⟨id, -, assigned⟩ | ⟨-, unbound⟩ := Eval.assign_cases env name value m
    · rw [assigned] at done
      cases done
      rfl
    · rw [unbound] at done
      cases done
      rfl
  newFunction name parameters known constants :=
    .step ignores (.modifyGet _) (by rintro _ _ _ ⟨⟩; rfl)
      (T.spreading.newFunction name parameters known constants)
  closure log id :=
    .looks ignores (Eval.looks_closure id) (.get fun _ => .pure _) (T.spreading.closure log id)
  builtin {log arguments} callee b all := by
    have keeps (log' : List Moment) (le : log <+: log')
        (mem : .calling (.builtin b) arguments ∈ log') :
        T.Keeps log' (Narrated.step (b.call arguments)) T.Granted := by
      refine .step fun measures => ?_
      refine .builtin (fun v here => (all v here).mono le measures) fun t bytes here has => ?_
      exact measures.strings _ mem t bytes (List.mem_cons_of_mem _ here) has
    refine .call ignores callee trivial all keeps (.builtin ignores all (keeps _ ?_ ?_))
    · exact List.prefix_append _ _
    · exact List.mem_append_right _ (List.mem_singleton_self _)
  call callee id all hx :=
    .call ignores callee trivial all (fun log' le _ => (hx log' le).keeps)
      (hx _ (List.prefix_append _ _))
  unary {log operand} op position has :=
    .looks ignores (Eval.Consults.tracedUnary op _ position).looks
      (.tracedUnary op (has (ignores log)) position) (T.spreading.unary op position has)
  binary {log left right} op position hl hr :=
    .looks ignores (Eval.Consults.tracedBinary op _ _ position).looks
      (.tracedBinary op (hl (ignores log)) (hr (ignores log)) position)
      (T.spreading.binary op position hl hr)
  onExpr e known hx :=
    .between (T.spreading.onExpr e known fun log' le => (hx log' le).keeps)
      (fun _ mem => absurd mem List.not_mem_nil) (hx _ (List.prefix_append _ _))
  onDecl {env? _ _ _} s known hx :=
    .between (@T.spreading.onDecl env? _ _ _ s known fun log' le => (hx log' le).keeps)
      (fun _ mem => absurd mem List.not_mem_nil) (hx _ (List.prefix_append _ _))
  inBody h := h.indented
  onAbort log failure :=
    .looks ignores (Traces.line _).looks (.traces (.line _) fun _ mem => absurd mem
      List.not_mem_nil) (T.spreading.onAbort log failure)

theorem accounts_of_run {T : Trait} (ignores : T.IgnoresLengths) {budget : Budget}
    {program : Program} {m m' : Machine} {reason : Halt} (fits : T.Fits m)
    (constants : ∀ l ∈ bodyLiterals program, T.Has l.value)
    (halted : program.run budget m = .error reason m') :
    T.Accounts m.input.fault (program.moments budget m) reason := by
  have start : T.View [] ⟨m, []⟩ := ⟨rfl, fun _ => fits, fun _ _ mem => absurd mem List.not_mem_nil⟩
  have ending : T.Ending m.input.fault [] (Observer.narrating.run budget program) fun _ _ => True :=
    (T.ending ignores m.input.fault).run (fun _ => .halt .stray) [] budget program trivial
      fun l mem _ => constants l mem
  have ended : T.Ends m.input.fault (program.narrated budget m) := ending.ends ⟨m, []⟩ start rfl
  rwa [Program.narrated_eq, halted] at ended

def encodable : Trait where
  integers _ := True
  strings := Text.Encodable
  wrap _ := trivial
  decoded := Text.Encodable.ofBytes
  piece part whole := whole.of_infix part

theorem encodable_ignores : encodable.IgnoresLengths :=
  fun _ => ⟨fun _ _ _ _ _ _ => trivial, fun _ _ _ => trivial⟩

/-- Where all strings have bytes, only arrays that nest without end have no readable form. -/
theorem eq_recursion_of_denies {reason : Halt} (denies : encodable.Denies reason) :
    reason = .recursion := by
  cases denies with
  | unencodable has none =>
      obtain ⟨bytes, found⟩ := Text.Encodable.exists_toBytes has
      rw [none] at found
      cases found
  | recursion => rfl

def any : Trait where
  integers _ := True
  strings _ := True
  wrap _ := trivial
  decoded _ := trivial
  piece _ _ := trivial

theorem any_ignores : any.IgnoresLengths :=
  fun _ => ⟨fun _ _ _ _ _ _ => trivial, fun _ _ _ => trivial⟩

theorem has_any (v : Value) : any.Has v := by
  cases v <;> trivial

/-- A machine that has not run anything has a trait if its input has it. -/
theorem fits_initial {T : Trait} (ignores : T.IgnoresLengths) {input : Input}
    (stdin : T.strings input.rest) (trace : Trace) : T.Fits (.initial input trace) where
  holds := .initial _ input trace
  input := stdin
  functions f mem := absurd mem (Array.not_mem_empty f)
  sizes a := (ignores [.stepped (.initial input trace)]).arrays _ (List.mem_singleton_self _) a

end Trait

namespace Program

/-- All strings of a program and its input have bytes. -/
structure Encodable (program : Program) (input : Input) : Prop where
  constants : ∀ t, .string t ∈ bodyLiterals program → t.Encodable
  stdin : input.rest.Encodable

/-- What a halt of the run of a program comes from. -/
def HaltsFor (budget : Budget) (program : Program) (input : Input) (trace : Trace) :
    Halt → Prop
  | .unencodable _ => ¬ program.Encodable input
  | .recursion | .exhausted => True
  | .memory => ∃ n fill, 2 ^ 60 ≤ n ∧
      (program.moments budget (.initial input trace)).getLast? =
        some (.calling (.builtin .alloc) [.integer n, fill])
  | .brokenInput message => input.fault = some ⟨false, message⟩
  | .strayReturn => False

theorem Encodable.has {program : Program} {input : Input} (clean : program.Encodable input) :
    ∀ l ∈ bodyLiterals program, Trait.encodable.Has l.value := by
  intro l mem
  cases l with
  | string t => exact clean.constants t mem
  | _ => trivial

theorem haltsFor_of_run {budget : Budget} {program : Program}
    (accepted : program.check = .ok ()) {input : Input} {trace : Trace} {reason : Halt}
    {m : Machine} (halted : program.run budget (.initial input trace) = .error reason m) :
    program.HaltsFor budget input trace reason := by
  have accounted := Trait.accounts_of_run Trait.any_ignores
    (Trait.fits_initial Trait.any_ignores trivial trace) (fun l _ => Trait.has_any l.value) halted
  cases reason with
  | unencodable e =>
      -- the trait of all values says nothing of bytes, so the run is looked at once more
      intro clean
      have fits := Trait.fits_initial Trait.encodable_ignores clean.stdin trace
      have accounted := Trait.accounts_of_run Trait.encodable_ignores fits clean.has halted
      cases accounted with
      | denied denies => cases Trait.eq_recursion_of_denies denies
      | spent spent => rcases spent with spent | spent <;> cases spent
  | recursion => trivial
  | exhausted => trivial
  | memory =>
      cases accounted with
      | denied denies => cases denies
      | spent spent => rcases spent with spent | spent <;> cases spent
      | tooMany last large => exact ⟨_, _, large, last⟩
  | brokenInput message =>
      cases accounted with
      | denied denies => cases denies
      | spent spent => rcases spent with spent | spent <;> cases spent
      | broken broken => exact broken
  | strayReturn => exact run_ne_strayReturn budget program accepted _ _ halted

/-- Nothing leaves the run of a checked program but halts: it raises what it raises with operations
that are not defined everywhere, and these raise nothing where they are carried out. A halt comes
from calls, loops or arrays without end, from `alloc` with `2^60` elements or more, from an input
that breaks for good, or from a string of the program or the input that has no bytes. If all of
these strings have bytes, then so have all strings of the run, and no value of the run is without a
readable form in any of its states, unless it is an array that nests without end. -/
theorem run_halts (budget : Budget) (program : Program) (accepted : program.check = .ok ())
    (input : Input) (trace : Trace) :
    (∀ m, Raising.run budget program m = Raising.halting (program.run budget) m) ∧
    (∀ reason m, program.run budget (.initial input trace) = .error reason m →
      program.HaltsFor budget input trace reason) ∧
    (program.Encodable input →
      (∀ t, .string t ∈ program.values budget (.initial input trace) → t.Encodable ∧
        (∃ bytes, Utf8.toBytes t = .ok bytes) ∧ ∃ shown, Utf8.display t = .ok shown) ∧
      ∀ state ∈ program.states budget (.initial input trace),
        ∀ v ∈ program.values budget (.initial input trace),
          (∃ shown, state.display v = .ok shown) ∨ state.display v = .error .recursion) := by
  refine ⟨Raising.run_eq budget accepted, fun reason m => haltsFor_of_run accepted, fun clean => ?_⟩
  have fits := Trait.fits_initial Trait.encodable_ignores clean.stdin trace
  have has := Trait.has_of_mem_values fits clean.has
    (Trait.encodable_ignores (program.moments budget (.initial input trace)))
  refine ⟨fun t mem => ?_, fun state passed v mem => ?_⟩
  · have encodable : t.Encodable := has _ mem
    exact ⟨encodable, encodable.exists_toBytes, encodable.exists_display⟩
  · have holds : state.Holds Trait.encodable.Has := Machine.holds_iff.mpr fun u held =>
      has u (List.mem_append_right _ (List.mem_flatMap.mpr ⟨state, passed, held⟩))
    cases shown : state.display v with
    | ok form => exact .inl ⟨form, rfl⟩
    | error reason =>
        have denies := Trait.denies_display holds (has v mem) shown
        exact .inr (congrArg Except.error (Trait.eq_recursion_of_denies denies))

/-- The run of `alloc(1152921504606846976, "é");` halts for want of memory. -/
theorem run_halts_alloc :
    let program : Program := [.stmt (.eval (.call (text "alloc")
      [.literal (.integer 1152921504606846976), .literal (.string (text "é"))] ⟨1, 1⟩))]
    let budget : Budget := ⟨0, 0⟩
    let input := Input.ofText (text "é")
    let trace := Trace.empty true 3
    program.check = .ok () ∧
    (∃ m, program.run budget (.initial input trace) = .error .memory m) ∧
    program.Encodable input ∧
    (∀ m, Raising.run budget program m = Raising.halting (program.run budget) m) ∧
    (∀ reason m, program.run budget (.initial input trace) = .error reason m →
      program.HaltsFor budget input trace reason) ∧
    (program.Encodable input →
      (∀ t, .string t ∈ program.values budget (.initial input trace) → t.Encodable ∧
        (∃ bytes, Utf8.toBytes t = .ok bytes) ∧ ∃ shown, Utf8.display t = .ok shown) ∧
      ∀ state ∈ program.states budget (.initial input trace),
        ∀ v ∈ program.values budget (.initial input trace),
          (∃ shown, state.display v = .ok shown) ∨ state.display v = .error .recursion) := by
  refine ⟨rfl, ⟨_, rfl⟩, ⟨fun t mem => ?_, by decide⟩, run_halts _ _ rfl _ _⟩
  have spelled : Literal.string t ∈ [Literal.integer 1152921504606846976, .string (text "é")] := mem
  have same : t = text "é" := by simpa using spelled
  rw [same]
  decide

end Program

end Script
