import Script.Proofs.Effects
import Script.Proofs.Maintenance
import Script.Proofs.Nameless
import Script.Proofs.Upkeep

/-!
# Indentation of traces

A journal says which lines are given to a trace, and inside which bodies of functions. It is a list
of lines and of executed bodies, where each body comes with a journal of its own, so that what has
been entered has been left again. A line is entered where it is given to the trace, as it is given:
the journal is not read off the trace, and knows neither indentation nor the ends of lines. It is
laid out by writing every line behind one step of indentation for each body around it.

The observer `journaling` keeps the journal of an evaluation. The trace grows by exactly what the
journal is when it is laid out, wherever the evaluation stops, and the level of indentation is in
the end what it was in the beginning.
-/

namespace Script

/-- Something that concerns a trace: a line that is given to it, or the execution of the body of a
function. -/
inductive Activity where
  | line (message : Text)
  | executed (inside : List Activity)
  deriving Repr

namespace Activity

mutual

/-- What a trace shows of an activity inside a number of bodies. -/
def laidOut (indentSize bodies : Nat) : Activity → Text
  | line message =>
    List.replicate (indentSize * bodies) (CodePoint.ofChar ' ') ++ (message ++ [.lineFeed])
  | executed inside => laidOutAll indentSize (bodies + 1) inside
termination_by structural a => a

def laidOutAll (indentSize bodies : Nat) : List Activity → Text
  | [] => []
  | a :: others => laidOut indentSize bodies a ++ laidOutAll indentSize bodies others
termination_by structural journal => journal

end

theorem laidOutAll_append (indentSize bodies : Nat) (first second : List Activity) :
    laidOutAll indentSize bodies (first ++ second) =
      laidOutAll indentSize bodies first ++ laidOutAll indentSize bodies second := by
  induction first with
  | nil => rfl
  | cons a others ih => rw [List.cons_append, laidOutAll, laidOutAll, ih, List.append_assoc]

theorem laidOutAll_singleton (indentSize bodies : Nat) (a : Activity) :
    laidOutAll indentSize bodies [a] = laidOut indentSize bodies a :=
  List.append_nil _

end Activity

namespace Trace

/-- A trace to which a journal has been added. -/
def after (t : Trace) (journal : List Activity) : Trace :=
  if t.enabled then
    { t with written := t.written ++ Activity.laidOutAll t.indentSize t.level journal }
  else t

variable (t : Trace)

@[simp] theorem level_after (journal : List Activity) : (t.after journal).level = t.level := by
  unfold after
  split <;> rfl

@[simp] theorem after_nil : t.after [] = t := by
  unfold after
  split
  · rw [Activity.laidOutAll, Array.appendList_nil]
  · rfl

theorem append_append (a : Array CodePoint) (first second : Text) :
    a ++ (first ++ second) = a ++ first ++ second :=
  Array.toList_inj.mp (by simp)

theorem after_append (first second : List Activity) :
    t.after (first ++ second) = (t.after first).after second := by
  unfold after
  by_cases on : t.enabled
  · simp [on, Activity.laidOutAll_append, append_append]
  · simp [on]

theorem writeLine_eq_after (message : Text) : t.writeLine message = t.after [.line message] := by
  unfold writeLine write after
  rw [Activity.laidOutAll_singleton, Activity.laidOut, append_append]

/-- Around a body, a step of indentation is added and taken away again. -/
theorem dedent_after_indent (inside : List Activity) :
    (t.indent.after inside).dedent = t.after [.executed inside] := by
  unfold after dedent indent
  rw [Activity.laidOutAll_singleton, Activity.laidOut]
  by_cases on : t.enabled <;> simp [on]

end Trace

/-! ### Steps -/

namespace Eval
variable {α β : Type}

/-- A computation that leaves the trace as it is. -/
def KeepsTrace (x : Eval α) : Prop :=
  ∀ m : Machine, (final (x m)).trace = m.trace

namespace KeepsTrace

theorem pure (a : α) : KeepsTrace (pure a) := fun _ => rfl

theorem bind {x : Eval α} {f : α → Eval β} (hx : KeepsTrace x) (hf : ∀ a, KeepsTrace (f a)) :
    KeepsTrace (x >>= f) := by
  intro m
  have first := hx m
  cases hm : x m with
  | error reason m' =>
      rw [hm] at first
      rw [bind_of_error hm]
      exact first
  | ok a m' =>
      rw [hm] at first
      rw [bind_of_ok hm]
      exact (hf a m').trans first

theorem resolve (env : Env) (name : Name) (position : Position) :
    KeepsTrace (resolve env name position) := by
  intro m
  obtain ⟨value, found, -⟩ := supplies_resolve env name position m
  rw [found]
  rfl

theorem newScope (name : Name) (bindings : Bindings) (env : Env) :
    KeepsTrace (newScope name bindings env) :=
  fun _ => rfl

theorem newFunction (name : Name) (parameters : List Name) (body : List Decl) (env : Env) :
    KeepsTrace (newFunction name parameters body env) :=
  fun _ => rfl

theorem closure (id : FunctionId) : KeepsTrace (closure? id) := fun _ => rfl

theorem define (env : Env) (name : Name) (value : Value) : KeepsTrace (define env name value) := by
  cases env with
  | nil => exact fun _ => rfl
  | cons id env => exact fun _ => rfl

theorem assign (env : Env) (name : Name) (value : Value) : KeepsTrace (assign env name value) := by
  intro m
  obtain ⟨id, -, assigned⟩ | ⟨-, missing⟩ := assign_cases env name value m
  · rw [assigned]
    rfl
  · rw [missing]
    rfl

end KeepsTrace

/-- Where names play no part and nothing may be traced, the trace is kept. -/
theorem Inputless.keepsTrace {x : Eval α} (h : Inputless False x) : KeepsTrace x := by
  induction h with
  | pure a => exact .pure a
  | halt reason => exact fun _ => rfl
  | bind _ _ hx hf => exact .bind hx hf
  | look _ _ ih => exact fun m => ih m m
  | change same =>
      intro m
      have kept := congrArg Prod.snd (same m m.scopes m.functions m.input m.trace)
      exact congrArg (·.trace) kept
  | display value =>
      intro m
      change (final (Eval.ofExcept (m.display value) m)).trace = m.trace
      cases m.display value <;> rfl
  | traceLine t never => exact never.elim

end Eval

namespace Builtin

/-- What a call of a reader gives to the trace: a line about a fault that it recovers from. -/
def complaint (b : Builtin) (reading : Reading) : List Activity :=
  match reading.fault with
  | none => []
  | some fault => if fault.recoverable then [.line (b.faultLine fault)] else []

/-- What a call gives to the trace. -/
def told (input : Input) : Builtin → List Value → List Activity
  | readln, [] => readln.complaint input.readLine
  | read, [] => read.complaint input.readWord
  | readc, [] => readc.complaint input.readChar
  | readall, [] => readall.complaint input.readAll
  | _, _ => []

theorem trace_takeInput (b : Builtin) (read : Input → Reading) (m : Machine) :
    (Eval.final (b.takeInput read m)).trace = m.trace.after (b.complaint (read m.input)) := by
  have got : (get : Eval Machine) m = .ok m m := rfl
  have changed (f : Machine → Machine) : (modify f : Eval Unit) m = .ok () (f m) := rfl
  unfold takeInput complaint
  rw [bind_of_ok got]
  dsimp only
  rw [bind_of_ok (changed _)]
  cases (read m.input).fault with
  | none => exact m.trace.after_nil.symm
  | some fault =>
      dsimp only
      split
      · exact m.trace.writeLine_eq_after _
      · exact m.trace.after_nil.symm

theorem trace_perform (b : Builtin) (arguments : List Value) (m : Machine) :
    (Eval.final (b.perform arguments m)).trace = m.trace.after (b.told m.input arguments) := by
  have kept {x : Eval Value} (quiet : Eval.Inputless False x) :
      (Eval.final (x m)).trace = m.trace.after [] :=
    (quiet.keepsTrace m).trans m.trace.after_nil.symm
  unfold perform
  split
  · exact kept (inputless_callLen _)
  · exact kept (inputless_callFirst _)
  · exact kept (inputless_callLast _)
  · exact kept (inputless_callRest _)
  · exact kept (inputless_callPush _ _)
  · exact kept (inputless_callAlloc _ _)
  · exact kept (inputless_callSet _ _ _)
  · exact kept (inputless_printEach _ _)
  · exact kept (inputless_printEach _ _)
  · exact trace_takeInput readln Input.readLine m
  · exact trace_takeInput read Input.readWord m
  · exact trace_takeInput readc Input.readChar m
  · exact trace_takeInput readall Input.readAll m
  · have nothing : b.told m.input arguments = [] := by
      unfold told
      split <;> simp_all
    rw [nothing]
    exact kept (.pure _)

theorem trace_call (b : Builtin) (arguments : List Value) (m : Machine) :
    (Eval.final (b.call arguments m)).trace = m.trace.after (b.told m.input arguments) := by
  unfold call
  cases arity : b.arity? with
  | none => exact b.trace_perform arguments m
  | some expected =>
      dsimp only
      split
      · exact b.trace_perform arguments m
      · -- readers take no arguments
        have nothing : b.told m.input arguments = [] := by
          unfold told
          split <;> simp_all [arity?]
        rw [nothing]
        exact m.trace.after_nil.symm

end Builtin

/-! ### Journals -/

/-- Computations that keep a journal. -/
abbrev Journaled := EStateM Halt (Logged Activity)

namespace Journaled
variable {α : Type}

/-- Carries out a step that gives nothing to the trace. -/
def step (x : Eval α) : Journaled α := Logged.lift id x

/-- Gives a line to the trace and enters it. -/
def traceLine (message : Text) : Journaled Unit := do
  Logged.note fun _ => .line message
  step (Eval.traceLine message)

/-- Enters what a function is going to give to the trace, if it is a built-in one. -/
def expect (function : Value) (arguments : List Value) : Journaled Unit :=
  match function with
  | .builtin b => modify fun s => { s with log := s.log ++ b.told s.machine.input arguments }
  | _ => pure ()

def traceCall (callee : Name) (arguments : List Value) (value : Value) : Journaled Unit := do
  let shown ← step (Eval.displayAll arguments)
  let result ← step (Eval.display value)
  traceLine (callLine callee shown result)

def traceUnary (op : UnaryOp) (operand value : Value) : Journaled Unit := do
  let shown ← step (Eval.display operand)
  let result ← step (Eval.display value)
  traceLine (unaryLine op shown result)

def traceBinary (op : BinaryOp) (left right value : Value) : Journaled Unit := do
  let shownLeft ← step (Eval.display left)
  let shownRight ← step (Eval.display right)
  let result ← step (Eval.display value)
  traceLine (binaryLine op shownLeft shownRight result)

/-- Executes a body with a journal of its own, which is entered however the body ends. -/
def body (x : Journaled α) : Journaled α := fun s =>
  match Logged.indented x ⟨s.machine, []⟩ with
  | .ok a t => .ok a ⟨t.machine, s.log ++ [.executed t.log]⟩
  | .error reason t => .error reason ⟨t.machine, s.log ++ [.executed t.log]⟩

end Journaled

/-- The observer that traces, as programs are run, and keeps the journal. -/
def Observer.journaling : Observer Journaled where
  onExpr _ _ x := x
  onDecl _ _ x := x
  onCall callee function arguments x := do
    Journaled.expect function arguments
    let result ← x
    Journaled.traceCall callee arguments result
    return result
  onUnary op operand position := do
    let value := op.apply operand position
    Journaled.traceUnary op operand value
    return value
  onBinary op left right position := do
    let value ← Journaled.step (op.apply left right position)
    Journaled.traceBinary op left right value
    return value
  inBody := Journaled.body
  onAbort failure := Journaled.traceLine (abortLine failure)
  step := Journaled.step

namespace Journaled
variable {α : Type}

/-! ### What is done besides -/

/-- A computation that keeps a journal of what another one does. -/
abbrev Shadows (x : Eval α) (y : Journaled α) : Prop :=
  Logged.Shadows (LogForm.any Activity) id x y

theorem shadows_traceLine (message : Text) : Shadows (Eval.traceLine message) (traceLine message) :=
  .note (fun _ => trivial) (.lift _)

theorem shadows_traceCall (callee : Name) (arguments : List Value) (value : Value) :
    Shadows (Script.traceCall callee arguments value) (traceCall callee arguments value) :=
  .bind (.lift _) fun _ => .bind (.lift _) fun _ => shadows_traceLine _

theorem shadows_traceUnary (op : UnaryOp) (operand value : Value) :
    Shadows (Script.traceUnary op operand value) (traceUnary op operand value) :=
  .bind (.lift _) fun _ => .bind (.lift _) fun _ => shadows_traceLine _

theorem shadows_traceBinary (op : BinaryOp) (left right value : Value) :
    Shadows (Script.traceBinary op left right value) (traceBinary op left right value) :=
  .bind (.lift _) fun _ => .bind (.lift _) fun _ => .bind (.lift _) fun _ => shadows_traceLine _

theorem shadows_expect {x : Eval α} {y : Journaled α} (function : Value) (arguments : List Value)
    (h : Shadows x y) : Shadows x (do expect function arguments; y) := by
  cases function with
  | builtin b =>
      intro m log
      have hx := h m (log ++ b.told m.input arguments)
      change Logged.Alongside _ id log (x m) (y ⟨m, log ++ b.told m.input arguments⟩)
      generalize x m = r, y ⟨m, log ++ b.told m.input arguments⟩ = r' at hx
      cases hx with
      | ok =>
          rw [List.append_assoc]
          exact .ok trivial
      | halted =>
          rw [List.append_assoc]
          exact .halted trivial
  | _ => exact h

theorem shadows_body {x : Eval α} {y : Journaled α} (h : Shadows x y) :
    Shadows (Eval.indented x) (body y) := by
  intro m log
  have inside := h.indented m []
  unfold body
  dsimp only
  generalize Eval.indented x m = r, Logged.indented y ⟨m, []⟩ = r' at inside
  cases inside with
  | ok => exact .ok trivial
  | halted => exact .halted trivial

theorem plain_journaling : Observer.Related Shadows Observer.plain Observer.journaling where
  pure := .pure
  bind := .bind
  step _ := .lift _
  onExpr _ _ _ _ h := h
  onDecl _ _ _ _ h := h
  onCall _ function arguments _ _ h := shadows_expect function arguments
    (h.bind fun _ => .bind (shadows_traceCall _ _ _) fun _ => .pure _)
  onUnary _ _ _ := .bind (shadows_traceUnary _ _ _) fun _ => .pure _
  onBinary _ _ _ _ := .bind (.lift _) fun _ => .bind (shadows_traceBinary _ _ _ _) fun _ => .pure _
  inBody := shadows_body
  onAbort _ := shadows_traceLine _

end Journaled

/-! ### What the trace grows by -/

/-- Nothing moves on. -/
def Course.still : Course Trace where
  moves _ t t' := t = t'
  refl _ _ := rfl
  trans := Eq.trans
  widen h := h

/-- The trace is what the journal adds to `t`. -/
def Logged.Tells (t : Trace) (s : Logged Activity) : Prop :=
  s.machine.trace = t.after s.log

namespace Journaled
variable {α β : Type} {Q : α → Prop}

/-- A computation whose trace grows by what it enters, and of whose result `Q` holds. -/
def Accounts (x : Journaled α) (Q : α → Prop) : Prop :=
  ∀ t, Maintains Course.still Logged.Tells none t x fun _ => Q

namespace Accounts

theorem pure {a : α} (h : Q a) : Accounts (pure a) Q := fun _ => .pure h

theorem bind {P : β → Prop} {x : Journaled α} {f : α → Journaled β} (hx : Accounts x Q)
    (hf : ∀ a, Q a → Accounts (f a) P) : Accounts (x >>= f) P :=
  fun t => (hx t).bind fun t' a _ ha => hf a ha t'

/-- A step after which the trace is what has been entered before it. -/
theorem leaves_step {x : Eval α} {t : Trace} {s : Logged Activity}
    (told : (Eval.final (x s.machine)).trace = t.after s.log) :
    Leaves Course.still Logged.Tells none t (fun _ _ => True) (Journaled.step x s) := by
  unfold Journaled.step Logged.lift
  cases hs : x s.machine with
  | ok a m =>
      rw [hs] at told
      exact ⟨t, rfl, told, trivial⟩
  | error reason m =>
      rw [hs] at told
      exact ⟨t, rfl, told⟩

theorem step {x : Eval α} (quiet : Eval.KeepsTrace x) : Accounts (step x) fun _ => True :=
  fun _ s told => leaves_step ((quiet s.machine).trans told)

theorem traceLine (message : Text) : Accounts (traceLine message) fun _ => True := by
  intro t s told
  refine ⟨t, rfl, ?_, trivial⟩
  change s.machine.trace.writeLine message = t.after (s.log ++ [.line message])
  rw [told, Trace.writeLine_eq_after, Trace.after_append]

theorem displayed {f : Text → Journaled β} {P : β → Prop} (value : Value)
    (hf : ∀ shown, Accounts (f shown) P) : Accounts (Journaled.step (Eval.display value) >>= f) P :=
  (step (Eval.Inputless.display value).keepsTrace).bind fun shown _ => hf shown

theorem traceCall (callee : Name) (arguments : List Value) (value : Value) :
    Accounts (traceCall callee arguments value) fun _ => True :=
  (step (Eval.Inputless.displayAll arguments).keepsTrace).bind fun _ _ =>
    displayed value fun _ => traceLine _

theorem answered (callee : Name) (arguments : List Value) (value : Value) :
    Accounts (do Journaled.traceCall callee arguments value; return value) fun _ => True :=
  (traceCall callee arguments value).bind fun _ _ => pure trivial

theorem traceUnary (op : UnaryOp) (operand value : Value) :
    Accounts (traceUnary op operand value) fun _ => True :=
  displayed operand fun _ => displayed value fun _ => traceLine _

theorem traceBinary (op : BinaryOp) (left right value : Value) :
    Accounts (traceBinary op left right value) fun _ => True :=
  displayed left fun _ => displayed right fun _ => displayed value fun _ => traceLine _

/-- What is expected of a call of a built-in function is what it gives to the trace. -/
theorem builtin (b : Builtin) (arguments : List Value) :
    Accounts (do expect (.builtin b) arguments; Journaled.step (b.call arguments)) fun _ =>
      True := by
  intro t s told
  have grown : (Eval.final (b.call arguments s.machine)).trace =
      t.after (s.log ++ b.told s.machine.input arguments) := by
    rw [b.trace_call, told, Trace.after_append]
  exact leaves_step (s := ⟨s.machine, s.log ++ b.told s.machine.input arguments⟩) grown

/-- The body of a function is one activity, whatever it ends with. -/
theorem body {x : Journaled α} (h : Accounts x Q) : Accounts (body x) Q := by
  intro t s told
  -- inside of the body there is one step of indentation more, and nothing has been entered yet
  have inside := h s.machine.trace.indent
    ⟨{ s.machine with trace := s.machine.trace.indent }, []⟩ (Trace.after_nil _).symm
  have left {u : Logged Activity} (grown : u.Tells s.machine.trace.indent) :
      u.machine.trace.dedent = t.after (s.log ++ [.executed u.log]) := by
    rw [grown, Trace.dedent_after_indent, told, Trace.after_append]
  unfold Journaled.body Logged.indented
  dsimp only
  generalize x _ = result at inside
  cases result with
  | ok a u =>
      obtain ⟨_, rfl, grown, ha⟩ := inside
      exact ⟨t, rfl, left grown, ha⟩
  | error reason u =>
      obtain ⟨_, rfl, grown⟩ := inside
      exact ⟨t, rfl, left grown⟩

end Accounts

theorem upkeep : Observer.Upkeep (fun (_ : Unit) _ => True) (fun _ _ => True)
    (fun _ x Q => Accounts x (Q ())) Observer.journaling where
  mono _ _ := trivial
  literal _ _ := trivial
  failure _ _ := trivial
  value _ := trivial
  settled _ _ := trivial
  pure := .pure
  bind hx hf := hx.bind fun a ha => hf () a trivial ha
  halt _ _ _ _ := fun t s told => ⟨t, rfl, told⟩
  resolve _ env name position := .step (.resolve env name position)
  newArray _ := .step (Eval.Inputless.newArray _).keepsTrace
  index position _ _ := .step (Eval.Inputless.indexValue _ _ position).keepsTrace
  newScope name env _ := .step (.newScope name _ env)
  define env name _ := .step (.define env name _)
  assign env name _ := .step (.assign env name _)
  newFunction _ name parameters body env := .step (.newFunction name parameters body env)
  closure _ id := .step (.closure id)
  builtin {_ arguments} callee b _ := by
    have called := (Accounts.builtin b arguments).bind fun value _ =>
      Accounts.answered callee arguments value
    rw [bind_assoc] at called
    exact called
  call {_ arguments _} callee _ _ hx := hx.bind fun value _ => .answered callee arguments value
  unary op position _ := (Accounts.traceUnary op _ _).bind fun _ _ => .pure trivial
  binary op position _ _ := (Accounts.step (Eval.Inputless.apply op _ _ position).keepsTrace).bind
    fun value _ => (Accounts.traceBinary op _ _ value).bind fun _ _ => .pure trivial
  onExpr _ _ hx := hx
  onDecl _ _ hx := hx
  inBody := .body
  onAbort _ _ := .traceLine _

theorem trace_final {x : Eval α} {y : Journaled α} (h : Shadows x y) (accounts : Accounts y Q)
    (m : Machine) : (Eval.final (x m)).trace = m.trace.after (Logged.final (y ⟨m, []⟩)).log := by
  have nothing : Logged.Tells m.trace ⟨m, []⟩ := m.trace.after_nil.symm
  obtain ⟨_, rfl, told⟩ := (accounts m.trace).final ⟨m, []⟩ nothing
  rw [← h.machine_final ⟨m, []⟩]
  exact told

end Journaled

/-! ### Runs and calls -/

namespace Program
variable (budget : Budget) (program : Program)

/-- A run with its journal. -/
def journaled : Journaled (Option Failure) :=
  Observer.journaling.run budget program

/-- What a run gives to the trace, and in which bodies. -/
def journal (m : Machine) : List Activity :=
  (Logged.final (program.journaled budget ⟨m, []⟩)).log

theorem shadows_journaled : Journaled.Shadows (program.run budget) (program.journaled budget) := by
  rw [← Observer.run_plain]
  exact Journaled.plain_journaling.run budget program

theorem accounts_journaled : Journaled.Accounts (program.journaled budget) fun _ => True :=
  Journaled.upkeep.run (fun _ t _ told => ⟨t, rfl, told⟩) () budget program

end Program

section Calls
variable (rounds depth : Nat) (id : FunctionId) (arguments : List Value) (position : Position)

theorem shadows_callFunction :
    Journaled.Shadows (callFunction rounds depth id arguments position)
      (Observer.journaling.callFunction rounds depth id arguments position) := by
  rw [← Observer.callFunction_plain]
  exact Journaled.plain_journaling.callFunction rounds depth id arguments position

theorem accounts_callFunction :
    Journaled.Accounts (Observer.journaling.callFunction rounds depth id arguments position)
      fun _ => True :=
  Journaled.upkeep.callFunction rounds depth () id arguments position fun _ _ => trivial

end Calls

namespace Value
variable (budget : Budget) (callee : Value) (arguments : List Value) (position : Position)

/-- A call from outside the program with its journal. -/
def journaled : Journaled Value :=
  match callee with
  | .builtin b => do
    Journaled.expect (.builtin b) arguments
    Journaled.step (b.call arguments)
  | .function id =>
    Observer.journaling.callFunction budget.rounds budget.depth id arguments position
  | other => pure (.error ⟨.notAFunction other.kind, position⟩)

def journal (m : Machine) : List Activity :=
  (Logged.final (callee.journaled budget arguments position ⟨m, []⟩)).log

theorem shadows_journaled : Journaled.Shadows (callee.invoke budget arguments position)
    (callee.journaled budget arguments position) := by
  cases callee with
  | builtin b => exact Journaled.shadows_expect (.builtin b) arguments (.lift _)
  | function id => exact shadows_callFunction _ _ id arguments position
  | _ => exact .pure _

theorem accounts_journaled :
    Journaled.Accounts (callee.journaled budget arguments position) fun _ => True := by
  cases callee with
  | builtin b => exact .builtin b arguments
  | function id => exact accounts_callFunction _ _ id arguments position
  | _ => exact .pure trivial

end Value

/-- What a host may ask of a machine. -/
inductive Request where
  | run (source : Text)
  | call (callee : Value) (arguments : List Value) (position : Position)

namespace Request
variable [CharacterNames] (budget : Budget) (m : Machine)

/-- Carries out a request. Whatever it ends with, what it did stays done. -/
def carryOut : Request → Machine
  | run source => (m.runSource budget source).2
  | call callee arguments position => Eval.final (callee.invoke budget arguments position m)

/-- The journal of a request. Nothing is traced of a source that is not run. -/
def journal : Request → List Activity
  | run source =>
    match Program.load source with
    | .error _ => []
    | .ok program => program.journal budget m
  | call callee arguments position => callee.journal budget arguments position m

def carryOutAll (m : Machine) : List Request → Machine
  | [] => m
  | request :: others => carryOutAll (request.carryOut budget m) others

def journalAll (m : Machine) : List Request → List Activity
  | [] => []
  | request :: others => request.journal budget m ++ journalAll (request.carryOut budget m) others

theorem machine_runSource {source : Text} {program : Program}
    (loaded : Program.load source = .ok program) :
    (m.runSource budget source).2 = Eval.final (program.run budget m) := by
  rw [Machine.runSource, loaded]
  dsimp only
  cases program.run budget m with
  | ok failure? m' => cases failure? <;> rfl
  | error reason m' => rfl

theorem trace_carryOut (request : Request) :
    (request.carryOut budget m).trace = m.trace.after (request.journal budget m) := by
  cases request with
  | run source =>
      dsimp only [carryOut, journal]
      cases loaded : Program.load source with
      | error reason =>
          rw [Machine.runSource, loaded]
          exact m.trace.after_nil.symm
      | ok program =>
          rw [machine_runSource budget m loaded]
          exact Journaled.trace_final (program.shadows_journaled budget)
            (program.accounts_journaled budget) m
  | call callee arguments position =>
      exact Journaled.trace_final (callee.shadows_journaled budget arguments position)
        (callee.accounts_journaled budget arguments position) m

theorem trace_carryOutAll (requests : List Request) :
    (carryOutAll budget m requests).trace = m.trace.after (journalAll budget m requests) := by
  induction requests generalizing m with
  | nil => exact m.trace.after_nil.symm
  | cons request others ih =>
      rw [carryOutAll, ih, trace_carryOut, journalAll, Trace.after_append]

end Request

/-- A run and a call from outside are what they are without a journal, in which every line that is
given to the trace stands inside the bodies that are being executed. The trace of a machine that is
asked to run sources and to call values is the journal laid out, with every line behind as many
steps of indentation as there are bodies around it, and it is not indented in the end, wherever the
runs and the calls stopped. Each single call of a function leaves the level of indentation as it
was. -/
theorem indentation_balanced [CharacterNames] (budget : Budget) :
    (∀ (program : Program) m, program.journaled budget ⟨m, []⟩ =
      Logged.outcome id (program.journal budget m) (program.run budget m)) ∧
    (∀ (callee : Value) arguments position m, callee.journaled budget arguments position ⟨m, []⟩ =
      Logged.outcome id (callee.journal budget arguments position m)
        (callee.invoke budget arguments position m)) ∧
    (∀ input indentSize requests,
      let m := Machine.initial input (.empty true indentSize)
      (Request.carryOutAll budget m requests).trace =
        ⟨true, indentSize, 0,
          (Activity.laidOutAll indentSize 0 (Request.journalAll budget m requests)).toArray⟩) ∧
    ∀ rounds depth id arguments position m,
      (Eval.final (callFunction rounds depth id arguments position m)).trace.level =
        m.trace.level := by
  refine ⟨fun program m => ?runs, fun callee arguments position m => ?calls,
    fun input indentSize requests => ?trace, fun rounds depth id arguments position m => ?level⟩
  case runs => exact (program.shadows_journaled budget).eq_outcome ⟨m, []⟩
  case calls => exact (callee.shadows_journaled budget arguments position).eq_outcome ⟨m, []⟩
  case trace =>
    dsimp only
    rw [Request.trace_carryOutAll]
    simp [Trace.after, Machine.initial, Trace.empty]
  case level =>
    rw [Journaled.trace_final (shadows_callFunction rounds depth id arguments position)
      (accounts_callFunction rounds depth id arguments position), Trace.level_after]

/-- A call inside of another one that halts, since an array has become an element of itself, and
behind it another run and a call by a host. -/
theorem indentation_balanced_nested :
    letI : CharacterNames := .ofList []
    let start := Machine.initial (.ofText []) (.empty true 2)
    let requests : List Request :=
      [.run (text "fun g() \x7b -1; \x7d fun f(a) \x7b g(); set(a, 0, a); \x7d f([0]);"),
        .run (text "-2;"), .call (.function 0) [] ⟨1, 1⟩]
    let shown := text "    [-(1) => -1]\n  [g() => nil]\n[-(2) => -2]\n  [-(1) => -1]\n"
    Activity.laidOutAll 2 0 (Request.journalAll ⟨9, 9⟩ start requests) = shown ∧
      (Request.carryOutAll ⟨9, 9⟩ start requests).trace = ⟨true, 2, 0, shown.toArray⟩ := by
  intro start requests shown
  let _ : CharacterNames := .ofList []
  have journal : Activity.laidOutAll 2 0 (Request.journalAll ⟨9, 9⟩ start requests) = shown := by
    decide +kernel
  obtain ⟨-, -, balanced, -⟩ := indentation_balanced ⟨9, 9⟩
  refine ⟨journal, (balanced (.ofText []) 2 requests).trans ?_⟩
  rw [journal]

end Script
