import Script.Proofs.Logged

/-!
# Returns that unwind

A semantics of programs in which statements have no completions. A return statement raises a signal
with its value, and so does a statement for which an expression fails. A signal unwinds everything
that is being executed up to the innermost call of a function, which catches it. A journal says
where calls begin and end, where return statements are executed, and where bodies come to their
ends. It is orderly if each return ends the innermost active call with the returned value.
-/

namespace Script

/-- What unwinds a run: a return statement, a failure, or a halt. -/
inductive Signal where
  | returned (value : Value)
  | aborted (failure : Failure)
  | halted (reason : Halt)

/-- Entries of the journal: a call of a function begins, a return statement is executed, the body of
a function comes to its end without one, and a call has a value. -/
inductive JournalEntry where
  | called (id : FunctionId)
  | returned (value? : Option Expr) (value : Value)
  | finished
  | ended (id : FunctionId) (value : Value)

abbrev Journal := List JournalEntry

abbrev Unwinding := EStateM Signal (Logged JournalEntry)

namespace Unwinding

def step {α : Type} (x : Eval α) : Unwinding α := Logged.lift .halted x

def record (entry : JournalEntry) : Unwinding Unit := Logged.note fun _ => entry

def observer : Observer Unwinding where
  onExpr _ _ x := x
  onDecl _ _ x := x
  onCall callee _ arguments x := do
    let value ← x
    step (traceCall callee arguments value)
    return value
  onUnary op operand position := step (tracedUnary op operand position)
  onBinary op left right position := step (tracedBinary op left right position)
  inBody := Logged.indented
  onAbort failure := step (traceAbort failure)
  step := step

abbrev evalExpr (call : CallerIn Unwinding) (env : Env) (e : Expr) : Unwinding Value :=
  observer.evalExpr call env e

/-- The value that a statement needs. A failure is raised. -/
def need (x : Unwinding Value) : Unwinding Value := do
  match ← x with
  | .error failure => throw (.aborted failure)
  | value => return value

def repeatWhile (condition : Unwinding Value) (body : Unwinding Unit) : Nat → Unwinding Unit
  | 0 => throw (.halted .exhausted)
  | rounds + 1 => do
    if (← need condition).isTruthy then
      body
      repeatWhile condition body rounds
    else return ()

def inBlock (env : Env) (run : Env → Unwinding Unit) : Unwinding Unit := do
  run (← step (Eval.newScope (text "block") [] env))

def leave (value? : Option Expr) (value : Value) : Unwinding Unit := do
  record (.returned value? value)
  throw (.returned value)

mutual

def execStmt (call : CallerIn Unwinding) (rounds : Nat) (env : Env) : Stmt → Unwinding Unit
  | .block body => inBlock env fun env => execBody call rounds env body
  | .declare name value => do
    step (Eval.define env name (← need (evalExpr call env value)))
  | .assign name value position => do
    let value ← need (evalExpr call env value)
    if ← step (Eval.assign env name value) then return ()
    else throw (.aborted ⟨.unboundName name, position⟩)
  | .eval value => do
    let _ ← need (evalExpr call env value)
    return ()
  | .branch condition body otherwise => do
    if (← need (evalExpr call env condition)).isTruthy then execStmt call rounds env body
    else execOtherwise call rounds env otherwise
  | .loop condition body =>
    repeatWhile (evalExpr call env condition) (execStmt call rounds env body) rounds
  | .return_ none => leave none .nil
  | .return_ (some value) => do leave (some value) (← need (evalExpr call env value))
termination_by structural s => s

def execOtherwise (call : CallerIn Unwinding) (rounds : Nat) (env : Env) :
    Otherwise → Unwinding Unit
  | .nothing => return ()
  | .stmt s => execStmt call rounds env s
termination_by structural e => e

def execDecl (call : CallerIn Unwinding) (rounds : Nat) (env : Env) : Decl → Unwinding Unit
  | .function name parameters body => do
    step (Eval.define env name (← step (Eval.newFunction name parameters body env)))
  | .stmt s => execStmt call rounds env s
termination_by structural d => d

def execBody (call : CallerIn Unwinding) (rounds : Nat) (env : Env) :
    List Decl → Unwinding Unit
  | [] => return ()
  | d :: rest => do
    execDecl call rounds env d
    execBody call rounds env rest
termination_by structural body => body

end

/-- The value of a call with a body: what a return statement in it raises, the failure that
aborts it, or nil if it comes to its end. -/
def catching (body : Unwinding Unit) : Unwinding Value :=
  tryCatch
    (do
      body
      record .finished
      return .nil)
    fun
      | .returned value => return value
      | .aborted failure => return .error failure
      | .halted reason => throw (.halted reason)

/-- What is done between the beginning and the end of a call. A function that does not exist is one
that does nothing. -/
def answer (call : CallerIn Unwinding) (rounds : Nat) : CallerIn Unwinding :=
  fun id arguments position => do
    match ← step (Eval.closure? id) with
    | none =>
      record .finished
      return .nil
    | some f =>
      if arguments.length = f.parameters.length then
        let bindings := Bindings.ofList (f.parameters.zip arguments)
        let env ← step (Eval.newScope f.name bindings f.env)
        catching (Logged.indented (execBody call rounds env f.body))
      else return .error ⟨.functionArity f.name f.parameters.length arguments.length, position⟩

/-- Calls a function, with an entry in the journal at each end. -/
def callFunction (rounds : Nat) : Nat → CallerIn Unwinding
  | 0 => fun _ _ _ => throw (.halted .recursion)
  | depth + 1 => fun id arguments position => do
    record (.called id)
    let value ← answer (callFunction rounds depth) rounds id arguments position
    record (.ended id value)
    return value

/-- Runs a program. Only failures are caught here. -/
def run (budget : Budget) (program : Program) : Unwinding (Option Failure) :=
  tryCatch
    (do
      execBody (callFunction budget.rounds budget.depth) budget.rounds Machine.globalEnv program
      return none)
    fun
      | .aborted failure => do
        step (traceAbort failure)
        return some failure
      | other => throw other

end Unwinding

namespace Journal

/-- The functions that are being executed behind a journal, the innermost first, where those of
`outer` have been before. -/
def active (outer : List FunctionId) : Journal → List FunctionId
  | [] => outer
  | .called id :: rest => active (id :: outer) rest
  | .ended _ _ :: rest => active outer.tail rest
  | .returned _ _ :: rest | .finished :: rest => active outer rest

theorem active_append (outer : List FunctionId) (before after : Journal) :
    active outer (before ++ after) = active (active outer before) after := by
  induction before generalizing outer with
  | nil => rfl
  | cons entry before ih => cases entry <;> exact ih _

/-- Journals in which returns end calls. Directly behind a return, the innermost active call ends
and has the returned value, which is nil for a return without an expression. Directly behind the
end of a body, the innermost active call ends and has the value nil. No call ends otherwise, but
with a failure. -/
structure Orderly (journal : Journal) : Prop where
  returned {before after : Journal} {value? : Option Expr} {value : Value} :
    journal = before ++ .returned value? value :: after → (value? = none → value = .nil) ∧
      ∃ id outer rest, active [] before = id :: outer ∧ after = .ended id value :: rest
  finished {before after : Journal} : journal = before ++ .finished :: after →
    ∃ id outer rest, active [] before = id :: outer ∧ after = .ended id .nil :: rest
  ended {before after : Journal} {id : FunctionId} {value : Value} :
    journal = before ++ .ended id value :: after → (∃ outer, active [] before = id :: outer) ∧
      ((∃ front value?, before = front ++ [.returned value? value]) ∨
        (∃ front, before = front ++ [.finished]) ∨ ∃ failure, value = .error failure)

/-- An entry behind which the innermost active call ends with a value. -/
inductive Closes : JournalEntry → Value → Prop
  | returned {value? : Option Expr} {value : Value} : (value? = none → value = .nil) →
      Closes (.returned value? value) value
  | finished : Closes .finished .nil

/-- How a journal changes the functions that are being executed. An entry that ends a call and the
end of this call are one step. -/
inductive Leads : List FunctionId → Journal → List FunctionId → Prop
  | nil (s : List FunctionId) : Leads s [] s
  | called {id : FunctionId} {s t : List FunctionId} {journal : Journal} :
      Leads (id :: s) journal t → Leads s (.called id :: journal) t
  | closed {id : FunctionId} {s t : List FunctionId} {journal : Journal} {entry : JournalEntry}
      {value : Value} : Closes entry value → Leads s journal t →
      Leads (id :: s) (entry :: .ended id value :: journal) t
  | failed {id : FunctionId} {s t : List FunctionId} {journal : Journal} (failure : Failure) :
      Leads s journal t → Leads (id :: s) (.ended id (.error failure) :: journal) t

namespace Leads
variable {s t u : List FunctionId} {journal before after : Journal}

theorem append (h : Leads s before t) (h' : Leads t after u) : Leads s (before ++ after) u := by
  induction h with
  | nil s => exact h'
  | called _ ih => exact .called (ih h')
  | closed closes _ ih => exact .closed closes (ih h')
  | failed failure _ ih => exact .failed failure (ih h')

theorem active_eq (h : Leads s journal t) : active s journal = t := by
  induction h with
  | nil s => rfl
  | called _ ih => exact ih
  | closed closes _ ih => cases closes <;> exact ih
  | failed failure _ ih => exact ih

/-- A journal falls into two, unless an entry is cut off from the end of the call that it ends. -/
theorem split (h : Leads s (before ++ after) t) :
    (∃ u, Leads s before u ∧ Leads u after t) ∨
      ∃ front entry id value u rest, before = front ++ [entry] ∧ Closes entry value ∧
        after = .ended id value :: rest ∧ Leads s front (id :: u) := by
  generalize same : before ++ after = journal at h
  induction h generalizing before with
  | nil s =>
      obtain ⟨rfl, rfl⟩ := List.append_eq_nil_iff.mp same
      exact .inl ⟨s, .nil s, .nil s⟩
  | @called id s t journal h ih =>
      rcases before with _ | ⟨first, before⟩
      · cases same
        exact .inl ⟨s, .nil s, .called h⟩
      · obtain ⟨rfl, tails⟩ := List.cons.inj same
        rcases ih tails with ⟨u, left, right⟩ | ⟨front, entry, _, _, u, rest, rfl, c, r, left⟩
        · exact .inl ⟨u, .called left, right⟩
        · exact .inr ⟨_ :: front, entry, _, _, u, rest, rfl, c, r, .called left⟩
  | @failed id s t journal failure h ih =>
      rcases before with _ | ⟨first, before⟩
      · cases same
        exact .inl ⟨_, .nil _, .failed failure h⟩
      · obtain ⟨rfl, tails⟩ := List.cons.inj same
        rcases ih tails with ⟨u, left, right⟩ | ⟨front, entry, _, _, u, rest, rfl, c, r, left⟩
        · exact .inl ⟨u, .failed failure left, right⟩
        · exact .inr ⟨_ :: front, entry, _, _, u, rest, rfl, c, r, .failed failure left⟩
  | @closed id s t journal entry value closes h ih =>
      rcases before with _ | ⟨first, _ | ⟨second, before⟩⟩
      · cases same
        exact .inl ⟨_, .nil _, .closed closes h⟩
      · obtain ⟨rfl, tails⟩ := List.cons.inj same
        exact .inr ⟨[], first, id, value, s, journal, rfl, closes, tails, .nil _⟩
      · obtain ⟨rfl, tails⟩ := List.cons.inj same
        obtain ⟨rfl, more⟩ := List.cons.inj tails
        rcases ih more with ⟨u, left, right⟩ | ⟨front, e, _, _, u, rest, rfl, c, r, left⟩
        · exact .inl ⟨u, .closed closes left, right⟩
        · exact .inr ⟨_ :: _ :: front, e, _, _, u, rest, rfl, c, r, .closed closes left⟩

theorem orderly (h : Leads [] journal t) : journal.Orderly where
  returned {before after value? value} same := by
    rcases split (same ▸ h) with ⟨u, left, right⟩ | ⟨_, _, _, _, _, _, -, -, other, -⟩
    · cases right with
      | closed closes _ =>
          cases closes with
          | returned bare => exact ⟨bare, _, _, _, left.active_eq, rfl⟩
    · cases other
  finished {before after} same := by
    rcases split (same ▸ h) with ⟨u, left, right⟩ | ⟨_, _, _, _, _, _, -, -, other, -⟩
    · cases right with
      | closed closes _ =>
          cases closes
          exact ⟨_, _, _, left.active_eq, rfl⟩
    · cases other
  ended {before after id value} same := by
    rcases split (same ▸ h) with ⟨u, left, right⟩ | ⟨front, entry, _, _, u, _, rfl, closes, r, left⟩
    · cases right with
      | closed closes _ => cases closes
      | failed failure _ => exact ⟨⟨_, left.active_eq⟩, .inr (.inr ⟨failure, rfl⟩)⟩
    · cases r
      have kept : active [] (front ++ [entry]) = active [] front := by
        rw [active_append]
        cases closes <;> rfl
      refine ⟨⟨u, kept.trans left.active_eq⟩, ?_⟩
      cases closes with
      | returned => exact .inl ⟨front, _, rfl⟩
      | finished => exact .inr (.inl ⟨front, rfl⟩)

end Leads

/-- The form of the journals of computations that raise no signals: they end all calls that they
begin, unless a halt cuts them short. -/
def form : LogForm JournalEntry where
  whole journal := ∀ s, Leads s journal s
  cut journal := ∀ s, ∃ t, Leads s journal t
  nil s := .nil s
  append h h' s := (h s).append (h' s)
  cut_of_whole h s := ⟨s, h s⟩
  append_cut h h' s := by
    obtain ⟨t, ht⟩ := h' s
    exact ⟨t, (h s).append ht⟩

theorem whole_call {new : Journal} (h : form.whole new) {entry : JournalEntry} {value : Value}
    (closes : Closes entry value) (id : FunctionId) :
    form.whole (.called id :: (new ++ [entry, .ended id value])) :=
  fun s => .called ((h (id :: s)).append (.closed closes (.nil s)))

theorem whole_failed {new : Journal} (h : form.whole new) (failure : Failure) (id : FunctionId) :
    form.whole (.called id :: (new ++ [.ended id (.error failure)])) :=
  fun s => .called ((h (id :: s)).append (.failed failure (.nil s)))

theorem cut_call {new : Journal} (h : form.cut new) (id : FunctionId) :
    form.cut (.called id :: new) := by
  intro s
  obtain ⟨t, ht⟩ := h (id :: s)
  exact ⟨t, .called ht⟩

end Journal

end Script
