import Script.Proofs.Sightings
import Script.Proofs.Unwinding

/-!
# Returns unwind to the innermost call

The run of a program is the same whether statements have completions or raise signals, and in the
journal of the run every return ends the innermost active call. The relation between both semantics
is one of ends: a statement that returns ends with a signal that is still to be caught, and whose
entry is the last in the journal; a call catches it and ends there. No signal to return leaves a
program that has been checked, since it has no return statements outside functions.
-/

namespace Script

namespace Unwinding
variable {α : Type}

/-- A computation that raises no signals, and does what another one does. -/
abbrev Shadows (x : Eval α) (y : Unwinding α) : Prop :=
  Logged.Shadows Journal.form Signal.halted x y

theorem observer_plain : Observer.Related Shadows Observer.plain observer where
  pure := .pure
  bind := .bind
  step {_ x} _ := .lift x
  onExpr _ _ _ _ h := h
  onDecl _ _ _ _ h := h
  onCall _ _ _ _ _ h := h.bind fun _ => .bind (.lift _) fun _ => .pure _
  onUnary _ _ _ := .lift _
  onBinary _ _ _ _ := .lift _
  inBody h := h.indented
  onAbort failure := .lift (traceAbort failure)

/-- How a statement ends under both semantics, where `journal` has been written before. -/
inductive Ends (journal : Journal) :
    EStateM.Result Halt Machine Completion → EStateM.Result Signal (Logged JournalEntry) Unit → Prop
  | normal {m : Machine} {new : Journal} : Journal.form.whole new →
      Ends journal (.ok .normal m) (.ok () ⟨m, journal ++ new⟩)
  | returned {value? : Option Expr} {value : Value} {m : Machine} {new : Journal} :
      (value? = none → value = .nil) → Journal.form.whole new →
      Ends journal (.ok (.returned value) m)
        (.error (.returned value) ⟨m, journal ++ (new ++ [.returned value? value])⟩)
  | aborted {failure : Failure} {m : Machine} {new : Journal} : Journal.form.whole new →
      Ends journal (.ok (.aborted failure) m) (.error (.aborted failure) ⟨m, journal ++ new⟩)
  | halted {reason : Halt} {m : Machine} {new : Journal} : Journal.form.cut new →
      Ends journal (.error reason m) (.error (.halted reason) ⟨m, journal ++ new⟩)

theorem Ends.behind {journal first : Journal} (whole : Journal.form.whole first)
    {r : EStateM.Result Halt Machine Completion}
    {r' : EStateM.Result Signal (Logged JournalEntry) Unit} (h : Ends (journal ++ first) r r') :
    Ends journal r r' := by
  cases h with
  | normal more =>
      rw [List.append_assoc]
      exact .normal (Journal.form.append whole more)
  | returned bare more =>
      rw [List.append_assoc, ← List.append_assoc first]
      exact .returned bare (Journal.form.append whole more)
  | aborted more =>
      rw [List.append_assoc]
      exact .aborted (Journal.form.append whole more)
  | halted more =>
      rw [List.append_assoc]
      exact .halted (Journal.form.append_cut whole more)

/-- A statement under both semantics. -/
def Mirrors (x : Eval Completion) (y : Unwinding Unit) : Prop :=
  ∀ m journal, Ends journal (x m) (y ⟨m, journal⟩)

namespace Mirrors

theorem normal : Mirrors (pure .normal) (pure ()) := by
  intro m journal
  have done : Ends journal (.ok .normal m) (.ok () ⟨m, journal ++ []⟩) :=
    .normal Journal.form.nil
  rwa [List.append_nil] at done

theorem aborted (failure : Failure) :
    Mirrors (pure (.aborted failure)) (throw (.aborted failure)) := by
  intro m journal
  have done : Ends journal (.ok (.aborted failure) m)
      (.error (.aborted failure) ⟨m, journal ++ []⟩) :=
    .aborted Journal.form.nil
  rwa [List.append_nil] at done

theorem halted (reason : Halt) : Mirrors (throw reason) (throw (.halted reason)) := by
  intro m journal
  have cut : Ends journal (.error reason m) (.error (.halted reason) ⟨m, journal ++ []⟩) :=
    .halted (Journal.form.cut_of_whole Journal.form.nil)
  rwa [List.append_nil] at cut

theorem leave {value? : Option Expr} {value : Value} (bare : value? = none → value = .nil) :
    Mirrors (pure (.returned value)) (leave value? value) := by
  intro m journal
  have left : Ends journal (.ok (.returned value) m)
      (.error (.returned value) ⟨m, journal ++ ([] ++ [.returned value? value])⟩) :=
    .returned bare Journal.form.nil
  exact left

theorem bind {x : Eval α} {y : Unwinding α} {f : α → Eval Completion} {g : α → Unwinding Unit}
    (h : Shadows x y) (hf : ∀ a, Mirrors (f a) (g a)) : Mirrors (x >>= f) (y >>= g) := by
  intro m journal
  have hx := h m journal
  generalize hm : x m = r, hm' : y ⟨m, journal⟩ = r' at hx
  cases hx with
  | halted cut =>
      rw [bind_of_error hm, bind_of_error hm']
      exact .halted cut
  | @ok a m' new whole =>
      rw [bind_of_ok hm, bind_of_ok hm']
      exact (hf a m' _).behind whole

theorem onValue {x : Eval Value} {y : Unwinding Value} {f : Value → Eval Completion}
    {g : Value → Unwinding Unit} (h : Shadows x y) (hf : ∀ v, Mirrors (f v) (g v)) :
    Mirrors (onValue x .aborted f) (need y >>= g) := by
  rw [need, bind_assoc]
  refine bind h fun v => ?_
  cases v with
  | error failure => exact aborted failure
  | _ => exact hf _

theorem onNormal {x x' : Eval Completion} {y y' : Unwinding Unit} (h : Mirrors x y)
    (h' : Mirrors x' y') :
    Mirrors (do match ← x with | .normal => x' | completion => pure completion) (do y; y') := by
  intro m journal
  have hx := h m journal
  generalize hm : x m = r, hm' : y ⟨m, journal⟩ = r' at hx
  cases hx with
  | normal whole =>
      rw [bind_of_ok hm, bind_of_ok hm']
      exact (h' _ _).behind whole
  | returned bare whole =>
      rw [bind_of_ok hm, bind_of_error hm']
      exact .returned bare whole
  | aborted whole =>
      rw [bind_of_ok hm, bind_of_error hm']
      exact .aborted whole
  | halted cut =>
      rw [bind_of_error hm, bind_of_error hm']
      exact .halted cut

theorem repeatWhile {condition : Eval Value} {condition' : Unwinding Value}
    {body : Eval Completion} {body' : Unwinding Unit} (hx : Shadows condition condition')
    (hb : Mirrors body body') (n : Nat) :
    Mirrors (Script.repeatWhile condition body n) (Unwinding.repeatWhile condition' body' n) := by
  induction n with
  | zero => exact halted _
  | succ n ih =>
      refine onValue hx fun value => ?_
      split
      · exact onNormal hb ih
      · exact normal

theorem inBlock (env : Env) {f : Env → Eval Completion} {g : Env → Unwinding Unit}
    (hf : ∀ env, Mirrors (f env) (g env)) :
    Mirrors (Script.inBlock env f) (Unwinding.inBlock env g) :=
  bind (.lift _) hf

theorem indented {x : Eval Completion} {y : Unwinding Unit} (h : Mirrors x y) :
    Mirrors (Eval.indented x) (Logged.indented y) := by
  intro m journal
  have body := h { m with trace := m.trace.indent } journal
  unfold Eval.indented Logged.indented
  dsimp only
  generalize x _ = r, y _ = r' at body
  cases body with
  | normal whole => exact .normal whole
  | returned bare whole => exact .returned bare whole
  | aborted whole => exact .aborted whole
  | halted cut => exact .halted cut

section Statements
variable {call : Caller} {call' : CallerIn Unwinding} {rounds : Nat}

theorem evalExpr (hc : ∀ id vs position, Shadows (call id vs position) (call' id vs position))
    (env : Env) (e : Expr) : Shadows (Script.evalExpr call env e) (evalExpr call' env e) := by
  rw [← Observer.evalExpr_plain]
  exact observer_plain.evalExpr hc env e

mutual

theorem execStmt (hc : ∀ id vs position, Shadows (call id vs position) (call' id vs position))
    (env : Env) : ∀ s,
    Mirrors (Script.execStmt call rounds env s) (Unwinding.execStmt call' rounds env s)
  | .block body => inBlock env fun env => execBody hc env body
  | .declare name value => by
      refine onValue (evalExpr hc env value) fun v => ?_
      rw [← bind_pure (step _)]
      exact bind (.lift _) fun _ => normal
  | .assign name value position => by
      refine onValue (evalExpr hc env value) fun v => bind (.lift _) fun bound => ?_
      split
      · exact normal
      · exact aborted _
  | .eval value => onValue (evalExpr hc env value) fun _ => normal
  | .branch condition body otherwise => by
      refine onValue (evalExpr hc env condition) fun v => ?_
      split
      · exact execStmt hc env body
      · exact execOtherwise hc env otherwise
  | .loop condition body =>
      repeatWhile (evalExpr hc env condition) (execStmt hc env body) rounds
  | .return_ none => leave fun _ => rfl
  | .return_ (some value) => by
      refine onValue (evalExpr hc env value) fun v => ?_
      exact leave nofun

theorem execOtherwise (hc : ∀ id vs position, Shadows (call id vs position) (call' id vs position))
    (env : Env) : ∀ e,
    Mirrors (Script.execOtherwise call rounds env e) (Unwinding.execOtherwise call' rounds env e)
  | .nothing => normal
  | .stmt s => execStmt hc env s

theorem execDecl (hc : ∀ id vs position, Shadows (call id vs position) (call' id vs position))
    (env : Env) : ∀ d,
    Mirrors (Script.execDecl call rounds env d) (Unwinding.execDecl call' rounds env d)
  | .function _ _ _ => by
      have define (value : Value) (name : Name) :
          Mirrors (do Eval.define env name value; return .normal)
            (step (Eval.define env name value)) := by
        rw [← bind_pure (step _)]
        exact bind (.lift _) fun _ => normal
      exact bind (.lift _) fun value => define value _
  | .stmt s => execStmt hc env s

theorem execBody (hc : ∀ id vs position, Shadows (call id vs position) (call' id vs position))
    (env : Env) : ∀ body,
    Mirrors (Script.execBody call rounds env body) (Unwinding.execBody call' rounds env body)
  | [] => normal
  | d :: rest => onNormal (execDecl hc env d) (execBody hc env rest)

end

end Statements

end Mirrors

/-- How the inside of a call ends under both semantics: with an entry behind which the call may
end, or with a failure. -/
inductive Returns (journal : Journal) :
    EStateM.Result Halt Machine Value → EStateM.Result Signal (Logged JournalEntry) Value → Prop
  | closed {entry : JournalEntry} {value : Value} {m : Machine} {new : Journal} :
      Journal.Closes entry value → Journal.form.whole new →
      Returns journal (.ok value m) (.ok value ⟨m, journal ++ (new ++ [entry])⟩)
  | failed {failure : Failure} {m : Machine} {new : Journal} : Journal.form.whole new →
      Returns journal (.ok (.error failure) m) (.ok (.error failure) ⟨m, journal ++ new⟩)
  | halted {reason : Halt} {m : Machine} {new : Journal} : Journal.form.cut new →
      Returns journal (.error reason m) (.error (.halted reason) ⟨m, journal ++ new⟩)

/-- The inside of a call under both semantics. -/
def Answers (x : Eval Value) (y : Unwinding Value) : Prop :=
  ∀ m journal, Returns journal (x m) (y ⟨m, journal⟩)

theorem tryCatch_of_ok {ε σ : Type} {x : EStateM ε σ α} {handle : ε → EStateM ε σ α} {s t : σ}
    {a : α} (h : x s = .ok a t) : tryCatch x handle s = .ok a t := by
  change EStateM.tryCatch x handle s = _
  rw [EStateM.tryCatch, h]

theorem tryCatch_of_error {ε σ : Type} {x : EStateM ε σ α} {handle : ε → EStateM ε σ α} {s t : σ}
    {reason : ε} (h : x s = .error reason t) : tryCatch x handle s = handle reason t := by
  change EStateM.tryCatch x handle s = _
  rw [EStateM.tryCatch, h]
  rfl

namespace Answers

theorem missing : Answers (pure .nil) (do record .finished; pure .nil) := by
  intro m journal
  have done : Returns journal (.ok .nil m) (.ok .nil ⟨m, journal ++ ([] ++ [.finished])⟩) :=
    .closed .finished Journal.form.nil
  exact done

theorem failed (failure : Failure) : Answers (pure (.error failure)) (pure (.error failure)) := by
  intro m journal
  have done : Returns journal (.ok (.error failure) m) (.ok (.error failure) ⟨m, journal ++ []⟩) :=
    .failed Journal.form.nil
  rwa [List.append_nil] at done

theorem step {x : Eval α} {f : α → Eval Value} {g : α → Unwinding Value}
    (hf : ∀ a, Answers (f a) (g a)) : Answers (x >>= f) (Unwinding.step x >>= g) := by
  intro m journal
  cases hm : x m with
  | ok a m' =>
      have lifted : Unwinding.step x ⟨m, journal⟩ = .ok a ⟨m', journal⟩ := by
        rw [Unwinding.step, Logged.lift, hm]
      rw [bind_of_ok hm, bind_of_ok lifted]
      exact hf a m' journal
  | error reason m' =>
      have lifted : Unwinding.step x ⟨m, journal⟩ =
          .error (.halted reason) ⟨m', journal ++ []⟩ := by
        rw [Unwinding.step, Logged.lift, hm, List.append_nil]
      rw [bind_of_error hm, bind_of_error lifted]
      exact .halted (Journal.form.cut_of_whole Journal.form.nil)

theorem catching {x : Eval Completion} {y : Unwinding Unit} (h : Mirrors x y) :
    Answers (do
        match ← x with
        | .normal => return .nil
        | .returned value => return value
        | .aborted failure => return .error failure)
      (catching y) := by
  intro m journal
  have body := h m journal
  generalize hm : x m = r, hm' : y ⟨m, journal⟩ = r' at body
  cases body with
  | @normal m' new whole =>
      have done : (do y; record .finished; return .nil : Unwinding Value) ⟨m, journal⟩ =
          .ok .nil ⟨m', journal ++ (new ++ [.finished])⟩ := by
        rw [bind_of_ok hm', ← List.append_assoc]
        rfl
      rw [bind_of_ok hm, Unwinding.catching, tryCatch_of_ok done]
      exact .closed .finished whole
  | returned bare whole =>
      rw [bind_of_ok hm, Unwinding.catching, tryCatch_of_error (bind_of_error hm')]
      exact .closed (.returned bare) whole
  | aborted whole =>
      rw [bind_of_ok hm, Unwinding.catching, tryCatch_of_error (bind_of_error hm')]
      exact .failed whole
  | halted cut =>
      rw [bind_of_error hm, Unwinding.catching, tryCatch_of_error (bind_of_error hm')]
      exact .halted cut

/-- A whole call is in the journal from its beginning to its end. -/
theorem recorded {x : Eval Value} {y : Unwinding Value} (h : Answers x y) (id : FunctionId) :
    Shadows x (do
      record (.called id)
      let value ← y
      record (.ended id value)
      return value) := by
  intro m journal
  have inside := h m (journal ++ [.called id])
  change Logged.Alongside Journal.form .halted journal (x m)
    ((y >>= fun value => do record (.ended id value); return value)
      ⟨m, journal ++ [.called id]⟩)
  generalize hm : x m = r, hm' : y ⟨m, journal ++ [.called id]⟩ = r' at inside
  cases inside with
  | @closed entry value m' new closes whole =>
      rw [bind_of_ok hm']
      change Logged.Alongside _ _ journal _
        (.ok value ⟨m', journal ++ [.called id] ++ (new ++ [entry]) ++ [.ended id value]⟩)
      have one : journal ++ [.called id] ++ (new ++ [entry]) ++ [.ended id value] =
          journal ++ .called id :: (new ++ [entry, .ended id value]) := by simp
      rw [one]
      exact .ok (Journal.whole_call whole closes id)
  | @failed failure m' new whole =>
      rw [bind_of_ok hm']
      change Logged.Alongside _ _ journal _
        (EStateM.Result.ok _ ⟨m', journal ++ [.called id] ++ new ++ [.ended id (.error failure)]⟩)
      have one : journal ++ [.called id] ++ new ++ [.ended id (.error failure)] =
          journal ++ .called id :: (new ++ [.ended id (.error failure)]) := by simp
      rw [one]
      exact .ok (Journal.whole_failed whole failure id)
  | halted cut =>
      rw [bind_of_error hm', List.append_assoc]
      exact .halted (Journal.cut_call cut id)

end Answers

/-- Calls raise no signals. By induction on the depth: the bodies of functions may call functions
one level deeper. -/
theorem shadows_callFunction (rounds depth : Nat) (id : FunctionId) (arguments : List Value)
    (position : Position) :
    Shadows (Script.callFunction rounds depth id arguments position)
      (callFunction rounds depth id arguments position) := by
  induction depth generalizing id arguments position with
  | zero =>
      intro m journal
      have cut : Logged.Alongside (α := Value) Journal.form Signal.halted journal
          (EStateM.Result.error .recursion m)
          (EStateM.Result.error (.halted .recursion) ⟨m, journal ++ []⟩) :=
        .halted (Journal.form.cut_of_whole Journal.form.nil)
      rwa [List.append_nil] at cut
  | succ depth ih =>
      refine Answers.recorded (Answers.step fun closure => ?_) id
      cases closure with
      | none => exact .missing
      | some f =>
          dsimp only
          split
          · exact .step fun env => .catching (.indented (.execBody ih env f.body))
          · exact .failed _

/-- A run of a program whose statements outside functions do not return. -/
theorem exists_outcome_run {budget : Budget} {program : Program} {m : Machine}
    (stays : ∀ value m', Script.execBody budget.caller budget.rounds Machine.globalEnv program m ≠
      .ok (.returned value) m') (journal : Journal) :
    ∃ new, Journal.form.cut new ∧ run budget program ⟨m, journal⟩ =
      Logged.outcome .halted (journal ++ new) (program.run budget m) := by
  have mirrors : Mirrors
      (Script.execBody budget.caller budget.rounds Machine.globalEnv program)
      (execBody (callFunction budget.rounds budget.depth) budget.rounds Machine.globalEnv
        program) :=
    .execBody (shadows_callFunction budget.rounds budget.depth) Machine.globalEnv program
  have body := mirrors m journal
  generalize hm : Script.execBody _ _ _ _ m = r at stays body
  generalize hm' : execBody _ _ _ _ ⟨m, journal⟩ = r' at body
  unfold Program.run run
  cases body with
  | @normal m' new whole =>
      have done : (do
          execBody (callFunction budget.rounds budget.depth) budget.rounds Machine.globalEnv program
          return none : Unwinding (Option Failure)) ⟨m, journal⟩ = .ok none ⟨m', journal ++ new⟩ :=
        bind_of_ok hm'
      rw [bind_of_ok hm, tryCatch_of_ok done]
      exact ⟨new, Journal.form.cut_of_whole whole, rfl⟩
  | returned => exact absurd rfl (stays _ _)
  | @aborted failure m' new whole =>
      have last : Shadows (do traceAbort failure; return some failure)
          (do step (traceAbort failure); return some failure) :=
        .bind (.lift _) fun _ => .pure _
      obtain ⟨more, cut, same⟩ := last.exists_outcome ⟨m', journal ++ new⟩
      rw [bind_of_ok hm, tryCatch_of_error (bind_of_error hm')]
      rw [List.append_assoc] at same
      exact ⟨new ++ more, Journal.form.append_cut whole cut, same⟩
  | @halted reason m' new cut =>
      rw [bind_of_error hm, tryCatch_of_error (bind_of_error hm')]
      exact ⟨new, cut, rfl⟩

end Unwinding

/-- A statement that never returns. -/
def Eval.Stays (x : Eval Completion) : Prop :=
  ∀ m value m', x m ≠ .ok (.returned value) m'

namespace Eval.Stays
variable {α : Type}

theorem normal : Stays (pure .normal) := by
  intro m value m' same
  cases same

theorem aborted (failure : Failure) : Stays (pure (.aborted failure)) := by
  intro m value m' same
  cases same

theorem halt (reason : Halt) : Stays (throw reason) := by
  intro m value m' same
  cases same

theorem bind {x : Eval α} {f : α → Eval Completion} (hf : ∀ a, Stays (f a)) : Stays (x >>= f) := by
  intro m value m'
  cases hm : x m with
  | ok a t =>
      rw [bind_of_ok hm]
      exact hf a t value m'
  | error reason t =>
      rw [bind_of_error hm]
      nofun

theorem onValue {x : Eval Value} {f : Value → Eval Completion} (hf : ∀ v, Stays (f v)) :
    Stays (onValue x .aborted f) := by
  refine bind fun v => ?_
  cases v with
  | error failure => exact aborted failure
  | _ => exact hf _

theorem onNormal {x x' : Eval Completion} (h : Stays x) (h' : Stays x') :
    Stays (do match ← x with | .normal => x' | completion => Pure.pure completion) := by
  intro m value m'
  cases hm : x m with
  | ok completion t =>
      rw [bind_of_ok hm]
      cases completion with
      | normal => exact h' t value m'
      | returned value => exact absurd hm (h m value t)
      | aborted failure => nofun
  | error reason t =>
      rw [bind_of_error hm]
      nofun

theorem repeatWhile {condition : Eval Value} {body : Eval Completion} (h : Stays body) (n : Nat) :
    Stays (repeatWhile condition body n) := by
  induction n with
  | zero => exact halt .exhausted
  | succ n ih =>
      refine onValue fun v => ?_
      split
      · exact onNormal h ih
      · exact normal

end Eval.Stays

theorem ok_of_andThen {x y : Except RuleError Unit} (h : (do x; y) = .ok ()) :
    x = .ok () ∧ y = .ok () := by
  cases x with
  | error e => cases h
  | ok u => exact ⟨rfl, h⟩

section Checked
open Eval
variable {call : Caller} {rounds : Nat}

mutual

/-- A statement that may stand outside functions does not return. -/
theorem Stmt.stays_of_check (env : Env) :
    ∀ {s : Stmt}, s.check false = .ok () → Stays (execStmt call rounds env s)
  | .block _, h => .bind fun env => stays_of_checkBody env h
  | .declare _ _, _ => .onValue fun _ => .bind fun _ => .normal
  | .assign _ _ _, _ => by
      refine .onValue fun _ => .bind fun bound => ?_
      split
      · exact .normal
      · exact .aborted _
  | .eval _, _ => .onValue fun _ => .normal
  | .branch _ _ _, h => by
      obtain ⟨body, otherwise⟩ := ok_of_andThen h
      refine .onValue fun _ => ?_
      split
      · exact Stmt.stays_of_check env body
      · exact Otherwise.stays_of_check env otherwise
  | .loop _ body, h => .repeatWhile (Stmt.stays_of_check env (s := body) h) rounds
  | .return_ _, h => by cases h

theorem Otherwise.stays_of_check (env : Env) :
    ∀ {o : Otherwise}, o.check false = .ok () → Stays (execOtherwise call rounds env o)
  | .nothing, _ => .normal
  | .stmt _, h => Stmt.stays_of_check env h

/-- The bodies of functions may return, but declaring a function does not execute its body. -/
theorem Decl.stays_of_check (env : Env) :
    ∀ {d : Decl}, d.check false = .ok () → Stays (execDecl call rounds env d)
  | .function _ _ _, _ => .bind fun _ => .bind fun _ => .normal
  | .stmt _, h => Stmt.stays_of_check env h

theorem stays_of_checkBody (env : Env) :
    ∀ {body : List Decl}, checkBody false body = .ok () → Stays (execBody call rounds env body)
  | [], _ => .normal
  | _ :: _, h => by
      obtain ⟨first, others⟩ := ok_of_andThen h
      exact .onNormal (Decl.stays_of_check env first) (stays_of_checkBody env others)

end

end Checked

/-- No evaluation halts for want of a function to return from. -/
theorem execBody_ne_strayReturn (budget : Budget) (env : Env) (body : List Decl) (m m' : Machine) :
    execBody budget.caller budget.rounds env body m ≠ .error .strayReturn m' := by
  intro halts
  have same : Observer.plain.execBody (Observer.plain.callFunction budget.rounds budget.depth)
      budget.rounds env body = execBody budget.caller budget.rounds env body := by
    rw [Observer.execBody_plain, Observer.callFunction_plain]
    rfl
  have related := Watched.plain_watching
  have shadows : Watched.Shadows (execBody budget.caller budget.rounds env body)
      (Observer.watching.execBody (Observer.watching.callFunction budget.rounds budget.depth)
        budget.rounds env body) := by
    rw [← same]
    exact related.execBody (related.callFunction _ _) env body
  obtain ⟨sights, -, watched⟩ := shadows.exists_outcome ⟨m, []⟩
  have keeps :=
    Observer.watching_keeps (V := fun _ => True) (fun _ _ => trivial) fun _ other => other
  have left : Watched.Leaves (fun _ => True) (· ≠ .strayReturn) (Completion.Carries fun _ => True)
      (Observer.watching.execBody (Observer.watching.callFunction budget.rounds budget.depth)
        budget.rounds env body ⟨m, []⟩) :=
    keeps.execBody (keeps.callFunction budget.rounds budget.depth) () env body ⟨m, []⟩
      ⟨⟨fun _ _ _ => trivial, fun _ _ _ => trivial⟩, fun _ mem => absurd mem List.not_mem_nil⟩
  rw [watched, halts] at left
  exact left.2 rfl

/-- No run of a checked program halts for want of a function to return from. -/
theorem Program.run_ne_strayReturn (budget : Budget) (program : Program)
    (accepted : program.check = .ok ()) (m m' : Machine) :
    program.run budget m ≠ .error .strayReturn m' := by
  have stays : (execBody budget.caller budget.rounds Machine.globalEnv program).Stays :=
    stays_of_checkBody Machine.globalEnv accepted
  have other := execBody_ne_strayReturn budget Machine.globalEnv program m
  unfold Program.run
  cases hm : execBody budget.caller budget.rounds Machine.globalEnv program m with
  | error reason t =>
      rw [bind_of_error hm]
      rintro ⟨⟩
      exact other _ hm
  | ok completion t =>
      rw [bind_of_ok hm]
      cases completion with
      | normal => nofun
      | returned value => exact absurd hm (stays m value t)
      | aborted failure => nofun

/-- Returns unwind to the innermost call. In the semantics with signals, the run of a checked
program ends as the program does, with a failure or none, and no signal leaves it but a halt for
other reasons than a stray return. Its journal is orderly: each return ends the innermost active
call, which has the returned value. Expressions raise no signals but halts in any program and from
any state. -/
theorem Program.run_unwinding (budget : Budget) (program : Program)
    (accepted : program.check = .ok ()) (m : Machine) :
    (∃ journal : Journal, journal.Orderly ∧ Unwinding.run budget program ⟨m, []⟩ =
      Logged.outcome .halted journal (program.run budget m)) ∧
    (∀ m', program.run budget m ≠ .error .strayReturn m') ∧
    ∀ (env : Env) (e : Expr) (s : Logged JournalEntry), ∃ journal : Journal,
      Unwinding.evalExpr (Unwinding.callFunction budget.rounds budget.depth) env e s =
        Logged.outcome .halted (s.log ++ journal) (evalExpr budget.caller env e s.machine) := by
  have stays : (execBody budget.caller budget.rounds Machine.globalEnv program).Stays :=
    stays_of_checkBody Machine.globalEnv accepted
  refine ⟨?_, program.run_ne_strayReturn budget accepted m, fun env e s => ?_⟩
  · obtain ⟨journal, cut, same⟩ := Unwinding.exists_outcome_run (stays m) []
    obtain ⟨active, leads⟩ := cut []
    exact ⟨journal, leads.orderly, same⟩
  · have calls := Unwinding.shadows_callFunction budget.rounds budget.depth
    obtain ⟨journal, -, same⟩ := (Unwinding.Mirrors.evalExpr calls env e).exists_outcome s
    exact ⟨journal, same⟩

/-- A function that returns out of a branch in a loop, with the value of a call of itself. -/
theorem Program.run_unwinding_nested :
    let program : Program :=
      [.function (text "f") [text "outer"] [.stmt (.loop (.literal (.boolean true)) (.block
          [.stmt (.branch (.name (text "outer") ⟨2, 7⟩)
              (.return_ (some (.call (text "f") [.literal (.boolean false)] ⟨3, 14⟩))) .nothing),
            .stmt (.return_ none)]))],
        .stmt (.eval (.call (text "f") [.literal (.boolean true)] ⟨7, 1⟩))]
    let m := Machine.initial ⟨[], none⟩ (.empty true 3)
    program.check = .ok () ∧
    (∃ journal : Journal, journal.Orderly ∧ Unwinding.run .standard program ⟨m, []⟩ =
      Logged.outcome .halted journal (program.run .standard m)) ∧
    (∀ m', program.run .standard m ≠ .error .strayReturn m') ∧
    ∀ (env : Env) (e : Expr) (s : Logged JournalEntry), ∃ journal : Journal,
      Unwinding.evalExpr (Unwinding.callFunction Budget.standard.rounds Budget.standard.depth)
          env e s =
        Logged.outcome .halted (s.log ++ journal)
          (evalExpr Budget.standard.caller env e s.machine) :=
  ⟨rfl, Program.run_unwinding .standard _ rfl _⟩

/-- A return in a block ends the call of the function, and a call in its value has ended before. -/
example :
    (Logged.final (Unwinding.run ⟨2, 1⟩
      [.function (text "f") [text "x"]
          [.stmt (.block [.stmt (.return_ (some (.name (text "x") ⟨1, 20⟩)))])],
        .function (text "g") []
          [.stmt (.block
              [.stmt (.return_ (some (.call (text "f") [.literal (.integer 7)] ⟨2, 20⟩)))]),
            .stmt (.eval (.name (text "unbound") ⟨2, 30⟩))],
        .stmt (.eval (.call (text "g") [] ⟨3, 1⟩))]
      ⟨.initial ⟨[], none⟩ (.empty false 3), []⟩)).log =
      [.called 1, .called 0, .returned (some (.name (text "x") ⟨1, 20⟩)) (.integer 7),
        .ended 0 (.integer 7),
        .returned (some (.call (text "f") [.literal (.integer 7)] ⟨2, 20⟩)) (.integer 7),
        .ended 1 (.integer 7)] := by
  cbv

end Script
