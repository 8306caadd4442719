import Script.Proofs.Blame
import Script.Proofs.SourcePositions

/-!
# What the failures of runs point at

Functions are called far from where they are written, and failures cross many calls. Yet the failure
that aborts a program is explained by a node of this program or by a call of a built-in function,
since the nodes of all functions that exist in a run are nodes of the program: all of them have been
made from its declarations.

Which failures a step may have depends on the node that it is taken at. Upkeep in scopes allows all
failures everywhere, so the induction over the code is carried out here along its nodes.
-/

namespace Script

section Evaluation
variable {nodes : List Node} {log : List Moment} {call : CallerIn Narrated} {rounds : Nat}

/-- Calls that are written in the program, with arguments that are no failures, are explained. -/
def CallsExplained (nodes : List Node) (call : CallerIn Narrated) : Prop :=
  ∀ log id arguments position, (∃ callee, .call callee position ∈ nodes) →
    (∀ v ∈ arguments, v.kind ≠ .error) →
    Explains nodes log (call id arguments position) (Value.Explained nodes)

mutual

theorem explains_evalExpr (hc : CallsExplained nodes call) (env : Env) (log : List Moment) :
    ∀ e : Expr, e.nodes ⊆ nodes →
      Explains nodes log (Observer.narrating.evalExpr call env e) (Value.Explained nodes)
  | .literal l, _ => .onExpr fun _ =>
      .pure (Value.explained_of_kind (by cases l <;> simp [Literal.value]))
  | .name n p, sub => .onExpr fun _ => .resolve env (List.cons_subset.mp sub).1 (.name n p)
  | .array elements, sub => .onExpr fun log =>
      .onValues (explains_evalAll hc env log elements sub) (fun _ _ => Failure.Explained.value)
        fun _ values all => .newArray fun v mem => all v (List.mem_toArray.mp mem)
  | .call callee arguments p, sub => by
      obtain ⟨here, sub⟩ := List.cons_subset.mp sub
      refine .onExpr fun log => .onValue (.resolve env here (.callee callee p))
        (fun _ _ => Failure.Explained.value) fun log function _ => ?_
      refine .onValues (explains_evalAll hc env log arguments sub)
        (fun _ _ => Failure.Explained.value) fun log values all => ?_
      cases function with
      | builtin b => exact .builtin callee b all
      | function id =>
          have called (log : List Moment) := hc log id values p ⟨callee, here⟩ all
          exact .onCall callee _ values
            (.between (fun log _ => called log) fun _ _ _ le hv _ => Value.Explained.mono hv le)
      | _ =>
          refine .pure fun failure same => .inl ⟨_, here, ?_⟩
          cases same
          exact .notAFunction _ callee p
  | .index target index p, sub => by
      obtain ⟨here, sub⟩ := List.cons_subset.mp sub
      obtain ⟨sub, sub'⟩ := List.append_subset.mp sub
      refine .onExpr fun log => .onValue (explains_evalExpr hc env log target sub)
        (fun _ _ => Failure.Explained.value) fun log t _ => ?_
      refine .onValue (explains_evalExpr hc env log index sub')
        (fun _ _ => Failure.Explained.value) fun log i _ => ?_
      exact .consults (.indexValue t i p) (.indexValue t i p) here fun _ arises => arises
  | .unary op operand p, sub => by
      obtain ⟨here, sub⟩ := List.cons_subset.mp sub
      refine .onExpr fun log => .onValue (explains_evalExpr hc env log operand sub)
        (fun _ _ => Failure.Explained.value) fun log v _ => ?_
      exact .consults (.tracedUnary op v p) (.tracedUnary op v p) here fun _ arises => arises
  | .binary op left right p, sub => by
      obtain ⟨here, sub⟩ := List.cons_subset.mp sub
      obtain ⟨sub, sub'⟩ := List.append_subset.mp sub
      refine .onExpr fun log => .onValue (explains_evalExpr hc env log left sub)
        (fun _ _ => Failure.Explained.value) fun log l _ => ?_
      refine .onValue (explains_evalExpr hc env log right sub')
        (fun _ _ => Failure.Explained.value) fun log r _ => ?_
      exact .consults (.tracedBinary op l r p) (.tracedBinary op l r p) here fun _ arises => arises

theorem explains_evalAll (hc : CallsExplained nodes call) (env : Env) (log : List Moment) :
    ∀ es : List Expr, listedNodes es ⊆ nodes →
      Explains nodes log (Observer.narrating.evalAll call env es) (ValuesExplained nodes)
  | [], _ => .pure fun _ mem => absurd mem List.not_mem_nil
  | e :: rest, sub => by
      obtain ⟨sub, sub'⟩ := List.append_subset.mp sub
      refine .onValue (explains_evalExpr hc env log e sub) (fun _ _ h => h) fun log v hv => ?_
      refine .onValues (explains_evalAll hc env log rest sub') (fun _ _ h => h)
        fun log values all => .pure ?_
      exact List.forall_mem_cons.mpr ⟨hv, all⟩

end

theorem Explains.repeatWhile {condition : Narrated Value} {body : Narrated Completion}
    (hx : ∀ log, Explains nodes log condition (Value.Explained nodes))
    (hb : ∀ log, Explains nodes log body (Completion.Explained nodes)) (log : List Moment)
    (n : Nat) : Explains nodes log (Observer.narrating.repeatWhile condition body n)
      (Completion.Explained nodes) := by
  induction n generalizing log with
  | zero => exact .halt _
  | succ n ih =>
      refine .onValue (hx log) (fun _ _ h => h) fun log value _ => ?_
      split
      · exact .onNormal (hb log) ih
      · exact .pure trivial

theorem Explains.inBlock (env : Env) {run : Env → Narrated Completion}
    (h : ∀ log env, Explains nodes log (run env) (Completion.Explained nodes)) :
    Explains nodes log (Observer.narrating.inBlock env run) (Completion.Explained nodes) :=
  (newScope _ env fun _ mem => absurd mem List.not_mem_nil).bind fun log env _ _ => h log env

theorem Explains.branch {condition : Narrated Value} {body otherwise : Narrated Completion}
    (hx : Explains nodes log condition (Value.Explained nodes))
    (hb : ∀ log, Explains nodes log body (Completion.Explained nodes))
    (ho : ∀ log, Explains nodes log otherwise (Completion.Explained nodes)) :
    Explains nodes log (Script.onValue condition .aborted fun value =>
      if value.isTruthy then body else otherwise) (Completion.Explained nodes) := by
  refine .onValue hx (fun _ _ h => h) fun log value _ => ?_
  split
  · exact hb log
  · exact ho log

mutual

theorem explains_execStmt (hc : CallsExplained nodes call) (env : Env) (log : List Moment) :
    ∀ s : Stmt, s.nodes ⊆ nodes → Explains nodes log
      (Observer.narrating.execStmt call rounds env s) (Completion.Explained nodes)
  | .block body, sub => .onDecl fun _ => .inBlock env fun log env =>
      explains_execBody hc env log body sub
  | .declare name value, sub => by
      refine .onDecl fun log => .onValue (explains_evalExpr hc env log value sub)
        (fun _ _ h => h) fun log v hv => ?_
      exact (Explains.define env name hv).bind fun _ _ _ _ => .pure trivial
  | .assign name value p, sub => by
      obtain ⟨here, sub⟩ := List.cons_subset.mp sub
      refine .onDecl fun log => .onValue (explains_evalExpr hc env log value sub)
        (fun _ _ h => h) fun log v hv => ?_
      refine (Explains.assign env name hv).bind fun log bound _ _ => ?_
      cases bound with
      | true => exact .pure trivial
      | false => exact .pure (.inl ⟨_, here, .assigned name p⟩)
  | .eval value, sub => .onDecl fun log =>
      .onValue (explains_evalExpr hc env log value sub) (fun _ _ h => h) fun _ _ _ => .pure trivial
  | .branch condition body otherwise, sub => by
      obtain ⟨sub, sub₃⟩ := List.append_subset.mp sub
      obtain ⟨sub₁, sub₂⟩ := List.append_subset.mp sub
      exact .onDecl fun log => .branch (explains_evalExpr hc env log condition sub₁)
        (fun log => explains_execStmt hc env log body sub₂)
        fun log => explains_execOtherwise hc env log otherwise sub₃
  | .loop condition body, sub => by
      obtain ⟨sub₁, sub₂⟩ := List.append_subset.mp sub
      exact .onDecl fun log => .repeatWhile
        (fun log => explains_evalExpr hc env log condition sub₁)
        (fun log => explains_execStmt hc env log body sub₂) log _
  | .return_ none, _ => .onDecl fun _ => .pure (by simp [Completion.Explained])
  | .return_ (some value), sub => .onDecl fun log =>
      .onValue (explains_evalExpr hc env log value sub) (fun _ _ h => h) fun _ _ hv => .pure hv

theorem explains_execOtherwise (hc : CallsExplained nodes call) (env : Env) (log : List Moment) :
    ∀ o : Otherwise, o.nodes ⊆ nodes → Explains nodes log
      (Observer.narrating.execOtherwise call rounds env o) (Completion.Explained nodes)
  | .nothing, _ => .pure trivial
  | .stmt s, sub => explains_execStmt hc env log s sub

theorem explains_execDecl (hc : CallsExplained nodes call) (env : Env) (log : List Moment) :
    ∀ d : Decl, d.nodes ⊆ nodes → Explains nodes log
      (Observer.narrating.execDecl call rounds env d) (Completion.Explained nodes)
  | .function name parameters body, sub => by
      refine .onDecl fun log => (Explains.newFunction name parameters env sub).bind ?_
      intro log value _ hvalue
      exact (Explains.define env name hvalue).bind fun _ _ _ _ => .pure trivial
  | .stmt s, sub => explains_execStmt hc env log s sub

theorem explains_execBody (hc : CallsExplained nodes call) (env : Env) (log : List Moment) :
    ∀ body : List Decl, bodyNodes body ⊆ nodes → Explains nodes log
      (Observer.narrating.execBody call rounds env body) (Completion.Explained nodes)
  | [], _ => .pure trivial
  | d :: rest, sub => by
      obtain ⟨sub, sub'⟩ := List.append_subset.mp sub
      exact .onNormal (explains_execDecl hc env log d sub) fun log =>
        explains_execBody hc env log rest sub'

end

/-- A call is explained by what it executes, or by the node that it is written at. -/
theorem callsExplained_callFunction (depth : Nat) :
    CallsExplained nodes (Observer.narrating.callFunction rounds depth) := by
  induction depth with
  | zero => exact fun _ _ _ _ _ _ => .halt _
  | succ depth ih =>
      rintro log id arguments p ⟨callee, here⟩ all
      refine (Explains.closure id).bind fun log f? _ hf => ?_
      cases f? with
      | none => exact .pure (Value.explained_of_kind (by simp))
      | some f =>
          dsimp only
          split
          · refine (Explains.newScope f.name f.env fun binding mem => ?_).bind fun log env _ _ => ?_
            · exact all _ (List.of_mem_zip (Bindings.mem_ofList mem)).2
            · have body : Explains nodes log (Observer.narrating.execBody
                  (Observer.narrating.callFunction rounds depth) rounds env f.body)
                  (Completion.Explained nodes) := explains_execBody ih env log f.body (hf f rfl)
              refine body.indented.bind fun log c _ hc => ?_
              cases c with
              | normal => exact .pure (Value.explained_of_kind (by simp))
              | returned value => exact .pure (Value.explained_of_kind hc)
              | aborted failure => exact .pure (Failure.Explained.value hc)
          · exact .pure (Failure.Explained.value (.inl ⟨_, here, .arity f.name _ _ callee p⟩))

theorem explains_run (budget : Budget) {program : Program} (sub : bodyNodes program ⊆ nodes) :
    Explains nodes log (Observer.narrating.run budget program) fun log failure? =>
      ∀ failure ∈ failure?, failure.Explained nodes log := by
  have body : Explains nodes log (Observer.narrating.execBody (Narrated.caller budget)
      budget.rounds Machine.globalEnv program) (Completion.Explained nodes) :=
    explains_execBody (callsExplained_callFunction budget.depth) Machine.globalEnv log program sub
  refine body.bind fun log c _ hc => ?_
  cases c with
  | normal => exact .pure (by simp)
  | returned _ => exact .halt _
  | aborted failure =>
      have traced : Explains nodes log (Narrated.step (traceAbort failure)) fun _ _ => True :=
        .looks (Traces.line _).looks fun _ _ _ _ _ => trivial
      refine traced.bind fun log' _ le _ => .pure fun failure same => ?_
      cases same
      exact Failure.Explained.mono hc le

end Evaluation

/-! ### Whole runs -/

/-- Where a failure that ends the run of a source comes from, and what is shown of it: a built-in
function has returned it and no position is shown, or it arose at a node of the program, whose
position is shown in front of the message. A name that was not found stands there in the source. -/
inductive Failure.Located (source : Text) (program : Program) (log : List Moment)
    (failure : Failure) : Prop
  | returned (b : Builtin) (arguments : List Value) :
      .answered (.builtin b) arguments (.error failure) ∈ log → failure.position = .nowhere →
      failure.display = failure.message → Located source program log failure
  | arisen (node : Node) : node ∈ bodyNodes program → failure.ArisesAt node →
      failure.position = node.position → 1 ≤ failure.position.line →
      1 ≤ failure.position.column →
      failure.display = failure.position.display ++ text ": " ++ failure.message →
      (∀ n, failure.cause = .unboundName n → failure.position.IsIn source (some n)) →
      Located source program log failure

theorem Failure.Explained.located [CharacterNames] {source : Text} {program : Program}
    {log : List Moment} {failure : Failure} (parsed : Program.parse source = .ok program)
    (h : failure.Explained (bodyNodes program) log) : failure.Located source program log := by
  obtain ⟨node, mem, arises⟩ | ⟨unplaced, b, arguments, told⟩ := h
  · have stands := Program.isIn_of_parse parsed node mem
    have placed : 1 ≤ failure.position.line ∧ 1 ≤ failure.position.column :=
      arises.position_eq ▸ stands.one_le
    have somewhere : failure.position ≠ .nowhere := by
      intro same
      rw [same] at placed
      exact absurd placed.1 (by decide)
    refine .arisen node mem arises arises.position_eq placed.1 placed.2 (if_neg somewhere) ?_
    intro n unbound
    obtain ⟨cause, p⟩ := failure
    subst unbound
    rw [arises.position_eq, ← arises.name?_eq]
    exact stands
  · exact .returned b arguments told unplaced (if_pos unplaced)

theorem Program.parse_of_load [CharacterNames] {source : Text} {program : Program}
    (loaded : Program.load source = .ok program) : Program.parse source = .ok program := by
  unfold load at loaded
  split at loaded
  · cases loaded
  · next parsed =>
      split at loaded
      · cases loaded
      · cases loaded
        exact parsed

theorem Machine.exists_of_failed [CharacterNames] {budget : Budget} {source : Text} {m : Machine}
    {failure : Failure} (failed : (m.runSource budget source).1 = .failed failure) :
    ∃ program m', Program.load source = .ok program ∧
      program.run budget m = .ok (some failure) m' := by
  unfold runSource at failed
  split at failed
  · cases failed
  · next program loaded =>
      split at failed
      · cases failed
      · next done =>
          cases failed
          exact ⟨program, _, loaded, done⟩
      · cases failed

/-- The failure that ends a run points at its cause. Either a call of a built-in function returned
it, and it has no position and shows none; or it has the position of a node of the program, of the
kind that it speaks of, and shows it. The source has the name that was not found at this position,
written out in full. -/
theorem Machine.failure_located [CharacterNames] {budget : Budget} {source : Text} {input : Input}
    {trace : Trace} {failure : Failure}
    (failed : ((Machine.initial input trace).runSource budget source).1 = .failed failure) :
    ∃ program, Program.load source = .ok program ∧ failure.Located source program
      (program.moments budget (.initial input trace)) := by
  obtain ⟨program, m', loaded, done⟩ := exists_of_failed failed
  refine ⟨program, loaded, Failure.Explained.located (Program.parse_of_load loaded) ?_⟩
  have start : Logged.Written (bodyNodes program) [] ⟨.initial input trace, []⟩ :=
    ⟨rfl, .initial _ input trace, fun _ mem => absurd mem (Array.not_mem_empty _)⟩
  have left := explains_run budget (List.Subset.refl (bodyNodes program)) _ start
  have narrated := program.narrated_eq budget (.initial input trace)
  rw [done] at narrated
  rw [show Observer.narrating.run budget program ⟨.initial input trace, []⟩ = _ from narrated]
    at left
  obtain ⟨log, -, view, explained⟩ := left
  rw [show program.moments budget (.initial input trace) = log from view.same]
  exact explained failure rfl

/-- A name that is not found in a function that is called further down. -/
theorem Machine.failure_located_inBody :
    letI : CharacterNames := .ofList [(text "BULLET", 0x2022)]
    let source :=
      text "fun f() \x7b\x0a  return \"\\N\x7bBULLET\x7d\" + y;\x0a\x7d\x0aprintln(f());"
    let failure : Failure := ⟨.unboundName (text "y"), ⟨2, 25⟩⟩
    ((Machine.initial (.ofText []) (.empty false 0)).runSource ⟨9, 9⟩ source).1 =
        .failed failure ∧
      ∃ program, Program.load source = .ok program ∧ failure.Located source program
        (program.moments ⟨9, 9⟩ (.initial (.ofText []) (.empty false 0))) := by
  let _ : CharacterNames := .ofList [(text "BULLET", 0x2022)]
  have failed : ((Machine.initial (.ofText []) (.empty false 0)).runSource ⟨9, 9⟩
      (text "fun f() \x7b\x0a  return \"\\N\x7bBULLET\x7d\" + y;\x0a\x7d\x0aprintln(f());")).1 =
      .failed ⟨.unboundName (text "y"), ⟨2, 25⟩⟩ := by decide +kernel
  exact ⟨failed, failure_located failed⟩

end Script
