import Script.Proofs.ExtraScopes

/-!
# Extra scopes are invisible

Programs that differ in a statement that is in a block of its own run alike. Wherever code is the
same in both programs, it runs in environments that stand for each other; statements that declare
nothing even do so if extra scopes come first. At the statement in question the second run makes a
scope more, and goes on in an environment that stands for the same one as before.
-/

namespace Script

/-- The simulation of runs of which the second makes extra scopes. -/
def Simulation.widened : Simulation Layout where
  later := Layout.Later
  refl := Layout.Later.refl
  trans := Layout.Later.trans
  relates := Machine.Widened
  twin h := h.twin
  stays h twin left right :=
    { twin
      size := by rw [left.scopes, h.size]
      size' := by rw [right.scopes, h.size']
      global := by rw [left.scopes, right.scopes, h.global]
      extra := by
        rw [right.scopes]
        exact h.extra
      group := by
        rw [left.scopes, right.scopes]
        exact h.group
      functions := by
        rw [left.functions, right.functions]
        exact h.functions }

namespace Simulation.widened
variable {w : Layout} {env env' : Env}

/-! ### Names and scopes -/

theorem agree_resolve (stands : w.Stands env env') (name : Name) (position : Position) :
    widened.Agree w (resolve env name position) (resolve env' name position) := by
  intro w' le m m' h
  have same := h.lookup? (stands.later le) name
  cases here : m.scopes.lookup? env name with
  | some v =>
      rw [Eval.resolve_of_some here, Eval.resolve_of_some (same.trans here)]
      exact Agree.pure v w' (Layout.Later.refl w') m m' h
  | none =>
      rw [Eval.resolve_of_none here, Eval.resolve_of_none (same.trans here)]
      exact Agree.pure _ w' (Layout.Later.refl w') m m' h

theorem agree_assignValue (stands : w.Stands env env') (value : Value) (position : Position)
    (name : Name) :
    widened.Agree w (assignValue env value position name)
      (assignValue env' value position name) := by
  intro w' le m m' h
  unfold assignValue
  cases h.meets (stands.later le) name with
  | unbound none none' =>
      obtain ⟨id, some, -⟩ | ⟨-, done⟩ := Eval.assign_cases env name value m
      · cases none.symm.trans some
      obtain ⟨id, some, -⟩ | ⟨-, done'⟩ := Eval.assign_cases env' name value m'
      · cases none'.symm.trans some
      rw [bind_of_ok done, bind_of_ok done']
      exact .ok (Layout.Later.refl w') h rfl
  | bound here here' there free =>
      obtain ⟨id, again, done⟩ | ⟨none, -⟩ := Eval.assign_cases env name value m
      · obtain rfl := Option.some.inj (here.symm.trans again)
        obtain ⟨id', again, done'⟩ | ⟨none, -⟩ := Eval.assign_cases env' name value m'
        · obtain rfl := Option.some.inj (here'.symm.trans again)
          rw [bind_of_ok done, bind_of_ok done']
          exact .ok (Layout.Later.refl w') (h.define there free value) rfl
        · cases here'.symm.trans none
      · cases here.symm.trans none

theorem agree_define (opens : w.Opens env env') (value : Value) (name : Name) :
    widened.Agree w (Eval.define env name value) (Eval.define env' name value) := by
  cases opens with
  | @group i group env env' there _ =>
      intro w' le m m' h
      cases group with
      | nil => exact absurd rfl (w.owned there).1
      | cons k back =>
          have there : w'.groups[i]? = some ([] ++ k :: back) :=
            getElem?_of_later le.groups there
          exact .ok (Layout.Later.refl w') (h.define there nofun value) rfl

theorem agree_newFunction (stands : w.Stands env env') (name : Name) (parameters : List Name)
    {body body' : List Decl} (differ : body' = body ∨ BodyWrapped body body') :
    widened.Agree w (Eval.newFunction name parameters body env)
      (Eval.newFunction name parameters body' env') := by
  intro w' le m m' h
  have related : Closure.Widened w' ⟨name, parameters, body, env⟩
      ⟨name, parameters, body', env'⟩ := ⟨rfl, rfl, stands.later le, differ⟩
  exact .ok (Layout.Later.refl w') (h.newFunction related)
    (congrArg Value.function h.twin.size_functions)

theorem traced (arguments : List Value) (value : Value) :
    widened.NameAgrees w id (fun _ => True) (traceCall · arguments value)
      (traceCall · arguments value) :=
  fun _ _ => .of_nameless (Eval.Inputless.traceCall _ _ _).nameless

/-- Entering a scope in both runs. -/
theorem agree_newScope (stands : w.Stands env env') (name : Name) (b : Bindings)
    {f g : Env → Eval Completion}
    (h : ∀ w' e e', w.Later w' → w'.Opens e e' → widened.Agree w' (f e) (g e')) :
    widened.Agree w (Eval.newScope name b env >>= f) (Eval.newScope name b env' >>= g) := by
  intro w' le m m' related
  rw [bind_of_ok (Eval.newScope_of_size related.size name b env),
    bind_of_ok (Eval.newScope_of_size related.size' name b env')]
  have opens := (stands.later le).push 0
  have agree := h _ _ _ (le.trans (w'.later_push 0)) opens
  exact (agree.now _ _ (related.pushOne name b)).earlier (w'.later_push 0)

/-- Entering a scope, and in the second run a block in it at once. -/
theorem agree_newScope_inBlock (stands : w.Stands env env') (name : Name) (b : Bindings)
    {f g : Env → Eval Completion}
    (h : ∀ w' e e', w.Later w' → w'.Opens e e' → widened.Agree w' (f e) (g e')) :
    widened.Agree w (Eval.newScope name b env >>= f)
      (Eval.newScope name b env' >>= fun e => inBlock e g) := by
  intro w' le m m' related
  have size : (m'.scopes.make name b).2.size = w'.owners.length + 1 := by
    rw [Scopes.size_make, related.size']
  rw [bind_of_ok (Eval.newScope_of_size related.size name b env),
    bind_of_ok (Eval.newScope_of_size related.size' name b env')]
  unfold inBlock
  rw [bind_of_ok (Eval.newScope_of_size size (text "block") [] (w'.owners.length :: env'))]
  have opens := (stands.later le).push 1
  have agree := h _ _ _ (le.trans (w'.later_push 1)) opens
  exact (agree.now _ _ (related.pushTwo name (text "block") b)).earlier (w'.later_push 1)

/-- Entering a block in the second run only. -/
theorem agree_inBlock_right (stands : w.Stands env env') {x : Eval Completion}
    {g : Env → Eval Completion}
    (h : ∀ w' e', w.Later w' → w'.Stands env e' → widened.Agree w' x (g e')) :
    widened.Agree w x (inBlock env' g) := by
  intro w' le m m' related
  unfold inBlock
  rw [bind_of_ok (Eval.newScope_of_size related.size' (text "block") [] env')]
  have agree := h _ _ (le.trans w'.later_spare) (stands.later le).spare
  exact (agree.now _ _ (related.spare (text "block"))).earlier w'.later_spare

/-! ### Code that is the same in both runs -/

/-- Code that is the same in both runs, in environments where it may declare names. -/
def same : widened.Mode where
  rename := id
  occurs _ := True
  signs _ := True
  opens := Layout.Opens
  opens_later le opens := opens.later le
  resolve opens position name _ := agree_resolve opens.stands name position
  traced _ := traced
  define opens value name _ := agree_define opens value name
  assign opens value position name _ := agree_assignValue opens.stands value position name
  newFunction opens _ _ := by
    rw [renameBody_id, List.map_id]
    exact agree_newFunction opens.stands _ _ (.inl rfl)
  enter name opens _ h := agree_newScope opens.stands name _ h

section Code
variable {call call' : Caller} {rounds : Nat}

theorem agree_body (calls : widened.CallsAgree call call') (opens : w.Opens env env')
    (body : List Decl) :
    widened.Agree w (execBody call rounds env body) (execBody call' rounds env' body) := by
  have agree : widened.Agree w (execBody call rounds env body)
      (execBody call' rounds env' (renameBody id body)) :=
    same.execBody calls opens (fun _ _ => trivial) fun _ _ => trivial
  rwa [renameBody_id] at agree

theorem agree_stmt (calls : widened.CallsAgree call call') (opens : w.Opens env env') (s : Stmt) :
    widened.Agree w (execStmt call rounds env s) (execStmt call' rounds env' s) := by
  have agree : widened.Agree w (execStmt call rounds env s)
      (execStmt call' rounds env' (s.rename id)) :=
    same.execStmt calls opens (fun _ _ => trivial) fun _ _ => trivial
  rwa [s.rename_id] at agree

theorem agree_otherwise (calls : widened.CallsAgree call call') (opens : w.Opens env env')
    (o : Otherwise) :
    widened.Agree w (execOtherwise call rounds env o) (execOtherwise call' rounds env' o) := by
  have agree : widened.Agree w (execOtherwise call rounds env o)
      (execOtherwise call' rounds env' (o.rename id)) :=
    same.execOtherwise calls opens (fun _ _ => trivial) fun _ _ => trivial
  rwa [o.rename_id] at agree

theorem agree_decl (calls : widened.CallsAgree call call') (opens : w.Opens env env') (d : Decl) :
    widened.Agree w (execDecl call rounds env d) (execDecl call' rounds env' d) := by
  have agree : widened.Agree w (execDecl call rounds env d)
      (execDecl call' rounds env' (d.rename id)) :=
    same.execDecl calls opens (fun _ _ => trivial) fun _ _ => trivial
  rwa [d.rename_id] at agree

theorem agree_evalExpr (calls : widened.CallsAgree call call') (stands : w.Stands env env')
    (e : Expr) :
    widened.Agree w (Script.evalExpr call env e) (Script.evalExpr call' env' e) := by
  have agree : widened.Agree w (Script.evalExpr call env e)
      (Script.evalExpr call' env' (e.rename id)) :=
    Simulation.evalExpr calls (fun position name _ => agree_resolve stands name position)
      traced fun _ _ => trivial
  rwa [e.rename_id] at agree

theorem agree_inBlock (calls : widened.CallsAgree call call') (stands : w.Stands env env')
    (body : List Decl) : widened.Agree w (inBlock env fun env => execBody call rounds env body)
      (inBlock env' fun env => execBody call' rounds env body) :=
  agree_newScope stands _ [] fun _ _ _ _ opens => agree_body calls opens body

mutual

/-- Statements that declare nothing run alike even where extra scopes come first. -/
theorem agree_undeclaring (calls : widened.CallsAgree call call') {w : Layout} {env env' : Env}
    (stands : w.Stands env env') : ∀ {s : Stmt}, s.declares = false →
      widened.Agree w (execStmt call rounds env s) (execStmt call' rounds env' s)
  | .declare _ _, other => by cases other
  | .block body, _ => agree_inBlock calls stands body
  | .assign name value position, _ => (agree_evalExpr calls stands value).onValue fun v =>
      agree_assignValue stands v position name
  | .eval value, _ => (agree_evalExpr calls stands value).onValue fun _ => .pure _
  | .branch condition body otherwise, other => by
      obtain ⟨first, second⟩ := Bool.or_eq_false_iff.mp other
      exact .branch (agree_evalExpr calls stands condition) (agree_undeclaring calls stands first)
        (agree_undeclaringOtherwise calls stands second)
  | .loop condition body, other => .repeatWhile (agree_evalExpr calls stands condition)
      (agree_undeclaring (s := body) calls stands other) rounds
  | .return_ none, _ => .pure _
  | .return_ (some value), _ => (agree_evalExpr calls stands value).onValue fun _ => .pure _

theorem agree_undeclaringOtherwise (calls : widened.CallsAgree call call') {w : Layout}
    {env env' : Env} (stands : w.Stands env env') : ∀ {o : Otherwise}, o.declares = false →
      widened.Agree w (execOtherwise call rounds env o) (execOtherwise call' rounds env' o)
  | .nothing, _ => .pure _
  | .stmt s, other => agree_undeclaring (s := s) calls stands other

end

/-! ### The statement in a block of its own -/

theorem execBody_singleton (call : Caller) (rounds : Nat) (env : Env) (s : Stmt) :
    execBody call rounds env [.stmt s] = execStmt call rounds env s := by
  refine Eq.trans (congrArg (execStmt call rounds env s >>= ·) (funext fun completion => ?_))
    (bind_pure _)
  cases completion <;> rfl

/-- A statement that declares nothing runs like the block that it is put into. -/
theorem agree_wrap (calls : widened.CallsAgree call call') (stands : w.Stands env env')
    {s : Stmt} (other : s.declares = false) :
    widened.Agree w (execStmt call rounds env s)
      (execStmt call' rounds env' (.block [.stmt s])) := by
  refine agree_inBlock_right stands fun w' e' _ stands => ?_
  rw [execBody_singleton]
  exact agree_undeclaring calls stands other

mutual

theorem agree_execStmt (calls : widened.CallsAgree call call') {w : Layout} {env env' : Env}
    (opens : w.Opens env env') : ∀ {s s' : Stmt}, Stmt.Wrapped s s' →
      widened.Agree w (execStmt call rounds env s) (execStmt call' rounds env' s')
  | _, _, .here other => agree_wrap calls opens.stands other
  | _, _, .block differ => agree_newScope opens.stands _ [] fun _ _ _ _ opens =>
      agree_execBody calls opens differ
  | _, _, .branch condition otherwise differ =>
      .branch (agree_evalExpr calls opens.stands condition) (agree_execStmt calls opens differ)
        (agree_otherwise calls opens otherwise)
  | _, _, .otherwise condition body differ =>
      .branch (agree_evalExpr calls opens.stands condition) (agree_stmt calls opens body)
        (agree_execStmt calls opens differ)
  | _, _, .loop condition differ =>
      .repeatWhile (agree_evalExpr calls opens.stands condition)
        (agree_execStmt calls opens differ) rounds

theorem agree_execDecl (calls : widened.CallsAgree call call') {w : Layout} {env env' : Env}
    (opens : w.Opens env env') : ∀ {d d' : Decl}, Decl.Wrapped d d' →
      widened.Agree w (execDecl call rounds env d) (execDecl call' rounds env' d')
  | _, _, .function name parameters differ =>
      (agree_newFunction opens.stands name parameters (.inr differ)).bind fun value =>
        (agree_define opens value name).bind fun _ => .pure _
  | _, _, .stmt differ => agree_execStmt calls opens differ

theorem agree_execBody (calls : widened.CallsAgree call call') {w : Layout} {env env' : Env}
    (opens : w.Opens env env') : ∀ {body body' : List Decl}, ListedWrapped body body' →
      widened.Agree w (execBody call rounds env body) (execBody call' rounds env' body')
  | _, _, .first rest differ =>
      (agree_execDecl calls opens differ).onNormal (agree_body calls opens rest)
  | _, _, .later d differ =>
      (agree_decl calls opens d).onNormal (agree_execBody calls opens differ)

end

/-- Entering the body of a function, which as a whole may be in a block of its own. -/
theorem agree_enter (calls : widened.CallsAgree call call') {w : Layout} {env env' : Env}
    (stands : w.Stands env env') (name : Name) (b : Bindings) :
    ∀ {body body' : List Decl}, BodyWrapped body body' →
      widened.Agree w (Eval.newScope name b env >>= fun env => execBody call rounds env body)
        (Eval.newScope name b env' >>= fun env => execBody call' rounds env body')
  | _, _, .whole body => by
      simp only [execBody_singleton]
      exact agree_newScope_inBlock stands name b fun _ _ _ _ opens => agree_body calls opens body
  | _, _, .inside differ =>
      agree_newScope stands name b fun _ _ _ _ opens => agree_execBody calls opens differ

/-- Calls of the same function agree, wherever its body is in a block of its own. -/
theorem callsAgree (rounds depth : Nat) :
    widened.CallsAgree (callFunction rounds depth) (callFunction rounds depth) := by
  refine Simulation.callsAgree Closure.Widened rounds ?_ ?_ ?_ depth
  · exact fun w id m m' h => .ok (Layout.Later.refl w) h (h.closure id)
  · exact fun related => ⟨related.name, related.parameters⟩
  · intro call call' calls w f g related arguments
    obtain ⟨name, parameters, body, env⟩ := f
    obtain ⟨name', parameters', body', env'⟩ := g
    obtain ⟨rfl, rfl, stands, same | differ⟩ := related
    · obtain rfl : body' = body := same
      exact agree_newScope stands _ _ fun _ _ _ _ opens => agree_body calls opens body'
    · exact agree_enter calls stands _ _ differ

end Code

end Simulation.widened

theorem Machine.Widened.looksLike {w : Layout} {m m' : Machine} (h : m.Widened w m') :
    m.LooksLike m' :=
  { h.twin with
    globals := congrArg (fun scope? => (scope?.map Scope.bindings).getD []) h.global
    described := h.twin.describeEnv_globalEnv h.global }

namespace Program

end Program

end Script
