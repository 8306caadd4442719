import Script.Proofs.Renaming

/-!
# Renamed programs run alike

The relation of machines is a simulation with two modes: code outside, which is the same in both
runs, and code inside, where the local name is replaced. Entering the body with the local name takes
the simulation from the one mode to the other. What is visible from outside after a run, the global
bindings among it, is the same for both programs.
-/

namespace Script

section Finding
variable {x y : Name} {w : List Region} {m m' : Machine} {env : Env} {n n' : Name}

/-- The same fate of two names in an environment: neither is bound, and then they are the same name,
or both are bound in one scope, where they correspond. -/
inductive Machine.Finds (x y : Name) (w : List Region) (m m' : Machine) (env : Env)
    (n n' : Name) : Prop
  | unbound : m.scopes.find? n env = none → m'.scopes.find? n' env = none → n' = n →
      Machine.Finds x y w m m' env n n'
  | bound {id : ScopeId} {region : Region} : m.scopes.find? n env = some id →
      m'.scopes.find? n' env = some id → w[id]? = some region → region.Takes x y n n' →
      (m'.scopes.bindings id).get? n' = (m.scopes.bindings id).get? n →
      Machine.Finds x y w m m' env n n'

theorem Scopes.isSome_of_find? {s : Scopes} {id : ScopeId} (h : s.find? n env = some id) :
    ((s.bindings id).get? n).isSome := by
  simpa using List.find?_some h

theorem Machine.finds_head {id : ScopeId} {region : Region}
    (here : w[id]? = some region) (matched : (m.scopes.bindings id).Corresponds x y
      (m'.scopes.bindings id)) (takes : ∀ n, n ≠ y → region.Takes x y n (replaceName x y n))
    (other : n ≠ y)
    (rest : (m.scopes.bindings id).get? n = none → m.Finds x y w m' env n (replaceName x y n)) :
    m.Finds x y w m' (id :: env) n (replaceName x y n) := by
  have value := matched n other
  cases found : (m.scopes.bindings id).get? n with
  | some v =>
      exact .bound (Scopes.find?_cons_of_some found env)
        (Scopes.find?_cons_of_some (value.trans found) env) here (takes n other) value
  | none =>
      have first := Scopes.find?_cons_of_none found env
      have second := Scopes.find?_cons_of_none (value.trans found) env
      cases rest found with
      | unbound none none' same => exact .unbound (first.trans none) (second.trans none') same
      | bound some some' there takes same =>
          exact .bound (first.trans some) (second.trans some') there takes same

namespace Machine.Linked

theorem same_bindings (h : m.Linked x y w m') {id : ScopeId}
    (there : w[id]? = some .outside ∨ w[id]? = some .pending) :
    m'.scopes.bindings id = m.scopes.bindings id := by
  rcases there with there | there
  · exact h.bindings id .outside there
  · exact h.bindings id .pending there

/-- Where the name is not declared yet, every name finds itself. -/
theorem finds_same (h : m.Linked x y w m')
    (there : ∀ id ∈ env, w[id]? = some .outside ∨ w[id]? = some .pending) (n : Name) :
    m.Finds x y w m' env n n := by
  have same := Scopes.find?_of_same (fun id mem => h.same_bindings (there id mem)) n
  cases found : m.scopes.find? n env with
  | none => exact .unbound found (same.trans found) rfl
  | some id =>
      have here := there id (List.mem_of_find?_eq_some found)
      have value := congrArg (Bindings.get? · n) (h.same_bindings here)
      rcases here with here | here
      · exact .bound found (same.trans found) here rfl value
      · exact .bound found (same.trans found) here rfl value

/-- Inside, no search for the local name gets past a root. -/
theorem finds_inside (h : m.Linked x y w m') (inside : InsideEnv w env) (other : n ≠ y) :
    m.Finds x y w m' env n (replaceName x y n) := by
  induction inside with
  | @root id env here outside =>
      -- `x` is bound in the root, so only other names are looked for behind it
      obtain ⟨matched, declared⟩ := h.bindings id .root here
      refine Machine.finds_head here matched (fun _ other => ⟨other, rfl⟩) other fun unbound => ?_
      have differs : n ≠ x := by
        rintro rfl
        rw [unbound] at declared
        cases declared
      rw [replaceName_of_ne y differs]
      exact h.finds_same (fun id mem => .inl (outside id mem)) n
  | @inside id env here _ ih =>
      exact Machine.finds_head here (h.bindings id .inside here) (fun _ other => ⟨other, rfl⟩) other
        fun _ => ih

end Machine.Linked

end Finding

/-! ### The simulation -/

/-- The simulation of runs that differ in the local name `x` or `y`. -/
def Simulation.renamed (x y : Name) : Simulation (List Region) where
  later := (· <+: ·)
  refl := List.prefix_refl
  trans := List.IsPrefix.trans
  relates := Machine.Linked x y
  twin h := h.twin
  stays h twin left right :=
    { twin
      off := left.enabled.trans h.off
      names := by rw [left.scopes, right.scopes, h.names]
      size := by rw [left.scopes, h.size]
      bindings := by
        rw [left.scopes, right.scopes]
        exact h.bindings
      functions := by
        rw [left.functions, right.functions]
        exact h.functions }

namespace Simulation.renamed
variable {x y : Name} {w : List Region} {env : Env} {n n' : Name}

/-- Names that always find each other, from a world on. -/
def Found (x y : Name) (w : List Region) (env : Env) (n n' : Name) : Prop :=
  ∀ w' (m m' : Machine), w <+: w' → m.Linked x y w' m' → m.Finds x y w' m' env n n'

theorem agree_resolve (found : Found x y w env n n') (position : Position) :
    (renamed x y).Agree w (resolve env n position) (resolve env n' position) := by
  intro w' le m m' linked
  have same : m'.scopes.lookup? env n' = m.scopes.lookup? env n ∧
      ((m.scopes.lookup? env n).isSome ∨ n' = n) := by
    unfold Scopes.lookup?
    cases found w' m m' le linked with
    | unbound none none' same =>
        rw [none, none']
        exact ⟨rfl, .inr same⟩
    | bound here here' _ _ value =>
        rw [here, here']
        exact ⟨value, .inl (Scopes.isSome_of_find? here)⟩
  cases here : m.scopes.lookup? env n with
  | some v =>
      rw [Eval.resolve_of_some here, Eval.resolve_of_some (same.1.trans here)]
      exact Agree.pure v w' (List.prefix_refl w') m m' linked
  | none =>
      have equal : n' = n := same.2.resolve_left (by rw [here]; exact Bool.false_ne_true)
      subst equal
      rw [Eval.resolve_of_none here, Eval.resolve_of_none (same.1.trans here)]
      exact Agree.pure _ w' (List.prefix_refl w') m m' linked

theorem agree_assignValue (found : Found x y w env n n') (value : Value) (position : Position) :
    (renamed x y).Agree w (assignValue env value position n)
      (assignValue env value position n') := by
  intro w' le m m' linked
  unfold assignValue
  cases found w' m m' le linked with
  | unbound none none' same =>
      obtain ⟨id, some, -⟩ | ⟨-, done⟩ := Eval.assign_cases env n value m
      · rw [none] at some
        cases some
      obtain ⟨id, some, -⟩ | ⟨-, done'⟩ := Eval.assign_cases env n' value m'
      · rw [none'] at some
        cases some
      rw [bind_of_ok done, bind_of_ok done', same]
      exact .ok (List.prefix_refl w') linked rfl
  | @bound id region some some' here takes _ =>
      obtain ⟨id', again, done⟩ | ⟨none, -⟩ := Eval.assign_cases env n value m
      · obtain rfl := Option.some.inj (some.symm.trans again)
        obtain ⟨id', again, done'⟩ | ⟨none, -⟩ := Eval.assign_cases env n' value m'
        · obtain rfl := Option.some.inj (some'.symm.trans again)
          rw [bind_of_ok done, bind_of_ok done']
          exact .ok (List.prefix_refl w') (linked.define here takes value) rfl
        · rw [some'] at none
          cases none
      · rw [some] at none
        cases none

theorem agree_define (heads : ∀ id ∈ env.head?, ∃ region, w[id]? = some region ∧
      region.Takes x y n n') (value : Value) :
    (renamed x y).Agree w (Eval.define env n value) (Eval.define env n' value) := by
  cases env with
  | nil => exact .pure _
  | cons id env =>
      obtain ⟨region, here, takes⟩ := heads id rfl
      intro w' le m m' linked
      exact .ok (List.prefix_refl w') (linked.define (getElem?_of_later le here) takes value) rfl

theorem agree_newFunction {name : Name} {parameters : List Name} {body body' : List Decl}
    (related : Closure.Related x y w ⟨name, parameters, body, env⟩
      ⟨name, parameters, body', env⟩) :
    (renamed x y).Agree w (Eval.newFunction name parameters body env)
      (Eval.newFunction name parameters body' env) := by
  intro w' le m m' linked
  refine .ok (List.prefix_refl w') (linked.newFunction (related.later le)) ?_
  exact congrArg Value.function linked.twin.size_functions

theorem agree_newScope {f g : Env → Eval Completion} (name : Name) (region : Region) {b : Bindings}
    (same : region.Matches x y b b)
    (h : ∀ w', w <+: w' → (renamed x y).Agree (w' ++ [region]) (f (w'.length :: env))
      (g (w'.length :: env))) :
    (renamed x y).Agree w (Eval.newScope name b env >>= f) (Eval.newScope name b env >>= g) := by
  intro w' le m m' linked
  rw [bind_of_ok (Eval.newScope_of_size linked.size name b env),
    bind_of_ok (Eval.newScope_of_size linked.size' name b env)]
  exact ((h w' le).now _ _ (linked.make name region same)).earlier (List.prefix_append _ _)

theorem traced {occurs : Name → Prop} {σ : Name → Name} (w : List Region)
    (arguments : List Value) (value : Value) :
    (renamed x y).NameAgrees w σ occurs (traceCall · arguments value)
      (traceCall · arguments value) :=
  fun _ _ _ _ _ _ linked => .of_sameEnd linked
    (Eval.Abreast.of_off (.call _ _ _) (.call _ _ _) linked.twin linked.off)

/-- Code that is the same in both runs. -/
def outside (x y : Name) : (renamed x y).Mode where
  rename := id
  occurs _ := True
  signs _ := True
  opens w env env' := env' = env ∧ OutsideEnv w env
  opens_later le opens := ⟨opens.1, opens.2.later le⟩
  resolve := by
    rintro w env _ ⟨rfl, outside⟩ position n -
    refine agree_resolve (fun w' m m' le linked => ?_) position
    exact linked.finds_same (fun id mem => .inl (outside.later le id mem)) n
  traced := traced
  define := by
    rintro w env _ ⟨rfl, outside⟩ value n -
    refine agree_define (fun id head => ⟨.outside, ?_, rfl⟩) value
    exact outside id (List.mem_of_mem_head? head)
  assign := by
    rintro w env _ ⟨rfl, outside⟩ value position n -
    refine agree_assignValue (fun w' m m' le linked => ?_) value position
    exact linked.finds_same (fun id mem => .inl (outside.later le id mem)) n
  newFunction := by
    rintro w env _ name parameters body ⟨rfl, outside⟩ - -
    rw [renameBody_id, List.map_id]
    exact agree_newFunction ⟨rfl, rfl, rfl, .inl ⟨outside, .inl rfl⟩⟩
  enter := by
    rintro w env _ f g bindings name ⟨rfl, outside⟩ - h
    refine agree_newScope name .outside rfl fun w' le => ?_
    refine h _ _ _ (le.trans (List.prefix_append _ _)) ⟨rfl, ?_⟩
    refine List.forall_mem_cons.mpr ⟨List.getElem?_concat_length, ?_⟩
    exact outside.later (le.trans (List.prefix_append _ _))

/-- Code in which the local name is replaced. -/
def inside (x y : Name) : (renamed x y).Mode where
  rename := replaceName x y
  occurs n := n ≠ y
  signs n := n ≠ x
  opens w env env' := env' = env ∧ InsideEnv w env
  opens_later le opens := ⟨opens.1, opens.2.later le⟩
  resolve := by
    rintro w env _ ⟨rfl, inside⟩ position n other
    refine agree_resolve (fun w' m m' le linked => ?_) position
    exact linked.finds_inside (inside.later le) other
  traced := traced
  define := by
    rintro w env _ ⟨rfl, inside⟩ value n other
    refine agree_define (fun id head => ?_) value
    cases inside with
    | root here _ => cases head; exact ⟨.root, here, other, rfl⟩
    | inside here _ => cases head; exact ⟨.inside, here, other, rfl⟩
  assign := by
    rintro w env _ ⟨rfl, inside⟩ value position n other
    refine agree_assignValue (fun w' m m' le linked => ?_) value position
    exact linked.finds_inside (inside.later le) other
  newFunction := by
    rintro w env _ name parameters body ⟨rfl, inside⟩ names signed
    obtain ⟨-, names⟩ := List.forall_mem_cons.mp names
    obtain ⟨differs, signed⟩ := List.forall_mem_cons.mp signed
    have kept : parameters.map (replaceName x y) = parameters := by
      have same : parameters.map (replaceName x y) = parameters.map id :=
        List.map_congr_left fun n mem =>
          replaceName_of_ne y (signed n (List.mem_append_left _ mem))
      rw [same, List.map_id]
    rw [replaceName_of_ne y differs, kept]
    exact agree_newFunction ⟨rfl, rfl, rfl, .inr ⟨inside, names, signed, rfl⟩⟩
  enter := by
    rintro w env _ f g bindings name ⟨rfl, inside⟩ free h
    refine agree_newScope name .inside (Bindings.corresponds_self free) fun w' le => ?_
    refine h _ _ _ (le.trans (List.prefix_append _ _)) ⟨rfl, ?_⟩
    exact .inside List.getElem?_concat_length (inside.later (le.trans (List.prefix_append _ _)))

/-! ### The body with the local name -/

section Code
variable {call call' : Caller} {rounds : Nat}

theorem agree_same (calls : (renamed x y).CallsAgree call call') (h : OutsideEnv w env)
    (body : List Decl) :
    (renamed x y).Agree w (execBody call rounds env body) (execBody call' rounds env body) := by
  have agree : (renamed x y).Agree w (execBody call rounds env body)
      (execBody call' rounds env (renameBody id body)) :=
    (outside x y).execBody calls ⟨rfl, h⟩ (fun _ _ => trivial) fun _ _ => trivial
  rwa [renameBody_id] at agree

/-- The declaration of the local name. If it comes to its end, it leaves a root. -/
theorem ends_declare (calls : (renamed x y).CallsAgree call call') {m m' : Machine}
    (outside : OutsideEnv w env) (linked : m.Linked x y (w ++ [.pending]) m') (value : Expr) :
    (renamed x y).Ends w
      (fun w' c c' => c' = c ∧ (c = .normal → InsideEnv w' (w.length :: env)))
      (execDecl call rounds (w.length :: env) (.stmt (.declare x value)) m)
      (execDecl call' rounds (w.length :: env) (.stmt (.declare y value)) m') := by
  -- the value is computed before the name is declared: `x` in it means what it means outside
  have names (position : Position) : (renamed x y).NameAgrees (w ++ [.pending]) id (fun _ => True)
      (resolve (w.length :: env) · position) (resolve (w.length :: env) · position) := by
    intro n _
    refine agree_resolve (fun w' m m' le linked => linked.finds_same ?_ n) position
    refine List.forall_mem_cons.mpr ⟨.inr ?_, fun id mem => .inl ?_⟩
    · exact getElem?_of_later le List.getElem?_concat_length
    · exact outside.later ((List.prefix_append _ _).trans le) id mem
  have initial := evalExpr (e := value) calls names (traced (w ++ [.pending])) fun _ _ => trivial
  rw [value.rename_id] at initial
  refine (initial.now m m' linked).bind (List.prefix_append _ _) ?_
  intro w' v v' n n' le linked same
  have before : w <+: w' := (List.prefix_append _ _).trans le
  subst same
  cases v' with
  | error failure => exact .ok before linked ⟨rfl, nofun⟩
  | _ =>
      have pending := getElem?_of_later le List.getElem?_concat_length
      obtain ⟨more, rfl⟩ := le
      refine .ok ?_ (linked.declare pending _) ⟨rfl, fun _ => .root ?_ ?_⟩
      · rw [List.append_assoc, List.set_append_right _ _ (Nat.le_refl _)]
        exact List.prefix_append _ _
      · exact List.getElem?_set_self (List.getElem?_eq_some_iff.mp pending).1
      · exact (outside.later before).declare pending

theorem agree_here (calls : (renamed x y).CallsAgree call call') (h : OutsideEnv w env)
    (name : Name) (b : Bindings) (value : Expr) {rest : List Decl} (free : y ∉ bodyNames rest)
    (unsigned : x ∉ bodySignatures rest) :
    (renamed x y).Agree w
      (Eval.newScope name b env >>= fun env =>
        execBody call rounds env (.stmt (.declare x value) :: rest))
      (Eval.newScope name b env >>= fun env =>
        execBody call' rounds env
          (.stmt (.declare y value) :: renameBody (replaceName x y) rest)) := by
  intro w le m m' linked
  rw [bind_of_ok (Eval.newScope_of_size linked.size name b env),
    bind_of_ok (Eval.newScope_of_size linked.size' name b env)]
  have entered := linked.make name .pending (b := b) rfl
  refine (ends_declare calls (h.later le) entered value).bind (List.prefix_refl w) ?_
  rintro w' _ c n n' le' linked ⟨rfl, root⟩
  cases c with
  | normal =>
      have agree : (renamed x y).Agree w' (execBody call rounds (w.length :: env) rest)
          (execBody call' rounds (w.length :: env) (renameBody (replaceName x y) rest)) :=
        (inside x y).execBody calls ⟨rfl, root rfl⟩ (fun n mem same => free (same ▸ mem))
          fun n mem same => unsigned (same ▸ mem)
      exact (agree.now n n' linked).earlier le'
  | _ => exact .ok le' linked rfl

theorem agree_evalExpr (calls : (renamed x y).CallsAgree call call') (h : OutsideEnv w env)
    (e : Expr) :
    (renamed x y).Agree w (Script.evalExpr call env e) (Script.evalExpr call' env e) := by
  have agree : (renamed x y).Agree w (Script.evalExpr call env e)
      (Script.evalExpr call' env (e.rename id)) :=
    (outside x y).evalExpr calls ⟨rfl, h⟩ fun _ _ => trivial
  rwa [e.rename_id] at agree

theorem agree_stmt (calls : (renamed x y).CallsAgree call call') (h : OutsideEnv w env)
    (s : Stmt) :
    (renamed x y).Agree w (execStmt call rounds env s) (execStmt call' rounds env s) := by
  have agree : (renamed x y).Agree w (execStmt call rounds env s)
      (execStmt call' rounds env (s.rename id)) :=
    (outside x y).execStmt calls ⟨rfl, h⟩ (fun _ _ => trivial) fun _ _ => trivial
  rwa [s.rename_id] at agree

theorem agree_otherwise (calls : (renamed x y).CallsAgree call call') (h : OutsideEnv w env)
    (o : Otherwise) : (renamed x y).Agree w
      (execOtherwise call rounds env o) (execOtherwise call' rounds env o) := by
  have agree : (renamed x y).Agree w (execOtherwise call rounds env o)
      (execOtherwise call' rounds env (o.rename id)) :=
    (outside x y).execOtherwise calls ⟨rfl, h⟩ (fun _ _ => trivial) fun _ _ => trivial
  rwa [o.rename_id] at agree

mutual

theorem agree_execStmt (calls : (renamed x y).CallsAgree call call') {w : List Region} {env : Env}
    (h : OutsideEnv w env) : ∀ {s s' : Stmt}, Stmt.Renamed x y s s' →
      (renamed x y).Agree w (execStmt call rounds env s) (execStmt call' rounds env s')
  | _, _, .block differ => agree_enter calls h _ [] differ
  | _, _, .branch condition otherwise differ =>
      .branch (agree_evalExpr calls h condition) (agree_execStmt calls h differ)
        (agree_otherwise calls h otherwise)
  | _, _, .otherwise condition body differ =>
      .branch (agree_evalExpr calls h condition) (agree_stmt calls h body)
        (agree_execStmt calls h differ)
  | _, _, .loop condition differ =>
      .repeatWhile (agree_evalExpr calls h condition) (agree_execStmt calls h differ) rounds

theorem agree_execDecl (calls : (renamed x y).CallsAgree call call') {w : List Region} {env : Env}
    (h : OutsideEnv w env) : ∀ {d d' : Decl}, Decl.Renamed x y d d' →
      (renamed x y).Agree w (execDecl call rounds env d) (execDecl call' rounds env d')
  | _, _, @Decl.Renamed.function _ _ name parameters body body' differ => by
      have related : Closure.Related x y w ⟨name, parameters, body, env⟩
          ⟨name, parameters, body', env⟩ := ⟨rfl, rfl, rfl, .inl ⟨h, .inr differ⟩⟩
      refine (agree_newFunction related).bind fun value => ?_
      exact ((outside x y).define ⟨rfl, h⟩ value name trivial).bind fun _ => .pure _
  | _, _, .stmt differ => agree_execStmt calls h differ

theorem agree_enter (calls : (renamed x y).CallsAgree call call') {w : List Region} {env : Env}
    (h : OutsideEnv w env) (name : Name) (b : Bindings) :
    ∀ {body body' : List Decl}, BodyRenamed x y body body' →
      (renamed x y).Agree w (Eval.newScope name b env >>= fun env => execBody call rounds env body)
        (Eval.newScope name b env >>= fun env => execBody call' rounds env body')
  | _, _, .here value free unsigned => agree_here calls h name b value free unsigned
  | _, _, .inside differ => by
      refine agree_newScope name .outside rfl fun w' le => ?_
      refine agree_execBody calls ?_ differ
      refine List.forall_mem_cons.mpr ⟨List.getElem?_concat_length, ?_⟩
      exact h.later (le.trans (List.prefix_append _ _))

theorem agree_execBody (calls : (renamed x y).CallsAgree call call') {w : List Region} {env : Env}
    (h : OutsideEnv w env) : ∀ {body body' : List Decl}, ListedRenamed x y body body' →
      (renamed x y).Agree w (execBody call rounds env body) (execBody call' rounds env body')
  | _, _, .first rest differ => (agree_execDecl calls h differ).onNormal (agree_same calls h rest)
  | _, _, .later d differ => by
      have first : (renamed x y).Agree w (execDecl call rounds env d)
          (execDecl call' rounds env (d.rename id)) :=
        (outside x y).execDecl calls ⟨rfl, h⟩ (fun _ _ => trivial) fun _ _ => trivial
      rw [d.rename_id] at first
      exact first.onNormal (agree_execBody calls h differ)

end

theorem agree_enterClosure (calls : (renamed x y).CallsAgree call call') {f g : Closure}
    (related : f.Related x y w g) (arguments : List Value) :
    (renamed x y).Agree w (f.enter call rounds arguments) (g.enter call' rounds arguments) := by
  obtain ⟨name, parameters, body, env⟩ := f
  obtain ⟨name', parameters', body', env'⟩ := g
  obtain ⟨rfl, rfl, rfl, ⟨h, same | differ⟩ | ⟨h, names, signed, replaced⟩⟩ := related
  · obtain rfl : body' = body := same
    refine (outside x y).enter name' ⟨rfl, h⟩ (fun _ _ => ⟨trivial, trivial⟩) ?_
    rintro w' e _ _ ⟨rfl, h⟩
    exact agree_same calls h body'
  · exact agree_enter calls h name' _ differ
  · obtain rfl : body' = renameBody (replaceName x y) body := replaced
    refine (inside x y).enter name' ⟨rfl, h⟩ (fun binding mem => ?_) ?_
    · have parameter := (List.of_mem_zip (Bindings.mem_ofList mem)).1
      exact ⟨names _ (List.mem_append_left _ parameter),
        signed _ (List.mem_append_left _ parameter)⟩
    · rintro w' e _ _ ⟨rfl, h⟩
      exact (inside x y).execBody calls ⟨rfl, h⟩
        (fun n mem => names n (List.mem_append_right _ mem))
        fun n mem => signed n (List.mem_append_right _ mem)

theorem callsAgree (rounds depth : Nat) :
    (renamed x y).CallsAgree (callFunction rounds depth) (callFunction rounds depth) := by
  refine Simulation.callsAgree (fun w f g => f.Related x y w g) rounds ?_ ?_ ?_ depth
  · exact fun w id m m' linked => .ok (List.prefix_refl w) linked (linked.closure id)
  · exact fun related => ⟨related.name, related.parameters⟩
  · exact fun calls _ _ _ related => agree_enterClosure calls related

end Code

end Simulation.renamed

/-! ### Runs -/

theorem Machine.Linked.looksLike {x y : Name} {w : List Region} {m m' : Machine}
    (h : m.Linked x y w m') (start : [Region.outside] <+: w) : m.LooksLike m' := by
  have first : w[globalScope]? = some .outside := getElem?_of_later start rfl
  have globals := h.bindings globalScope .outside first
  have global := Scopes.getElem?_of_bindings h.names globals
  exact { h.twin with globals, described := h.twin.describeEnv_globalEnv global }

namespace Program

/-- Programs that differ in a local name run alike with the trace off: nothing that is visible of a
run from outside depends on which of the two programs it is. -/
theorem run_locallyRenamed {x y : Name} {program program' : Program}
    (renamed : Program.LocallyRenamed x y program program') (budget : Budget) (input : Input)
    {trace : Trace} (off : trace.enabled = false) :
    SameOutcome (program.run budget (.initial input trace))
      (program'.run budget (.initial input trace)) := by
  have linked := Machine.Linked.initial x y input off
  have globals : OutsideEnv [.outside] Machine.globalEnv := by
    rintro id mem
    rw [List.mem_singleton.mp mem]
    rfl
  have agree := Simulation.run (Simulation.renamed.agree_execBody
    (Simulation.renamed.callsAgree budget.rounds budget.depth) globals renamed)
  have ends := agree.now _ _ linked
  generalize program.run budget _ = r, program'.run budget _ = r' at ends
  cases ends with
  | ok later linked same => exact same ▸ .ended _ (linked.looksLike later)
  | error later linked => exact .halted _ (linked.looksLike later)

/-- A local variable `x` of `make`, or `n` instead, that escapes in a function to where `x` means
something else. -/
theorem run_locallyRenamed_escaping :
    let make (local_ : Name) : Decl := .function (text "make") []
      [.stmt (.declare local_ (.literal (.integer 1))),
        .function (text "get") [] [.stmt (.return_ (some (.name local_ ⟨3, 24⟩)))],
        .stmt (.branch (.literal (.boolean true)) (.assign local_
          (.binary .add (.name local_ ⟨4, 19⟩) (.literal (.integer 1)) ⟨4, 19⟩) ⟨4, 15⟩) .nothing),
        .stmt (.return_ (some (.name (text "get") ⟨5, 12⟩)))]
    let rest : Program :=
      [.stmt (.declare (text "x") (.literal (.integer 5))),
        .stmt (.declare (text "get") (.call (text "make") [] ⟨8, 11⟩)),
        .stmt (.eval (.call (text "println")
          [.call (text "get") [] ⟨9, 9⟩, .name (text "x") ⟨9, 16⟩] ⟨9, 1⟩))]
    Program.LocallyRenamed (text "x") (text "n") (make (text "x") :: rest)
        (make (text "n") :: rest) ∧
      (Trace.empty false 3).enabled = false ∧
      SameOutcome
        (Program.run .standard (make (text "x") :: rest)
          (.initial (.ofText []) (.empty false 3)))
        (Program.run .standard (make (text "n") :: rest)
          (.initial (.ofText []) (.empty false 3))) := by
  have body := @BodyRenamed.here (text "x") (text "n") (.literal (.integer 1))
    [.function (text "get") [] [.stmt (.return_ (some (.name (text "x") ⟨3, 24⟩)))],
      .stmt (.branch (.literal (.boolean true))
        (.assign (text "x") (.binary .add (.name (text "x") ⟨4, 19⟩) (.literal (.integer 1))
          ⟨4, 19⟩) ⟨4, 15⟩) .nothing),
      .stmt (.return_ (some (.name (text "get") ⟨5, 12⟩)))] (by decide) (by decide)
  have renamed (rest : Program) := ListedRenamed.first rest (.function (text "make") [] body)
  exact ⟨renamed _, rfl, run_locallyRenamed (renamed _) .standard _ rfl⟩

end Program

end Script
