import Script.Proofs.Observer

/-!
# Upkeep in scopes

What evaluation keeps up may depend on where it takes place: on the environment, on the constants
that a program contains, and on whether names may be defined. `ScopedUpkeep` lists what has to be
checked of the steps of an observer for properties that depend on a changing world. From that they
hold of all evaluations, by one induction over expressions, statements, loops and calls.

A declaration defines a name in the environment in which it is executed, and so does a branch or a
loop if a declaration stands in place of its block. All other statements, and all expressions,
define names at most in scopes that are made on the way.
-/

namespace Script

mutual

def Expr.literals : Expr → List Literal
  | .literal l => [l]
  | .name _ _ => []
  | .call _ arguments _ => listedLiterals arguments
  | .array elements => listedLiterals elements
  | .index target index _ => target.literals ++ index.literals
  | .unary _ operand _ => operand.literals
  | .binary _ left right _ => left.literals ++ right.literals
termination_by structural e => e

def listedLiterals : List Expr → List Literal
  | [] => []
  | e :: rest => e.literals ++ listedLiterals rest
termination_by structural es => es

end

mutual

/-- The constants of a statement, those in the bodies of its functions included. -/
def Stmt.literals : Stmt → List Literal
  | .block body => bodyLiterals body
  | .declare _ value => value.literals
  | .assign _ value _ => value.literals
  | .eval value => value.literals
  | .branch condition body otherwise =>
    condition.literals ++ body.literals ++ otherwise.literals
  | .loop condition body => condition.literals ++ body.literals
  | .return_ none => []
  | .return_ (some value) => value.literals
termination_by structural s => s

def Otherwise.literals : Otherwise → List Literal
  | .nothing => []
  | .stmt s => s.literals
termination_by structural o => o

def Decl.literals : Decl → List Literal
  | .function _ _ body => bodyLiterals body
  | .stmt s => s.literals
termination_by structural d => d

def bodyLiterals : List Decl → List Literal
  | [] => []
  | d :: rest => d.literals ++ bodyLiterals rest
termination_by structural body => body

end

mutual

/-- Whether a statement may define a name in the environment in which it is executed. -/
def Stmt.declares : Stmt → Bool
  | .declare _ _ => true
  | .branch _ body otherwise => body.declares || otherwise.declares
  | .loop _ body => body.declares
  | .block _ | .assign _ _ _ | .eval _ | .return_ _ => false
termination_by structural s => s

def Otherwise.declares : Otherwise → Bool
  | .nothing => false
  | .stmt s => s.declares
termination_by structural o => o

end

/-- An environment if names may be defined in it. -/
def Env.opened (env : Env) (declares : Bool) : Option Env :=
  if declares then some env else none

/-- The value that a completion carries has a property, if it carries one. -/
def Completion.Carries (P : Value → Prop) : Completion → Prop
  | returned value => P value
  | normal | aborted _ => True

theorem Completion.carries_true (completion : Completion) : completion.Carries fun _ => True := by
  cases completion <;> trivial

/-- The halts of runs that have spent the calls or the rounds that they may spend. -/
def Halt.IsSpent (reason : Halt) : Prop :=
  reason = .recursion ∨ reason = .exhausted

theorem Halt.IsSpent.ne_strayReturn {reason : Halt} (h : reason.IsSpent) :
    reason ≠ .strayReturn := by
  rcases h with rfl | rfl <;> nofun

namespace Observer
variable {M : Type → Type} [Monad M] {W : Type}

/-- What has to be checked of the steps of an observer. In a world, `V` are the values that are gone
on with, `E` the values of expressions, which may also be failures, `G` the environments in use, and
`L` the constants of the code. `K env? w x Q` says of the computation `x` that it may start in the
world `w`, that it defines names at most in `env?` and in scopes that it makes, and that `Q` holds
of its result in the world in which it ends. -/
structure ScopedUpkeep (later : W → W → Prop) (L : W → Literal → Prop) (G : W → Env → Prop)
    (E V : W → Value → Prop) (K : {α : Type} → Option Env → W → M α → (W → α → Prop) → Prop)
    (o : Observer M) : Prop where
  value_mono {w w' : W} {v : Value} : later w w' → V w v → V w' v
  env_mono {w w' : W} {env : Env} : later w w' → G w env → G w' env
  constant_mono {w w' : W} {l : Literal} : later w w' → L w l → L w' l
  nil (w : W) : V w .nil
  literal {w : W} {l : Literal} : L w l → V w l.value
  failure (w : W) (failure : Failure) : E w (.error failure)
  value {w : W} {v : Value} : V w v → E w v
  settled {w : W} {v : Value} : E w v → v.kind ≠ .error → V w v
  pure {α : Type} {env? : Option Env} {w : W} {Q : W → α → Prop} {a : α} : Q w a →
    K env? w (pure a) Q
  bind {α β : Type} {env? : Option Env} {w : W} {Q : W → α → Prop} {Q' : W → β → Prop} {x : M α}
    {f : α → M β} : K env? w x Q → (∀ w' a, later w w' → Q w' a → K env? w' (f a) Q') →
    K env? w (x >>= f) Q'
  widen {α : Type} {env? : Option Env} {w : W} {Q : W → α → Prop} {x : M α} : K none w x Q →
    K env? w x Q
  halt {α : Type} (w : W) {reason : Halt} (Q : W → α → Prop) : reason.IsSpent →
    K none w (o.step (throw reason)) Q
  resolve {w : W} {env : Env} (name : Name) (position : Position) : G w env →
    K none w (o.step (resolve env name position)) E
  newArray {w : W} {elements : Array Value} : (∀ v ∈ elements, V w v) →
    K none w (o.step (Eval.newArray elements)) E
  index {w : W} {target index : Value} (position : Position) : V w target → V w index →
    K none w (o.step (indexValue target index position)) E
  newScope {α : Type} {w : W} {bindings : Bindings} {env : Env} {Q : W → α → Prop}
    {f : Env → M α} (name : Name) : G w env → (∀ binding ∈ bindings, V w binding.2) →
    (∀ w' env', later w w' → G w' env' → K (some env') w' (f env') Q) →
    K none w (o.step (Eval.newScope name bindings env) >>= f) Q
  define {w : W} {value : Value} {env : Env} (name : Name) : G w env → V w value →
    K (some env) w (o.step (Eval.define env name value)) fun _ _ => True
  assign {w : W} {value : Value} {env : Env} (name : Name) : G w env → V w value →
    K none w (o.step (Eval.assign env name value)) fun _ _ => True
  newFunction {w : W} {env : Env} {body : List Decl} (name : Name) (parameters : List Name) :
    G w env → (∀ l ∈ bodyLiterals body, L w l) →
    K none w (o.step (Eval.newFunction name parameters body env)) V
  closure (w : W) (id : FunctionId) : K none w (o.step (Eval.closure? id)) fun w f? =>
    ∀ f, f? = some f → G w f.env ∧ ∀ l ∈ bodyLiterals f.body, L w l
  builtin {w : W} {arguments : List Value} (callee : Name) (b : Builtin) :
    (∀ v ∈ arguments, V w v) →
    K none w (o.onCall callee (.builtin b) arguments (o.step (b.call arguments))) E
  call {w : W} {arguments : List Value} {x : M Value} (callee : Name) (id : FunctionId) :
    (∀ v ∈ arguments, V w v) → (∀ w', later w w' → K none w' x E) →
    K none w (o.onCall callee (.function id) arguments x) E
  unary {w : W} {operand : Value} (op : UnaryOp) (position : Position) : V w operand →
    K none w (o.onUnary op operand position) E
  binary {w : W} {left right : Value} (op : BinaryOp) (position : Position) :
    V w left → V w right → K none w (o.onBinary op left right position) E
  onExpr {w : W} {env : Env} {x : M Value} (e : Expr) : G w env →
    (∀ w', later w w' → K none w' x E) → K none w (o.onExpr env e x) E
  onDecl {env? : Option Env} {w : W} {env : Env} {x : M Completion} (d : Decl) : G w env →
    (∀ w', later w w' → K env? w' x (fun w => Completion.Carries (V w))) →
    K env? w (o.onDecl env d x) fun w => Completion.Carries (V w)
  inBody {env? : Option Env} {w : W} {x : M Completion} :
    K env? w x (fun w => Completion.Carries (V w)) →
    K env? w (o.inBody x) fun w => Completion.Carries (V w)
  onAbort (w : W) (failure : Failure) : K none w (o.onAbort failure) fun _ _ => True

namespace ScopedUpkeep
variable {later : W → W → Prop} {L : W → Literal → Prop} {G : W → Env → Prop}
variable {E V : W → Value → Prop}
variable {K : {α : Type} → Option Env → W → M α → (W → α → Prop) → Prop}
variable {o : Observer M} (h : ScopedUpkeep later L G E V K o)
include h

theorem onValue {α : Type} {env? : Option Env} {w : W} {Q : W → α → Prop} {x : M Value}
    {fail : Failure → α} {f : Value → M α} (hx : K none w x E)
    (hfail : ∀ w failure, Q w (fail failure))
    (hf : ∀ w' v, later w w' → V w' v → K env? w' (f v) Q) : K env? w (onValue x fail f) Q := by
  refine h.bind (h.widen hx) fun w' v le hv => ?_
  cases v with
  | error failure => exact h.pure (hfail w' failure)
  | _ => exact hf w' _ le (h.settled hv nofun)

/-- The values that several expressions have, unless one of them fails. -/
def All (V : W → Value → Prop) (w : W) (r : Except Failure (List Value)) : Prop :=
  ∀ values, r = .ok values → ∀ v ∈ values, V w v

omit h [Monad M] in
theorem all_error (w : W) (failure : Failure) : All V w (.error failure) := by
  intro values h
  cases h

theorem onValues {α : Type} {env? : Option Env} {w : W} {Q : W → α → Prop}
    {x : M (Except Failure (List Value))} {fail : Failure → α} {f : List Value → M α}
    (hx : K env? w x (All V)) (hfail : ∀ w failure, Q w (fail failure))
    (hf : ∀ w' values, later w w' → (∀ v ∈ values, V w' v) → K env? w' (f values) Q) :
    K env? w (onValues x fail f) Q := by
  refine h.bind hx fun w' r le hr => ?_
  cases r with
  | error failure => exact h.pure (hfail w' failure)
  | ok values => exact hf w' values le (hr values rfl)

theorem onNormal {env? : Option Env} {w : W} {Q : W → Completion → Prop} {x x' : M Completion}
    (hx : K env? w x Q) (hx' : ∀ w', later w w' → K env? w' x' Q) :
    K env? w (do match ← x with | .normal => x' | completion => Pure.pure completion) Q := by
  refine h.bind hx fun w' completion le hc => ?_
  cases completion with
  | normal => exact hx' w' le
  | _ => exact h.pure hc

theorem constants {w w' : W} {ls : List Literal} (le : later w w') (hL : ∀ l ∈ ls, L w l) :
    ∀ l ∈ ls, L w' l :=
  fun l mem => h.constant_mono le (hL l mem)

section Expressions
variable {call : CallerIn M}

mutual

theorem evalExpr (hc : ∀ w id vs position, (∀ v ∈ vs, V w v) → K none w (call id vs position) E)
    (w : W) (env : Env) (hG : G w env) :
    ∀ e : Expr, (∀ l ∈ e.literals, L w l) → K none w (o.evalExpr call env e) E
  | .literal l, hL => by
      refine h.onExpr _ hG fun w le => h.pure (h.value (h.literal (h.constants le hL l ?_)))
      exact List.mem_singleton_self l
  | .name _ _, _ => h.onExpr _ hG fun _ le => h.resolve _ _ (h.env_mono le hG)
  | .array elements, hL => by
      refine h.onExpr _ hG fun w le => ?_
      have all := evalAll hc w env (h.env_mono le hG) elements (h.constants le hL)
      refine h.onValues all h.failure fun w values _ hvalues => ?_
      exact h.newArray fun v mem => hvalues v (List.mem_toArray.mp mem)
  | .call callee arguments position, hL => by
      refine h.onExpr _ hG fun w le => ?_
      have hG := h.env_mono le hG
      have hL := h.constants le hL
      refine h.onValue (h.resolve _ _ hG) h.failure fun w function le _ => ?_
      have all := evalAll hc w env (h.env_mono le hG) arguments (h.constants le hL)
      refine h.onValues all h.failure fun w values _ hvalues => ?_
      cases function with
      | builtin b => exact h.builtin callee b hvalues
      | function id =>
          refine h.call callee id hvalues fun w le => hc w id values position fun v mem => ?_
          exact h.value_mono le (hvalues v mem)
      | _ => exact h.pure (h.failure w _)
  | .index target index position, hL => by
      obtain ⟨hL, hL'⟩ := List.forall_mem_append.mp hL
      refine h.onExpr _ hG fun w le => ?_
      have hG := h.env_mono le hG
      have hL' := h.constants le hL'
      have first := evalExpr hc w env hG target (h.constants le hL)
      refine h.onValue first h.failure fun w t le ht => ?_
      have second := evalExpr hc w env (h.env_mono le hG) index (h.constants le hL')
      refine h.onValue second h.failure fun w i le hi => ?_
      exact h.index position (h.value_mono le ht) hi
  | .unary op operand position, hL => by
      refine h.onExpr _ hG fun w le => ?_
      have inner := evalExpr hc w env (h.env_mono le hG) operand (h.constants le hL)
      exact h.onValue inner h.failure fun w v _ hv => h.unary op position hv
  | .binary op left right position, hL => by
      obtain ⟨hL, hL'⟩ := List.forall_mem_append.mp hL
      refine h.onExpr _ hG fun w le => ?_
      have hG := h.env_mono le hG
      have hL' := h.constants le hL'
      have first := evalExpr hc w env hG left (h.constants le hL)
      refine h.onValue first h.failure fun w l le hl => ?_
      have second := evalExpr hc w env (h.env_mono le hG) right (h.constants le hL')
      refine h.onValue second h.failure fun w r le hr => ?_
      exact h.binary op position (h.value_mono le hl) hr

theorem evalAll (hc : ∀ w id vs position, (∀ v ∈ vs, V w v) → K none w (call id vs position) E)
    (w : W) (env : Env) (hG : G w env) :
    ∀ es : List Expr, (∀ l ∈ listedLiterals es, L w l) → K none w (o.evalAll call env es) (All V)
  | [], _ => h.pure (by rintro _ ⟨⟩ v mem; cases mem)
  | e :: rest, hL => by
      obtain ⟨hL, hL'⟩ := List.forall_mem_append.mp hL
      refine h.onValue (evalExpr hc w env hG e hL) all_error fun w v le hv => ?_
      have others := evalAll hc w env (h.env_mono le hG) rest (h.constants le hL')
      refine h.onValues others all_error fun w values le hvalues => h.pure ?_
      rintro _ ⟨⟩ u mem
      rcases List.mem_cons.mp mem with rfl | mem
      · exact h.value_mono le hv
      · exact hvalues u mem

end

end Expressions

theorem widenTo {α : Type} {env : Env} {declares declares' : Bool} {w : W} {Q : W → α → Prop}
    {x : M α} (more : declares → declares') (hx : K (env.opened declares) w x Q) :
    K (env.opened declares') w x Q := by
  cases declares with
  | false => exact h.widen hx
  | true => rwa [more rfl]

/-- What holds at the start of a loop has to hold at the start of every round. -/
theorem repeatWhile {P : W → Prop} {env? : Option Env} {condition : M Value} {body : M Completion}
    (mono : ∀ {w w'}, later w w' → P w → P w') (hx : ∀ w, P w → K none w condition E)
    (hb : ∀ w, P w → K env? w body fun w => Completion.Carries (V w)) (w : W) (hP : P w) (n : Nat) :
    K env? w (o.repeatWhile condition body n) fun w => Completion.Carries (V w) := by
  induction n generalizing w with
  | zero => exact h.widen (h.halt _ _ (.inr rfl))
  | succ n ih =>
      refine h.onValue (hx w hP) (fun _ _ => trivial) fun w value le _ => ?_
      have hP := mono le hP
      split
      · exact h.onNormal (hb w hP) fun w le => ih w (mono le hP)
      · exact h.pure trivial

theorem inBlock (w : W) (env : Env) (hG : G w env) {run : Env → M Completion}
    (hrun : ∀ w' env', later w w' → G w' env' →
      K (some env') w' (run env') fun w => Completion.Carries (V w)) :
    K none w (o.inBlock env run) fun w => Completion.Carries (V w) :=
  h.newScope _ hG (List.forall_mem_nil _) hrun

section Statements
variable {call : CallerIn M} {rounds : Nat}

mutual

theorem execStmt (hc : ∀ w id vs position, (∀ v ∈ vs, V w v) → K none w (call id vs position) E)
    (w : W) (env : Env) (hG : G w env) : ∀ s : Stmt, (∀ l ∈ s.literals, L w l) →
    K (env.opened s.declares) w (o.execStmt call rounds env s) fun w => Completion.Carries (V w)
  | .block body, hL => by
      refine h.onDecl _ hG fun w le => h.inBlock w env (h.env_mono le hG) fun w env le' hG => ?_
      exact execBody hc w env hG body (h.constants le' (h.constants le hL))
  | .declare _ value, hL => by
      refine h.onDecl _ hG fun w le => ?_
      have hG := h.env_mono le hG
      have initial := h.evalExpr hc w env hG value (h.constants le hL)
      refine h.onValue initial (fun _ _ => trivial) fun w v le hv => ?_
      exact h.bind (h.define _ (h.env_mono le hG) hv) fun _ _ _ _ => h.pure trivial
  | .assign _ value _, hL => by
      refine h.onDecl _ hG fun w le => ?_
      have hG := h.env_mono le hG
      have assigned := h.evalExpr hc w env hG value (h.constants le hL)
      refine h.onValue assigned (fun _ _ => trivial) fun w v le hv => ?_
      refine h.bind (h.assign _ (h.env_mono le hG) hv) fun w bound _ _ => ?_
      split <;> exact h.pure trivial
  | .eval value, hL => h.onDecl _ hG fun w le =>
      h.onValue (h.evalExpr hc w env (h.env_mono le hG) value (h.constants le hL))
        (fun _ _ => trivial) fun _ _ _ _ => h.pure trivial
  | .branch condition body otherwise, hL => by
      obtain ⟨hL, hL₃⟩ := List.forall_mem_append.mp hL
      obtain ⟨hL₁, hL₂⟩ := List.forall_mem_append.mp hL
      refine h.onDecl _ hG fun w le => ?_
      have hG := h.env_mono le hG
      have hL₂ := h.constants le hL₂
      have hL₃ := h.constants le hL₃
      have tested := h.evalExpr hc w env hG condition (h.constants le hL₁)
      refine h.onValue tested (fun _ _ => trivial) fun w v le _ => ?_
      have hG := h.env_mono le hG
      split
      · have arm := execStmt hc w env hG body (h.constants le hL₂)
        exact h.widenTo (Bool.or_eq_true_iff.mpr ∘ .inl) arm
      · have arm := execOtherwise hc w env hG otherwise (h.constants le hL₃)
        exact h.widenTo (Bool.or_eq_true_iff.mpr ∘ .inr) arm
  | .loop condition body, hL => by
      obtain ⟨hL₁, hL₂⟩ := List.forall_mem_append.mp hL
      let P (w : W) : Prop :=
        G w env ∧ (∀ l ∈ condition.literals, L w l) ∧ ∀ l ∈ body.literals, L w l
      have mono {w w' : W} (le : later w w') (hP : P w) : P w' :=
        ⟨h.env_mono le hP.1, h.constants le hP.2.1, h.constants le hP.2.2⟩
      refine h.onDecl _ hG fun w le =>
        h.repeatWhile mono (fun w hP => ?_) (fun w hP => ?_) w (mono le ⟨hG, hL₁, hL₂⟩) _
      · exact h.evalExpr hc w env hP.1 condition hP.2.1
      · exact execStmt hc w env hP.1 body hP.2.2
  | .return_ none, _ => h.onDecl _ hG fun w _ => h.pure (h.nil w)
  | .return_ (some value), hL => h.onDecl _ hG fun w le =>
      h.onValue (h.evalExpr hc w env (h.env_mono le hG) value (h.constants le hL))
        (fun _ _ => trivial) fun _ _ _ hv => h.pure hv

theorem execOtherwise
    (hc : ∀ w id vs position, (∀ v ∈ vs, V w v) → K none w (call id vs position) E)
    (w : W) (env : Env) (hG : G w env) : ∀ e : Otherwise, (∀ l ∈ e.literals, L w l) →
    K (env.opened e.declares) w (o.execOtherwise call rounds env e)
      fun w => Completion.Carries (V w)
  | .nothing, _ => h.pure trivial
  | .stmt s, hL => execStmt hc w env hG s hL

theorem execDecl (hc : ∀ w id vs position, (∀ v ∈ vs, V w v) → K none w (call id vs position) E)
    (w : W) (env : Env) (hG : G w env) : ∀ d : Decl, (∀ l ∈ d.literals, L w l) →
    K (some env) w (o.execDecl call rounds env d) fun w => Completion.Carries (V w)
  | .function _ _ _, hL => by
      refine h.onDecl _ hG fun w le => ?_
      have hG := h.env_mono le hG
      refine h.bind (h.widen (h.newFunction _ _ hG (h.constants le hL))) fun w value le hvalue => ?_
      exact h.bind (h.define _ (h.env_mono le hG) hvalue) fun _ _ _ _ => h.pure trivial
  | .stmt s, hL => h.widenTo (fun _ => rfl) (execStmt hc w env hG s hL)

theorem execBody (hc : ∀ w id vs position, (∀ v ∈ vs, V w v) → K none w (call id vs position) E)
    (w : W) (env : Env) (hG : G w env) : ∀ body : List Decl, (∀ l ∈ bodyLiterals body, L w l) →
    K (some env) w (o.execBody call rounds env body) fun w => Completion.Carries (V w)
  | [], _ => h.pure trivial
  | d :: rest, hL => by
      obtain ⟨hL, hL'⟩ := List.forall_mem_append.mp hL
      refine h.onNormal (execDecl hc w env hG d hL) fun w le => ?_
      exact execBody hc w env (h.env_mono le hG) rest (h.constants le hL')

end

end Statements

theorem callFunction (rounds depth : Nat) (w : W) (id : FunctionId) (arguments : List Value)
    (position : Position) (harguments : ∀ v ∈ arguments, V w v) :
    K none w (o.callFunction rounds depth id arguments position) E := by
  induction depth generalizing w id arguments position with
  | zero => exact h.halt _ _ (.inl rfl)
  | succ depth ih =>
      refine h.bind (h.closure w id) fun w f? le hf => ?_
      cases f? with
      | none => exact h.pure (h.value (h.nil w))
      | some f =>
          obtain ⟨hG, hL⟩ := hf f rfl
          dsimp only
          split
          · refine h.newScope _ hG (fun binding mem => ?_) fun w env le' hG => ?_
            · obtain ⟨-, mem⟩ := List.of_mem_zip (Bindings.mem_ofList mem)
              exact h.value_mono le (harguments _ mem)
            · have body : K (some env) w
                  (o.execBody (o.callFunction rounds depth) rounds env f.body)
                  fun w => Completion.Carries (V w) :=
                h.execBody ih w env hG f.body (h.constants le' hL)
              refine h.bind (h.inBody body) fun w c _ hc => ?_
              cases c with
              | normal => exact h.pure (h.value (h.nil w))
              | returned value => exact h.pure (h.value hc)
              | aborted failure => exact h.pure (h.failure w failure)
          · exact h.pure (h.failure w _)

theorem run (stray : ∀ w, K none w (o.step (throw .strayReturn)) fun _ (_ : Option Failure) => True)
    (w : W) (budget : Budget) (program : Program) (hG : G w Machine.globalEnv)
    (hL : ∀ l ∈ bodyLiterals program, L w l) :
    K (some Machine.globalEnv) w (o.run budget program) fun _ _ => True := by
  refine h.bind (h.execBody (h.callFunction _ _) w _ hG program hL) fun w completion _ _ => ?_
  cases completion with
  | normal => exact h.pure trivial
  | returned _ => exact h.widen (stray w)
  | aborted failure => exact h.bind (h.widen (h.onAbort w failure)) fun _ _ _ _ => h.pure trivial

end ScopedUpkeep

end Observer

end Script
