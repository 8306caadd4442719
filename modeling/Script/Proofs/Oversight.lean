import Script.Proofs.Effects
import Script.Proofs.Maintenance

/-!
# Views for which values do not count

A view may be about scopes, arrays or what else there is in a machine, and not about the values that
are computed. What has to be checked then is little: the steps that make or change something, one
rule for all steps that only look at the machine, and one for the moments that are logged.
-/

namespace Script

/-- A moment that tells of nothing that is done at that moment. What a call of a built-in function
does is told of when it is answered. -/
def Moment.marks : Moment → Bool
  | evaluating _ _ | evaluated _ _ _ | executing _ _ | executed _ _ _ | calling _ _ => true
  | answered (.builtin _) _ _ | stepped _ => false
  | answered _ _ _ => true

variable {W : Type}

/-- What has to be checked of a view for which values do not count. `G` are the environments in
use. -/
structure Oversees (c : Course W) (later : W → W → Prop) (G : W → Env → Prop)
    (I : W → Logged Moment → Prop) : Prop where
  later_of_moves {env? : Option Env} {w w' : W} : c.moves env? w w' → later w w'
  env_mono {w w' : W} {env : Env} : later w w' → G w env → G w' env
  blind {w : W} {s : Logged Moment} (trace : Trace) : I w s →
    I w { s with machine := { s.machine with trace := trace } }
  looks {α : Type} {x : Eval α} (w : W) : Eval.Looks x →
    Maintains c I none w (Narrated.step x) fun _ _ => True
  tell {w : W} {moment : Moment} : moment.marks = true → (∀ env ∈ moment.envs, G w env) →
    Maintains c I none w (Narrated.tell moment) fun _ _ => True
  newArray (w : W) (elements : Array Value) :
    Maintains c I none w (Narrated.step (Eval.newArray elements)) fun _ _ => True
  newScope {α : Type} {w : W} {env : Env} {Q : W → α → Prop} {f : Env → Narrated α} (name : Name)
    (bindings : Bindings) : G w env →
    (∀ w' env', later w w' → G w' env' → Maintains c I (some env') w' (f env') Q) →
    Maintains c I none w (Narrated.step (Eval.newScope name bindings env) >>= f) Q
  define {w : W} {env : Env} (name : Name) (value : Value) : G w env →
    Maintains c I (some env) w (Narrated.step (Eval.define env name value)) fun _ _ => True
  assign {w : W} {env : Env} (name : Name) (value : Value) : G w env →
    Maintains c I none w (Narrated.step (Eval.assign env name value)) fun _ _ => True
  newFunction {w : W} {env : Env} (name : Name) (parameters : List Name) (body : List Decl) :
    G w env → Maintains c I none w
      (Narrated.step (Eval.newFunction name parameters body env)) fun _ _ => True
  closure (w : W) (id : FunctionId) :
    Maintains c I none w (Narrated.step (Eval.closure? id)) fun w f? =>
      ∀ f, f? = some f → G w f.env
  builtin (w : W) (b : Builtin) (arguments : List Value) :
    Maintains c I none w (Narrated.between (.calling (.builtin b) arguments)
      (.answered (.builtin b) arguments) (Narrated.step (b.call arguments))) fun _ _ => True

namespace Oversees
variable {c : Course W} {later : W → W → Prop} {G : W → Env → Prop}
variable {I : W → Logged Moment → Prop} (h : Oversees c later G I)
include h

theorem between {α : Type} {env? : Option Env} {w : W} {before : Moment} {after : α → Moment}
    {x : Narrated α} (marks : before.marks = true) (marks' : ∀ a, (after a).marks = true)
    (known : ∀ env ∈ before.envs, G w env) (known' : ∀ a, ∀ env ∈ (after a).envs, G w env)
    (hx : ∀ w', later w w' → Maintains c I env? w' x fun _ _ => True) :
    Maintains c I env? w (Narrated.between before after x) fun _ _ => True := by
  refine (h.tell marks known).widen.bind fun w' _ moved _ => ?_
  refine (hx w' (h.later_of_moves moved)).bind fun w'' a moved' _ => ?_
  have told : Maintains c I none w'' (Narrated.tell (after a)) fun _ _ => True :=
    h.tell (marks' a) fun env mem =>
      h.env_mono (h.later_of_moves (c.trans moved moved')) (known' a env mem)
  exact told.widen.bind fun _ _ _ _ => .pure trivial

theorem traced {w : W} {x : Narrated Value} (callee : Name) (function : Value)
    (arguments : List Value)
    (answered : Maintains c I none w (Narrated.between (.calling function arguments)
      (.answered function arguments) x) fun _ _ => True) :
    Maintains c I none w (Observer.narrating.onCall callee function arguments x) fun _ _ => True :=
  answered.bind fun w result _ _ =>
    (h.looks w (Traces.call callee arguments result).looks).bind fun _ _ _ _ => .pure trivial

/-- Such a view is maintained by every evaluation. -/
theorem upkeep : Observer.ScopedUpkeep later (fun _ _ => True) G (fun _ _ => True)
    (fun _ _ => True) (fun env? w x Q => Maintains c I env? w x Q) Observer.narrating where
  value_mono _ _ := trivial
  env_mono := h.env_mono
  constant_mono _ _ := trivial
  nil _ := trivial
  literal _ := trivial
  failure _ _ := trivial
  value _ := trivial
  settled _ _ := trivial
  pure h := .pure h
  bind hx hf := hx.bind fun w' a moved ha => hf w' a (h.later_of_moves moved) ha
  widen h := h.widen
  halt _ _ _ _ := .halt _
  resolve name position _ := h.looks _ (Eval.Consults.resolve _ name position).looks
  newArray _ := h.newArray _ _
  index position _ _ := h.looks _ (Eval.Consults.indexValue _ _ position).looks
  newScope name hG _ hf := h.newScope name _ hG hf
  define name hG _ := h.define name _ hG
  assign name hG _ := h.assign name _ hG
  newFunction name parameters hG _ := h.newFunction name parameters _ hG
  closure w id := (h.closure w id).imp fun _ _ known f found =>
    ⟨known f found, fun _ _ => trivial⟩
  builtin callee b _ := h.traced callee _ _ (h.builtin _ b _)
  call callee id _ hx := h.traced callee _ _ <|
    h.between rfl (fun _ => rfl) (fun _ mem => absurd mem List.not_mem_nil)
      (fun _ _ mem => absurd mem List.not_mem_nil) hx
  unary op position _ := h.looks _ (Eval.Consults.tracedUnary op _ position).looks
  binary op position _ _ := h.looks _ (Eval.Consults.tracedBinary op _ _ position).looks
  onExpr e hG hx := h.between rfl (fun _ => rfl) (List.forall_mem_singleton.mpr hG)
    (fun _ => List.forall_mem_singleton.mpr hG) hx
  onDecl s hG hx := by
    refine Maintains.imp (P := fun _ _ => True) ?_ fun _ completion _ => completion.carries_true
    refine h.between rfl (fun _ => rfl) (List.forall_mem_singleton.mpr hG)
      (fun _ => List.forall_mem_singleton.mpr hG) fun w' le => ?_
    exact (hx w' le).imp fun _ _ _ => trivial
  inBody hx := .indented (fun _ _ trace viewed => h.blind trace viewed) hx
  onAbort _ failure := h.looks _ (Traces.line _).looks

section Executions
variable (budget : Budget) {w : W}

theorem caller (w : W) (id : FunctionId) (arguments : List Value) (position : Position)
    (all : ∀ v ∈ arguments, True) :
    Maintains c I none w (Narrated.caller budget id arguments position) fun _ _ => True :=
  h.upkeep.callFunction _ _ w id arguments position all

theorem evalExpr {env : Env} (hG : G w env) (e : Expr) :
    Maintains c I none w (Observer.narrating.evalExpr (Narrated.caller budget) env e) fun _ _ =>
      True :=
  h.upkeep.evalExpr (h.caller budget) w env hG e fun _ _ => trivial

theorem evalAll {env : Env} (hG : G w env) (es : List Expr) :
    Maintains c I none w (Observer.narrating.evalAll (Narrated.caller budget) env es) fun _ _ =>
      True :=
  (h.upkeep.evalAll (h.caller budget) w env hG es fun _ _ => trivial).imp fun _ _ _ => trivial

theorem execStmt {env : Env} (hG : G w env) (s : Stmt) :
    Maintains c I (env.opened s.declares) w
      (Observer.narrating.execStmt (Narrated.caller budget) budget.rounds env s) fun _ _ => True :=
  (h.upkeep.execStmt (h.caller budget) w env hG s fun _ _ => trivial).imp fun _ _ _ => trivial

theorem execDecl {env : Env} (hG : G w env) (d : Decl) :
    Maintains c I (some env) w
      (Observer.narrating.execDecl (Narrated.caller budget) budget.rounds env d) fun _ _ => True :=
  (h.upkeep.execDecl (h.caller budget) w env hG d fun _ _ => trivial).imp fun _ _ _ => trivial

theorem execBody {env : Env} (hG : G w env) (body : List Decl) :
    Maintains c I (some env) w
      (Observer.narrating.execBody (Narrated.caller budget) budget.rounds env body) fun _ _ =>
      True :=
  (h.upkeep.execBody (h.caller budget) w env hG body fun _ _ => trivial).imp fun _ _ _ => trivial

theorem run (program : Program) (hG : G w Machine.globalEnv) :
    Maintains c I (some Machine.globalEnv) w (Observer.narrating.run budget program) fun _ _ =>
      True :=
  h.upkeep.run (fun _ => .halt _) w budget program hG fun _ _ => trivial

end Executions

end Oversees

end Script
