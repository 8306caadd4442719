import Script.Proofs.ScopedUpkeep

/-!
# What evaluation keeps up

A property of values may depend on a world that grows while a program runs, such as the number of
arrays that exist. `Upkeep` lists what has to be checked of the steps of an observer so that all
values of an evaluation have the property, wherever it takes place and whatever constants occur.
From that it holds of everything that evaluation goes on with, in whole runs: what statements
return, what is bound or becomes an element, and the arguments of all calls. The value of an
expression may also be a failure, which nothing goes on with.
-/

namespace Script

/-- The order of the one world that there is where nothing depends on worlds. -/
instance instLEUnit : LE Unit := ⟨fun _ _ => True⟩

namespace Observer
variable {M : Type → Type} [Monad M] {W : Type} [LE W]

/-- What has to be checked of a property `V` of values in a world so that evaluation keeps it up.
The values of expressions have the property `E`, which is `V` but for failures. `K w x Q` says of
the computation `x` that it may start in the world `w`, and that `Q` holds of its result in the
world in which it ends. -/
structure Upkeep (E V : W → Value → Prop)
    (K : {α : Type} → W → M α → (W → α → Prop) → Prop) (o : Observer M) : Prop where
  mono {w w' : W} {v : Value} : w ≤ w' → V w v → V w' v
  literal (w : W) (l : Literal) : V w l.value
  failure (w : W) (failure : Failure) : E w (.error failure)
  value {w : W} {v : Value} : V w v → E w v
  settled {w : W} {v : Value} : E w v → v.kind ≠ .error → V w v
  pure {α : Type} {w : W} {Q : W → α → Prop} {a : α} : Q w a → K w (pure a) Q
  bind {α β : Type} {w : W} {Q : W → α → Prop} {Q' : W → β → Prop} {x : M α} {f : α → M β} :
    K w x Q → (∀ w' a, w ≤ w' → Q w' a → K w' (f a) Q') → K w (x >>= f) Q'
  halt {α : Type} (w : W) {reason : Halt} (Q : W → α → Prop) : reason.IsSpent →
    K w (o.step (throw reason)) Q
  resolve (w : W) (env : Env) (name : Name) (position : Position) :
    K w (o.step (resolve env name position)) E
  newArray {w : W} {elements : Array Value} : (∀ v ∈ elements, V w v) →
    K w (o.step (Eval.newArray elements)) E
  index {w : W} {target index : Value} (position : Position) : V w target → V w index →
    K w (o.step (indexValue target index position)) E
  newScope {w : W} {bindings : Bindings} (name : Name) (env : Env) :
    (∀ binding ∈ bindings, V w binding.2) →
    K w (o.step (Eval.newScope name bindings env)) fun _ _ => True
  define {w : W} {value : Value} (env : Env) (name : Name) : V w value →
    K w (o.step (Eval.define env name value)) fun _ _ => True
  assign {w : W} {value : Value} (env : Env) (name : Name) : V w value →
    K w (o.step (Eval.assign env name value)) fun _ _ => True
  newFunction (w : W) (name : Name) (parameters : List Name) (body : List Decl) (env : Env) :
    K w (o.step (Eval.newFunction name parameters body env)) V
  closure (w : W) (id : FunctionId) : K w (o.step (Eval.closure? id)) fun _ _ => True
  builtin {w : W} {arguments : List Value} (callee : Name) (b : Builtin) :
    (∀ v ∈ arguments, V w v) →
    K w (o.onCall callee (.builtin b) arguments (o.step (b.call arguments))) E
  call {w : W} {arguments : List Value} {x : M Value} (callee : Name) (id : FunctionId) :
    (∀ v ∈ arguments, V w v) → K w x E → K w (o.onCall callee (.function id) arguments x) E
  unary {w : W} {operand : Value} (op : UnaryOp) (position : Position) : V w operand →
    K w (o.onUnary op operand position) E
  binary {w : W} {left right : Value} (op : BinaryOp) (position : Position) :
    V w left → V w right → K w (o.onBinary op left right position) E
  onExpr {w : W} {x : M Value} (env : Env) (e : Expr) : K w x E → K w (o.onExpr env e x) E
  onDecl {w : W} {x : M Completion} (env : Env) (d : Decl) :
    K w x (fun w => Completion.Carries (V w)) →
    K w (o.onDecl env d x) fun w => Completion.Carries (V w)
  inBody {w : W} {x : M Completion} : K w x (fun w => Completion.Carries (V w)) →
    K w (o.inBody x) fun w => Completion.Carries (V w)
  onAbort (w : W) (failure : Failure) : K w (o.onAbort failure) fun _ _ => True

namespace Upkeep
variable {E V : W → Value → Prop} {K : {α : Type} → W → M α → (W → α → Prop) → Prop}
variable {o : Observer M} (h : Upkeep E V K o)
include h

/-- What is kept up everywhere is kept up in every scope. -/
theorem everywhere :
    ScopedUpkeep (fun w w' => w = w' ∨ w ≤ w') (fun _ _ => True) (fun _ _ => True) E V
      (fun _ w x Q => K w x Q) o where
  value_mono later hv := by
    rcases later with rfl | le
    · exact hv
    · exact h.mono le hv
  env_mono _ _ := trivial
  constant_mono _ _ := trivial
  nil w := h.literal w .nil
  literal _ := h.literal _ _
  failure := h.failure
  value := h.value
  settled := h.settled
  pure := h.pure
  bind hx hf := h.bind hx fun w' a le ha => hf w' a (.inr le) ha
  widen hx := hx
  halt := h.halt
  resolve name position _ := h.resolve _ _ name position
  newArray := h.newArray
  index := h.index
  newScope name _ all hf :=
    h.bind (h.newScope name _ all) fun w' env le _ => hf w' env (.inr le) trivial
  define name _ := h.define _ name
  assign name _ := h.assign _ name
  newFunction name parameters _ _ := h.newFunction _ name parameters _ _
  closure w id := by simpa using h.closure w id
  builtin := h.builtin
  call callee id all hx := h.call callee id all (hx _ (.inl rfl))
  unary := h.unary
  binary := h.binary
  onExpr e _ hx := h.onExpr _ e (hx _ (.inl rfl))
  onDecl d _ hx := h.onDecl _ d (hx _ (.inl rfl))
  inBody := h.inBody
  onAbort := h.onAbort

theorem callFunction (rounds depth : Nat) (w : W) (id : FunctionId) (arguments : List Value)
    (position : Position) (all : ∀ v ∈ arguments, V w v) :
    K w (o.callFunction rounds depth id arguments position) E :=
  h.everywhere.callFunction rounds depth w id arguments position all

theorem execBody {call : CallerIn M} {rounds : Nat}
    (hc : ∀ w id vs position, (∀ v ∈ vs, V w v) → K w (call id vs position) E) (w : W) (env : Env)
    (body : List Decl) : K w (o.execBody call rounds env body) fun w => Completion.Carries (V w) :=
  h.everywhere.execBody hc w env trivial body fun _ _ => trivial

theorem run (stray : ∀ w, K w (o.step (throw .strayReturn)) fun _ (_ : Option Failure) => True)
    (w : W) (budget : Budget) (program : Program) :
    K w (o.run budget program) fun _ _ => True :=
  h.everywhere.run stray w budget program trivial fun _ _ => trivial

end Upkeep

end Observer

end Script
