import Script.Proofs.LocalNames
import Script.Proofs.Twins

/-!
# Two runs side by side

A simulation compares two machines in a world, which says what their scopes have to do with each
other and moves on with the runs. Two computations agree from a world on if they come to the same
end from all machines that are related there or later: with the same result or the same halt, and
with machines that are related again.

Code evaluates alike where names are replaced if what is left to the names is alike: looking them
up, giving them values, and entering scopes. This is carried through expressions, statements and
calls once and for all; steps without names agree in every simulation.
-/

namespace Script

theorem getElem?_of_later {α : Type} {l l' : List α} {i : Nat} {a : α} (le : l <+: l')
    (h : l[i]? = some a) : l'[i]? = some a := by
  obtain ⟨more, rfl⟩ := le
  obtain ⟨lt, -⟩ := List.getElem?_eq_some_iff.mp h
  rwa [List.getElem?_append_left lt]

/-- A relation of machines in worlds. It only depends on scopes and functions, apart from what twins
have in common. -/
structure Simulation (W : Type) where
  later : W → W → Prop
  refl (w : W) : later w w
  trans {w w' w'' : W} : later w w' → later w' w'' → later w w''
  relates : W → Machine → Machine → Prop
  twin {w : W} {m m' : Machine} : relates w m m' → m.Twin m'
  stays {w : W} {m m' n n' : Machine} : relates w m m' → n.Twin n' → m.Stays n → m'.Stays n' →
    relates w n n'

namespace Simulation
variable {W : Type} (S : Simulation W) {α β γ δ : Type}

/-- The same end of two computations, in a world later than `w`. -/
inductive Ends (w : W) (Q : W → α → β → Prop) :
    EStateM.Result Halt Machine α → EStateM.Result Halt Machine β → Prop
  | ok {w' : W} {a : α} {b : β} {m m' : Machine} : S.later w w' → S.relates w' m m' → Q w' a b →
      Ends w Q (.ok a m) (.ok b m')
  | error {w' : W} {reason : Halt} {m m' : Machine} : S.later w w' → S.relates w' m m' →
      Ends w Q (.error reason m) (.error reason m')

/-- Two computations that come to the same end from machines that are related in a world. -/
def Tracks (w : W) (x : Eval α) (y : Eval β) (Q : W → α → β → Prop) : Prop :=
  ∀ m m', S.relates w m m' → S.Ends w Q (x m) (y m')

/-- Two computations that have the same result from this world on. -/
def Agree (w : W) (x y : Eval α) : Prop :=
  ∀ w', S.later w w' → S.Tracks w' x y fun _ a b => b = a

variable {S}

namespace Ends
variable {w w' : W} {Q : W → α → β → Prop}

theorem earlier {result : EStateM.Result Halt Machine α} {result' : EStateM.Result Halt Machine β}
    (h : S.Ends w' Q result result') (le : S.later w w') : S.Ends w Q result result' := by
  cases h with
  | ok le' related hQ => exact .ok (S.trans le le') related hQ
  | error le' related => exact .error (S.trans le le') related

/-- What follows may start from a world that is later. -/
theorem bind {x : Eval α} {y : Eval β} {f : α → Eval γ} {g : β → Eval δ} {m m' : Machine}
    {Q' : W → γ → δ → Prop} (h : S.Ends w' Q (x m) (y m')) (le : S.later w w')
    (hf : ∀ w'' a b n n', S.later w' w'' → S.relates w'' n n' → Q w'' a b →
      S.Ends w Q' (f a n) (g b n')) : S.Ends w Q' ((x >>= f) m) ((y >>= g) m') := by
  generalize hm : x m = r, hm' : y m' = r' at h
  cases h with
  | error le' related =>
      rw [bind_of_error hm, bind_of_error hm']
      exact .error (S.trans le le') related
  | ok le' related hQ =>
      rw [bind_of_ok hm, bind_of_ok hm']
      exact hf _ _ _ _ _ le' related hQ

/-- Computations that do the same to twins come to the same end. -/
theorem of_sameEnd {m m' : Machine} (related : S.relates w m m')
    {result result' : EStateM.Result Halt Machine α} (h : Eval.SameEnd m m' result result') :
    S.Ends w (fun _ a b => b = a) result result' := by
  cases h with
  | ok twin left right => exact .ok (S.refl w) (S.stays related twin left right) rfl
  | error twin left right => exact .error (S.refl w) (S.stays related twin left right)

end Ends

namespace Tracks
variable {w : W} {Q : W → α → β → Prop} {x : Eval α} {y : Eval β}

theorem bind {f : α → Eval γ} {g : β → Eval δ} {Q' : W → γ → δ → Prop} (h : S.Tracks w x y Q)
    (hf : ∀ w' a b, S.later w w' → Q w' a b → S.Tracks w' (f a) (g b) Q') :
    S.Tracks w (x >>= f) (y >>= g) Q' := fun m m' related =>
  (h m m' related).bind (S.refl w) fun w' a b n n' le related hQ =>
    (hf w' a b le hQ n n' related).earlier le

theorem indented (h : S.Tracks w x y Q) : S.Tracks w (Eval.indented x) (Eval.indented y) Q := by
  have retraced {w : W} {m m' : Machine} (related : S.relates w m m') (f : Trace → Trace)
      (same : ∀ t, (f t).enabled = t.enabled) :
      S.relates w { m with trace := f m.trace } { m' with trace := f m'.trace } := by
    have twin := S.twin related
    refine S.stays related ⟨twin.arrays, twin.input, twin.output, ?_, twin.heads⟩
      ⟨rfl, rfl, same _⟩ ⟨rfl, rfl, same _⟩
    dsimp only
    rw [twin.trace]
  intro m m' related
  have inner := h _ _ (retraced related Trace.indent Trace.enabled_indent)
  unfold Eval.indented
  generalize x _ = r, y _ = r' at inner
  cases inner with
  | ok le related hQ => exact .ok le (retraced related Trace.dedent Trace.enabled_dedent) hQ
  | error le related => exact .error le (retraced related Trace.dedent Trace.enabled_dedent)

end Tracks

namespace Agree
variable {w w' : W} {x y : Eval α}

theorem now (h : S.Agree w x y) : S.Tracks w x y fun _ a b => b = a :=
  h w (S.refl w)

theorem later (h : S.Agree w x y) (le : S.later w w') : S.Agree w' x y :=
  fun w'' le' => h w'' (S.trans le le')

theorem of_nameless (h : Eval.Nameless x) : S.Agree w x x :=
  fun _ _ m m' related => .of_sameEnd related (h.abreast m m' (S.twin related))

theorem pure (a : α) : S.Agree w (pure a) (pure a) :=
  of_nameless (.pure a)

theorem bind {f g : α → Eval β} (h : S.Agree w x y) (hf : ∀ a, S.Agree w (f a) (g a)) :
    S.Agree w (x >>= f) (y >>= g) := by
  intro w' le
  refine (h w' le).bind fun w'' a b le' same => ?_
  rw [same]
  exact hf a w'' (S.trans le le')

theorem onValue {x y : Eval Value} {fail : Failure → α} {f g : Value → Eval α}
    (h : S.Agree w x y) (hf : ∀ v, S.Agree w (f v) (g v)) :
    S.Agree w (onValue x fail f) (onValue y fail g) := by
  refine h.bind fun v => ?_
  cases v with
  | error failure => exact pure _
  | _ => exact hf _

theorem onValues {x y : Eval (Except Failure (List Value))} {fail : Failure → α}
    {f g : List Value → Eval α} (h : S.Agree w x y) (hf : ∀ vs, S.Agree w (f vs) (g vs)) :
    S.Agree w (onValues x fail f) (onValues y fail g) := by
  refine h.bind fun r => ?_
  cases r with
  | error failure => exact pure _
  | ok values => exact hf values

theorem onNormal {x y x' y' : Eval Completion} (h : S.Agree w x y) (h' : S.Agree w x' y') :
    S.Agree w (do match ← x with | .normal => x' | completion => Pure.pure completion)
      (do match ← y with | .normal => y' | completion => Pure.pure completion) := by
  refine h.bind fun completion => ?_
  cases completion with
  | normal => exact h'
  | _ => exact pure _

theorem repeatWhile {condition condition' : Eval Value} {body body' : Eval Completion}
    (hc : S.Agree w condition condition') (hb : S.Agree w body body') (n : Nat) :
    S.Agree w (repeatWhile condition body n) (repeatWhile condition' body' n) := by
  induction n with
  | zero => exact of_nameless (.halt _)
  | succ n ih =>
      refine hc.onValue fun value => ?_
      split
      · exact hb.onNormal ih
      · exact pure _

end Agree

variable (S) in
/-- Two ways to call functions that agree. -/
def CallsAgree (call call' : Caller) : Prop :=
  ∀ w id arguments position, S.Agree w (call id arguments position) (call' id arguments position)

variable (S) in
/-- An operation on an environment and a name that agrees for the names that occur in code. -/
def NameAgrees (w : W) (σ : Name → Name) (occurs : Name → Prop)
    (x y : Name → Eval α) : Prop :=
  ∀ name, occurs name → S.Agree w (x name) (y (σ name))

section Expressions
variable {call call' : Caller} {w : W} {env env' : Env} {σ : Name → Name} {occurs : Name → Prop}

mutual

theorem evalExpr (calls : S.CallsAgree call call')
    (names : ∀ position, S.NameAgrees w σ occurs (resolve env · position) (resolve env' · position))
    (traced : ∀ arguments value, S.NameAgrees w σ occurs (traceCall · arguments value)
      (traceCall · arguments value)) :
    ∀ {e : Expr}, (∀ n ∈ e.names, occurs n) →
      S.Agree w (evalExpr call env e) (evalExpr call' env' (e.rename σ))
  | .literal _, _ => .pure _
  | .name name position, h => names position name (h name List.mem_cons_self)
  | .array _, h => (evalAll calls names traced h).onValues fun values =>
      .of_nameless (.newArray values.toArray)
  | .call callee _ position, h => by
      obtain ⟨hcallee, h⟩ := List.forall_mem_cons.mp h
      refine (names position callee hcallee).onValue fun function => ?_
      refine (evalAll calls names traced h).onValues fun values => ?_
      cases function with
      | builtin b =>
          refine (Agree.of_nameless (b.nameless_call values)).bind fun v => ?_
          exact (traced values v callee hcallee).bind fun _ => .pure v
      | function id =>
          refine (calls w id values position).bind fun v => ?_
          exact (traced values v callee hcallee).bind fun _ => .pure v
      | _ => exact .pure _
  | .index _ _ position, h => by
      obtain ⟨ht, hi⟩ := List.forall_mem_append.mp h
      refine (evalExpr calls names traced ht).onValue fun t => ?_
      exact (evalExpr calls names traced hi).onValue fun i =>
        .of_nameless (.indexValue t i position)
  | .unary op operand position, h =>
      (evalExpr (e := operand) calls names traced h).onValue fun v =>
        .of_nameless (.tracedUnary op v position)
  | .binary op _ _ position, h => by
      obtain ⟨hl, hr⟩ := List.forall_mem_append.mp h
      refine (evalExpr calls names traced hl).onValue fun l => ?_
      exact (evalExpr calls names traced hr).onValue fun r =>
        .of_nameless (.tracedBinary op l r position)

theorem evalAll (calls : S.CallsAgree call call')
    (names : ∀ position, S.NameAgrees w σ occurs (resolve env · position) (resolve env' · position))
    (traced : ∀ arguments value, S.NameAgrees w σ occurs (traceCall · arguments value)
      (traceCall · arguments value)) :
    ∀ {es : List Expr}, (∀ n ∈ listedNames es, occurs n) →
      S.Agree w (evalAll call env es) (evalAll call' env' (renameListed σ es))
  | [], _ => .pure _
  | _ :: _, h => by
      obtain ⟨first, rest⟩ := List.forall_mem_append.mp h
      refine (evalExpr calls names traced first).onValue fun v => ?_
      exact (evalAll calls names traced rest).onValues fun vs => .pure _

end

end Expressions

end Simulation

end Script
