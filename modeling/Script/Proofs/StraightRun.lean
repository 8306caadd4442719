import Mathlib.Data.List.Sigma
import Script.Proofs.Rendering
import Script.Proofs.RuleViolations
import Script.Proofs.Unbounded
import Script.Proofs.UnwindingRun

/-!
# Programs without loops and functions

A program in which no loop and no function is declared comes to an end, whatever it reads, and
evaluates none of its expressions twice. There is nothing it could call but built-in functions, for
no value of its run is a function: so evaluation only goes from an expression or a statement to
those in it, and each time to others.

The run without budgets is therefore defined, and it is the run within any budget. If it halts for
want of depth, then some value of its last state is shown in no depth.
-/

namespace Script

def Decl.isLoop : Decl → Bool
  | .stmt (.loop _ _) => true
  | _ => false

/-- A statement that is neither a loop nor the declaration of a function. -/
structure Place.IsStraight (place : Place) : Prop where
  noLoop : ¬place.decl.isLoop
  noFunction : ¬place.decl.isFunction

instance (place : Place) : Decidable place.IsStraight :=
  decidable_of_iff (¬place.decl.isLoop ∧ ¬place.decl.isFunction)
    ⟨fun h => ⟨h.1, h.2⟩, fun h => ⟨h.noLoop, h.noFunction⟩⟩

/-- A program in which there are neither loops nor functions. -/
def Program.IsStraight (program : Program) : Prop :=
  ∀ place ∈ program.places, place.IsStraight

instance (program : Program) : Decidable program.IsStraight :=
  inferInstanceAs (Decidable (∀ place ∈ program.places, place.IsStraight))

/-! ### Values of straight code -/

/-- A value that is no function of the program, and no array but one of the first `n`. -/
def Value.Inert (n : Nat) : Value → Prop
  | .array a => a < n
  | .function _ => False
  | _ => True

namespace Value.Inert
variable {n n' : Nat} {v : Value}

theorem within (h : v.Inert n) : v.Within n := by
  rintro a rfl
  exact h

theorem mono (h : v.Inert n) (le : n ≤ n') : v.Inert n' := by
  cases v with
  | array a => exact Nat.lt_of_lt_of_le h le
  | function id => exact h
  | _ => trivial

theorem of_computed (h : v.Computed) : v.Inert n := by
  cases h <;> trivial

end Value.Inert

/-- All values that a machine holds are inert. -/
def Machine.Inert (m : Machine) : Prop :=
  m.Holds (Value.Inert m.arrays.size)

namespace Machine.Inert
variable {m : Machine}

theorem closed (h : m.Inert) : m.Closed where
  elements a v mem := (h.elements a v mem).within
  bindings id binding mem := (h.bindings id binding mem).within

theorem supplied (h : m.Inert) {v : Value} (supplies : m.Supplies v) :
    v.Inert m.arrays.size := by
  cases supplies with
  | computed computed => exact .of_computed computed
  | bound mem => exact h.bindings _ _ mem
  | element mem => exact h.elements _ v mem

theorem retraced (h : m.Inert) (t : Trace) : ({ m with trace := t } : Machine).Inert :=
  h.of_eq rfl rfl

theorem allocate (h : m.Inert) {elements : Array Value}
    (all : ∀ v ∈ elements, v.Inert m.arrays.size) : (m.allocate elements).Inert := by
  have le : m.arrays.size ≤ (m.allocate elements).arrays.size := by simp [Machine.allocate]
  exact (h.imp fun v hv => hv.mono le).allocate fun v mem => (all v mem).mono le

theorem store (h : m.Inert) (a : ArrayId) (i : Nat) {v : Value} (hv : v.Inert m.arrays.size) :
    (m.store a i v).Inert := by
  rw [Machine.Inert, Machine.size_arrays_store]
  exact Machine.Holds.store h a i hv

end Machine.Inert

namespace Eval
variable {α β : Type}

/-- How a step of straight code ends that has started with `n` arrays: all values are inert, and
`Q` holds of the result, or it halts, but not for want of rounds, and for want of depth only if a
value is not shown. -/
def Ends (n : Nat) (Q : Nat → α → Prop) : EStateM.Result Halt Machine α → Prop
  | .ok a m => m.Inert ∧ n ≤ m.arrays.size ∧ Q m.arrays.size a
  | .error reason m => m.Inert ∧ m.Halts (Value.Inert m.arrays.size) reason

theorem Ends.mono {n n' : Nat} {Q : Nat → α → Prop} {result : EStateM.Result Halt Machine α}
    (h : Ends n' Q result) (le : n ≤ n') : Ends n Q result := by
  cases result with
  | ok a m => exact ⟨h.1, le.trans h.2.1, h.2.2⟩
  | error reason m => exact h

/-- A step of straight code. -/
def Straight (n : Nat) (x : Eval α) (Q : Nat → α → Prop) : Prop :=
  ∀ m, m.Inert → m.arrays.size = n → Ends n Q (x m)

namespace Straight
variable {n : Nat} {Q : Nat → α → Prop} {Q' : Nat → β → Prop}

theorem pure {a : α} (h : Q n a) : Straight n (pure a) Q := by
  rintro m inert rfl
  exact ⟨inert, Nat.le_refl _, h⟩

theorem halt {reason : Halt} (other : ¬reason.IsSpent) :
    Straight n (throw reason : Eval α) Q := by
  rintro m inert rfl
  exact ⟨inert, Presents.halt (α := α) other m reason m rfl⟩

theorem bind {x : Eval α} {f : α → Eval β} (hx : Straight n x Q)
    (hf : ∀ n' a, n ≤ n' → Q n' a → Straight n' (f a) Q') : Straight n (x >>= f) Q' := by
  intro m inert size
  have left := hx m inert size
  cases hm : x m with
  | ok a m' =>
      rw [hm] at left
      rw [bind_of_ok hm]
      obtain ⟨inert', le, ha⟩ := left
      exact (hf _ a le ha m' inert' rfl).mono le
  | error reason m' =>
      rw [hm] at left
      rw [bind_of_error hm]
      exact left

theorem traces {values : List Value} {x : Eval Unit} (h : Traces values x)
    (all : ∀ v ∈ values, v.Inert n) : Straight n x fun _ _ => True := by
  rintro m inert rfl
  obtain ⟨t, ht⟩ | ⟨reason, ht, -⟩ := h.result m
  · rw [ht]
    exact ⟨inert.retraced t, Nat.le_refl _, trivial⟩
  · have halts := Presents.traces h all m reason m ht
    rw [ht]
    exact ⟨inert, halts⟩

theorem consults {x : Eval Value} (h : Consults x) (presents : Presents (Value.Inert n) x) :
    Straight n x fun n => Value.Inert n := by
  rintro m inert rfl
  obtain ⟨t, ⟨v, found, supplied⟩ | ⟨reason, halted⟩⟩ := h m
  · rw [found]
    exact ⟨inert.retraced t, Nat.le_refl _, inert.supplied supplied⟩
  · have halts := presents m reason _ halted
    rw [halted]
    exact ⟨inert.retraced t, halts⟩

theorem traced {x : Eval Value} {trace : Value → Eval Unit} {shown : Value → List Value}
    (hx : Straight n x fun n => Value.Inert n) (traces : ∀ v, Traces (shown v) (trace v))
    (all : ∀ n' v, n ≤ n' → v.Inert n' → ∀ u ∈ shown v, u.Inert n') :
    Straight n (do let v ← x; trace v; return v) fun n => Value.Inert n :=
  hx.bind fun n' v le hv => (Straight.traces (traces v) (all n' v le hv)).bind fun _ _ le' _ =>
    pure (hv.mono le')

theorem newArray {elements : Array Value} (all : ∀ v ∈ elements, v.Inert n) :
    Straight n (newArray elements) fun n => Value.Inert n := by
  rintro m inert rfl
  have size : (m.allocate elements).arrays.size = m.arrays.size + 1 := Array.size_push _
  have le : m.arrays.size ≤ (m.allocate elements).arrays.size := by omega
  refine ⟨inert.allocate all, le, ?_⟩
  change m.arrays.size < (m.allocate elements).arrays.size
  omega

theorem newScope (name : Name) (env : Env) :
    Straight n (newScope name [] env) fun _ _ => True := by
  rintro m inert rfl
  have made : ({ m with scopes := (m.scopes.make name []).2 } : Machine).Inert :=
    inert.make name (List.forall_mem_nil _)
  exact ⟨made, Nat.le_refl _, trivial⟩

theorem define (env : Env) (name : Name) {v : Value} (hv : v.Inert n) :
    Straight n (define env name v) fun _ _ => True := by
  rintro m inert rfl
  cases env with
  | nil => exact ⟨inert, Nat.le_refl _, trivial⟩
  | cons id env => exact ⟨inert.define id name hv, Nat.le_refl _, trivial⟩

theorem assign (env : Env) (name : Name) {v : Value} (hv : v.Inert n) :
    Straight n (assign env name v) fun _ _ => True := by
  rintro m inert rfl
  obtain ⟨id, -, assigned⟩ | ⟨-, unbound⟩ := assign_cases env name v m
  · rw [assigned]
    exact ⟨inert.define id name hv, Nat.le_refl _, trivial⟩
  · rw [unbound]
    exact ⟨inert, Nat.le_refl _, trivial⟩

theorem builtin (b : Builtin) {arguments : List Value} (all : ∀ v ∈ arguments, v.Inert n) :
    Straight n (b.call arguments) fun n => Value.Inert n := by
  rintro m inert rfl
  have does := Builtin.does_call m b arguments
  have halts := Builtin.presents_call b all m
  generalize b.call arguments m = result at does halts
  cases does with
  | refuses cause => exact ⟨inert, Nat.le_refl _, .of_computed (.error _)⟩
  | computes _ _ computed => exact ⟨inert, Nat.le_refl _, .of_computed computed⟩
  | picks _ mem => exact ⟨inert, Nat.le_refl _, inert.elements _ _ mem⟩
  | measuresString _ => exact ⟨inert, Nat.le_refl _, trivial⟩
  | measuresArray a => exact ⟨inert, Nat.le_refl _, trivial⟩
  | @makes _ _ elements makes =>
      have within : ∀ v ∈ elements, v.Inert m.arrays.size := by
        intro v mem
        rcases makes.mem_or mem with argument | ⟨a, old⟩
        · exact all v argument
        · exact inert.elements a v old
      exact newArray within m inert rfl
  | stores v _ _ =>
      refine ⟨inert.store _ _ (all v (by simp)), ?_, trivial⟩
      rw [Machine.size_arrays_store]
  | prints _ output _ => exact ⟨inert.of_eq rfl rfl, Nat.le_refl _, trivial⟩
  | reads t _ _ => exact ⟨inert.of_eq rfl rfl, Nat.le_refl _, trivial⟩
  | halts reason output _ => exact ⟨inert.of_eq rfl rfl, halts reason _ rfl⟩

theorem tracedCall (callee : Name) {arguments : List Value} {x : Eval Value}
    (all : ∀ v ∈ arguments, v.Inert n) (hx : Straight n x fun n => Value.Inert n) :
    Straight n (tracedCall callee arguments x) fun n => Value.Inert n := by
  refine hx.traced (fun v => .call callee arguments v) fun n' v le hv => ?_
  exact List.forall_mem_append.mpr ⟨fun u mem => (all u mem).mono le,
    List.forall_mem_singleton.mpr hv⟩

theorem tracedUnary (op : UnaryOp) {operand : Value} (ho : operand.Inert n)
    (position : Position) :
    Straight n (tracedUnary op operand position) fun n => Value.Inert n := by
  have applied : Straight n (Pure.pure (op.apply operand position)) fun n => Value.Inert n :=
    pure (.of_computed (op.computed_apply operand position))
  refine applied.traced (fun v => .unary op operand v) fun n' v le hv => ?_
  exact List.forall_mem_cons.mpr ⟨ho.mono le, List.forall_mem_singleton.mpr hv⟩

theorem tracedBinary (op : BinaryOp) {left right : Value} (hl : left.Inert n) (hr : right.Inert n)
    (position : Position) :
    Straight n (tracedBinary op left right position) fun n => Value.Inert n := by
  have applied : Straight n (op.apply left right position) fun n => Value.Inert n :=
    consults (.binary op left right position) (.binary op left right position)
  refine applied.traced (fun v => .binary op left right v) fun n' v le hv => ?_
  exact List.forall_mem_cons.mpr ⟨hl.mono le, List.forall_mem_cons.mpr ⟨hr.mono le,
    List.forall_mem_singleton.mpr hv⟩⟩

theorem resolve (env : Env) (name : Name) (position : Position) :
    Straight n (resolve env name position) fun n => Value.Inert n := by
  refine consults (.resolve env name position) fun m reason m' halted => ?_
  obtain ⟨v, found, -⟩ := supplies_resolve env name position m
  rw [found] at halted
  cases halted

end Straight

end Eval

/-! ### Two evaluations of straight code -/

namespace Unbounded
variable {α β : Type}

/-- Started with `n` arrays, a computation without budgets does what a step of straight code does,
and evaluates no expressions but these, in this order. -/
structure Mirrors (n : Nat) (x : Eval α) (y : Unbounded α) (visits : List Visit)
    (Q : Nat → α → Prop) : Prop where
  straight : x.Straight n Q
  follows (m : Machine) (log : List Visit) : m.Inert → m.arrays.size = n →
    ∃ new, new.Sublist visits ∧ y ⟨m, log⟩ = Part.some (Logged.outcome id (log ++ new) (x m))

namespace Mirrors
variable {n : Nat} {visits visits' : List Visit} {Q : Nat → α → Prop} {Q' : Nat → β → Prop}

theorem step {x : Eval α} (h : Eval.Straight n x Q) : Mirrors n x (step x) visits Q where
  straight := h
  follows m log _ _ := by
    refine ⟨[], List.nil_sublist visits, ?_⟩
    rw [List.append_nil, Unbounded.step, Logged.lift]
    cases x m <;> rfl

theorem pure {a : α} (h : Q n a) : Mirrors n (pure a) (pure a) visits Q :=
  step (.pure h)

theorem bind {x : Eval α} {y : Unbounded α} {f : α → Eval β} {g : α → Unbounded β}
    (hx : Mirrors n x y visits Q)
    (hf : ∀ n' a, n ≤ n' → Q n' a → Mirrors n' (f a) (g a) visits' Q') :
    Mirrors n (x >>= f) (y >>= g) (visits ++ visits') Q' where
  straight := hx.straight.bind fun n' a le ha => (hf n' a le ha).straight
  follows m log inert size := by
    obtain ⟨new, part, first⟩ := hx.follows m log inert size
    have ended := hx.straight m inert size
    cases hm : x m with
    | ok a m' =>
        rw [hm] at first ended
        obtain ⟨inert', le, ha⟩ := ended
        obtain ⟨new', part', second⟩ := (hf _ a le ha).follows m' (log ++ new) inert' rfl
        refine ⟨new ++ new', part.append part', ?_⟩
        rw [bind_of_ok first, Script.bind_of_ok hm, ← List.append_assoc]
        exact second
    | error reason m' =>
        rw [hm] at first
        refine ⟨new, part.trans (List.sublist_append_left visits visits'), ?_⟩
        rw [bind_of_error first, Script.bind_of_error hm]
        rfl

/-- What follows a step evaluates its expressions alone. -/
theorem after {x : Eval α} {f : α → Eval β} {g : α → Unbounded β} (hx : x.Straight n Q)
    (hf : ∀ n' a, n ≤ n' → Q n' a → Mirrors n' (f a) (g a) visits Q') :
    Mirrors n (x >>= f) (Unbounded.step x >>= g) visits Q' := by
  have first : Mirrors n x (Unbounded.step x) [] Q := step hx
  exact first.bind hf

theorem visit {x : Eval α} {y : Unbounded α} (e : Expr) (number : Nat)
    (h : Mirrors n x y visits Q) :
    Mirrors n x (do visit e number; y) ((e, number) :: visits) Q where
  straight := h.straight
  follows m log inert size := by
    obtain ⟨new, part, same⟩ := h.follows m (log ++ [(e, number)]) inert size
    refine ⟨(e, number) :: new, part.cons_cons _, ?_⟩
    rw [List.append_cons, visit_bind]
    exact same

theorem weaken {x : Eval α} {y : Unbounded α} (h : Mirrors n x y visits Q)
    (le : visits.Sublist visits') : Mirrors n x y visits' Q where
  straight := h.straight
  follows m log inert size := by
    obtain ⟨new, part, same⟩ := h.follows m log inert size
    exact ⟨new, part.trans le, same⟩

theorem onValue {x : Eval Value} {y : Unbounded Value} {fail : Failure → β}
    {f : Value → Eval β} {g : Value → Unbounded β}
    (hx : Mirrors n x y visits fun n => Value.Inert n)
    (hfail : ∀ n failure, Q' n (fail failure))
    (hf : ∀ n' v, n ≤ n' → v.Inert n' → Mirrors n' (f v) (g v) visits' Q') :
    Mirrors n (onValue x fail f) (onValue y fail g) (visits ++ visits') Q' := by
  refine hx.bind fun n' v le hv => ?_
  cases v with
  | error failure => exact pure (hfail n' failure)
  | _ => exact hf n' _ le hv

/-- The values of several expressions are inert, unless one of them fails. -/
def AllInert (n : Nat) (r : Except Failure (List Value)) : Prop :=
  ∀ values, r = .ok values → ∀ v ∈ values, v.Inert n

theorem onValues {x : Eval (Except Failure (List Value))}
    {y : Unbounded (Except Failure (List Value))} {fail : Failure → β}
    {f : List Value → Eval β} {g : List Value → Unbounded β} (hx : Mirrors n x y visits AllInert)
    (hfail : ∀ n failure, Q' n (fail failure))
    (hf : ∀ n' values, n ≤ n' → (∀ v ∈ values, v.Inert n') →
      Mirrors n' (f values) (g values) visits' Q') :
    Mirrors n (onValues x fail f) (onValues y fail g) (visits ++ visits') Q' := by
  refine hx.bind fun n' r le hr => ?_
  cases r with
  | error failure => exact pure (hfail n' failure)
  | ok values => exact hf n' values le (hr values rfl)

/-- Goes on with a value and evaluates no more expressions. -/
theorem onLastValue {x : Eval Value} {y : Unbounded Value} {fail : Failure → β}
    {f : Value → Eval β} {g : Value → Unbounded β}
    (hx : Mirrors n x y visits fun n => Value.Inert n)
    (hfail : ∀ n failure, Q' n (fail failure))
    (hf : ∀ n' v, n ≤ n' → v.Inert n' → Mirrors n' (f v) (g v) [] Q') :
    Mirrors n (Script.onValue x fail f) (Script.onValue y fail g) visits Q' := by
  rw [← List.append_nil visits]
  exact hx.onValue hfail hf

theorem onLastValues {x : Eval (Except Failure (List Value))}
    {y : Unbounded (Except Failure (List Value))} {fail : Failure → β}
    {f : List Value → Eval β} {g : List Value → Unbounded β} (hx : Mirrors n x y visits AllInert)
    (hfail : ∀ n failure, Q' n (fail failure))
    (hf : ∀ n' values, n ≤ n' → (∀ v ∈ values, v.Inert n') →
      Mirrors n' (f values) (g values) [] Q') :
    Mirrors n (Script.onValues x fail f) (Script.onValues y fail g) visits Q' := by
  rw [← List.append_nil visits]
  exact hx.onValues hfail hf

theorem onNormal {x x' : Eval Completion} {y y' : Unbounded Completion}
    (hx : Mirrors n x y visits fun _ _ => True)
    (hx' : ∀ n', n ≤ n' → Mirrors n' x' y' visits' fun _ _ => True) :
    Mirrors n (do match ← x with | .normal => x' | completion => Pure.pure completion)
      (do match ← y with | .normal => y' | completion => Pure.pure completion)
      (visits ++ visits') fun _ _ => True := by
  refine hx.bind fun n' completion le _ => ?_
  cases completion with
  | normal => exact hx' n' le
  | _ => exact pure trivial

theorem inBlock {run : Env → Eval Completion} {run' : Env → Unbounded Completion} (env : Env)
    (hrun : ∀ n' env, n ≤ n' → Mirrors n' (run env) (run' env) visits fun _ _ => True) :
    Mirrors n (Script.inBlock env run) (inBlock env run') visits fun _ _ => True := by
  exact after (.newScope (text "block") env) fun n' env le _ => hrun n' env le

section Expressions
variable {call : Caller} {call' : CallerIn Unbounded} {env : Env}

theorem inert_error (n : Nat) (failure : Failure) : (Value.error failure).Inert n :=
  .of_computed (.error failure)

theorem allInert_error (n : Nat) (failure : Failure) : AllInert n (.error failure) := by
  rintro _ ⟨⟩

mutual

theorem evalExpr (n number : Nat) : ∀ e : Expr,
    Mirrors n (Script.evalExpr call env e) (evalExpr call' env number e) (e.parts.zipIdx number)
      fun n => Value.Inert n
  | .literal l => by
      have inert : l.value.Inert n := by cases l <;> trivial
      exact (pure inert).visit _ _
  | .name name position => (step (.resolve env name position)).visit _ _
  | .array elements => by
      refine visit _ _ ((evalAll n (number + 1) elements).onLastValues inert_error ?_)
      intro n' values _ hvalues
      exact step (.newArray fun v mem => hvalues v (List.mem_toArray.mp mem))
  | .call callee arguments position => by
      have named : Mirrors n _ _ [] _ := step (.resolve env callee position)
      refine visit _ _ (named.onValue inert_error ?_)
      intro n' function _ hfunction
      refine (evalAll n' (number + 1) arguments).onLastValues inert_error ?_
      intro n'' values _ hvalues
      cases function with
      | builtin b =>
          dsimp only
          rw [builtin_eq, tracedCall_step]
          exact step (.tracedCall callee hvalues (.builtin b hvalues))
      -- no name is bound to a function
      | function id => exact hfunction.elim
      | _ => exact pure (inert_error _ _)
  | .index target index position => by
      rw [Expr.parts, List.zipIdx_cons, List.zipIdx_append]
      refine visit _ _ ((evalExpr n (number + 1) target).onValue inert_error ?_)
      intro n' t _ ht
      refine (evalExpr n' _ index).onLastValue inert_error ?_
      intro n'' i _ hi
      exact step (.consults (.indexValue t i position) (.indexValue t i position))
  | .unary op operand position => by
      refine visit _ _ ((evalExpr n (number + 1) operand).onLastValue inert_error ?_)
      intro n' v _ hv
      exact step (.tracedUnary op hv position)
  | .binary op left right position => by
      rw [Expr.parts, List.zipIdx_cons, List.zipIdx_append]
      refine visit _ _ ((evalExpr n (number + 1) left).onValue inert_error ?_)
      intro n' l _ hl
      refine (evalExpr n' _ right).onLastValue inert_error ?_
      intro n'' r le hr
      exact step (.tracedBinary op (hl.mono le) hr position)

theorem evalAll (n number : Nat) : ∀ es : List Expr,
    Mirrors n (Script.evalAll call env es) (evalAll call' env number es)
      ((listedParts es).zipIdx number) AllInert
  | [] => pure (by rintro _ ⟨⟩ v mem; cases mem)
  | e :: rest => by
      rw [listedParts, List.zipIdx_append]
      refine (evalExpr n number e).onValue allInert_error ?_
      intro n' v _ hv
      refine (evalAll n' _ rest).onLastValues allInert_error ?_
      intro n'' values le hvalues
      refine pure ?_
      rintro _ ⟨⟩
      exact List.forall_mem_cons.mpr ⟨hv.mono le, hvalues⟩

end

end Expressions

section Statements
variable {call : Caller} {call' : CallerIn Unbounded} {rounds : Nat}

mutual

theorem execStmt (n number : Nat) (env : Env) (around : List Decl) : ∀ s : Stmt,
    (∀ place ∈ s.places around, place.IsStraight) →
    Mirrors n (Script.execStmt call rounds env s) (execStmt call' env number s)
      (s.parts.zipIdx number) fun _ _ => True
  | .block body, straight => by
      obtain ⟨-, inside⟩ := List.forall_mem_cons.mp straight
      exact inBlock env fun n' env _ => execBody n' number env _ body inside
  | .declare name value, _ => by
      refine (evalExpr n number value).onLastValue (fun _ _ => trivial) ?_
      intro n' v _ hv
      exact after (.define env name hv) fun _ _ _ _ => pure trivial
  | .assign name value position, _ => by
      refine (evalExpr n number value).onLastValue (fun _ _ => trivial) ?_
      intro n' v _ hv
      refine after (.assign env name hv) fun _ bound _ _ => ?_
      split <;> exact pure trivial
  | .eval value, _ =>
      (evalExpr n number value).onLastValue (fun _ _ => trivial) fun _ _ _ _ => pure trivial
  | .branch condition body otherwise, straight => by
      obtain ⟨-, inside⟩ := List.forall_mem_cons.mp straight
      obtain ⟨first, second⟩ := List.forall_mem_append.mp inside
      rw [Stmt.parts, List.zipIdx_append, List.zipIdx_append]
      refine (evalExpr n number condition).onValue (fun _ _ => trivial) ?_
      intro n' v _ _
      -- one of the two is executed, and evaluates a part of the expressions of both
      split
      · exact (execStmt n' _ env _ body first).weaken (List.sublist_append_left _ _)
      · exact (execOtherwise n' _ env _ otherwise second).weaken (List.sublist_append_right _ _)
  | .loop condition body, straight => by
      obtain ⟨here, -⟩ := List.forall_mem_cons.mp straight
      exact absurd rfl here.noLoop
  | .return_ none, _ => pure trivial
  | .return_ (some value), _ =>
      (evalExpr n number value).onLastValue (fun _ _ => trivial) fun _ _ _ _ => pure trivial

theorem execOtherwise (n number : Nat) (env : Env) (around : List Decl) : ∀ o : Otherwise,
    (∀ place ∈ o.places around, place.IsStraight) →
    Mirrors n (Script.execOtherwise call rounds env o) (execOtherwise call' env number o)
      (o.parts.zipIdx number) fun _ _ => True
  | .nothing, _ => pure trivial
  | .stmt s, straight => execStmt n number env around s straight

theorem execDecl (n number : Nat) (env : Env) (around : List Decl) : ∀ d : Decl,
    (∀ place ∈ d.places around, place.IsStraight) →
    Mirrors n (Script.execDecl call rounds env d) (execDecl call' env number d)
      (d.parts.zipIdx number) fun _ _ => True
  | .function _ _ _, straight => by
      obtain ⟨here, -⟩ := List.forall_mem_cons.mp straight
      exact absurd rfl here.noFunction
  | .stmt s, straight => execStmt n number env around s straight

theorem execBody (n number : Nat) (env : Env) (around : List Decl) : ∀ body : List Decl,
    (∀ place ∈ bodyPlaces around body, place.IsStraight) →
    Mirrors n (Script.execBody call rounds env body) (execBody call' env number body)
      ((bodyParts body).zipIdx number) fun _ _ => True
  | [], _ => pure trivial
  | d :: rest, straight => by
      obtain ⟨first, others⟩ := List.forall_mem_append.mp straight
      rw [bodyParts, List.zipIdx_append]
      exact (execDecl n number env around d first).onNormal fun n' _ =>
        execBody n' _ env around rest others

end

theorem run {program : Program} (straight : program.IsStraight) (budget : Budget)
    (call : CallerIn Unbounded) (n : Nat) : Mirrors n (program.run budget) (run call program)
      program.expressions.zipIdx fun _ _ => True := by
  have body : Mirrors n
      (Script.execBody budget.caller budget.rounds Machine.globalEnv program)
      (Unbounded.execBody call Machine.globalEnv 0 program) ((bodyParts program).zipIdx)
      fun _ _ => True := execBody n 0 Machine.globalEnv [] program straight
  rw [Program.expressions, ← List.append_nil ((bodyParts program).zipIdx)]
  unfold Program.run Unbounded.run
  refine body.bind fun n' completion _ _ => ?_
  cases completion with
  | normal => exact pure trivial
  | returned _ => exact step (.halt (by simp [Halt.IsSpent]))
  | aborted failure =>
      exact after (.traces (.line _) (List.forall_mem_nil _)) fun _ _ _ _ => pure trivial

end Statements

end Mirrors

end Unbounded

/-! ### Whole runs -/

theorem Machine.Inert.initial (input : Input) (trace : Trace) :
    (Machine.initial input trace).Inert :=
  Machine.Holds.initial _ input trace

theorem Logged.outcome_inj {L α : Type} {log log' : List L}
    {r r' : EStateM.Result Halt Machine α} (same : outcome id log r = outcome id log' r') :
    r = r' := by
  cases r <;> cases r' <;> cases same <;> rfl

/-- The halts that the host of a run causes: a string has no bytes, an array does not fit into
memory, the input breaks for good, or the nesting of a value has no end. -/
inductive Machine.HostHalt (m : Machine) : Halt → Prop
  | unencodable (reason : Utf8.Unencodable) : HostHalt m (.unencodable reason)
  | memory : HostHalt m .memory
  | brokenInput (message : Text) : HostHalt m (.brokenInput message)
  | recursion {v : Value} : v.Within m.arrays.size → m.Endless v → HostHalt m .recursion

theorem Machine.hostHalt_of_halts {m : Machine} {reason : Halt} (inert : m.Inert)
    (halts : m.Halts (Value.Inert m.arrays.size) reason) (other : reason ≠ .strayReturn) :
    m.HostHalt reason := by
  cases reason with
  | unencodable e => exact .unencodable e
  | memory => exact .memory
  | brokenInput message => exact .brokenInput message
  | recursion =>
      obtain ⟨v, hv, deep⟩ := halts.nested rfl
      exact .recursion hv.within (endless_of_display inert.closed hv.within deep)
  | strayReturn => exact absurd rfl other
  | exhausted => exact absurd rfl halts.bounded

/-- A program in which there are neither loops nor functions does not run for ever, whatever its
input is and however it breaks. It ends, or the host halts it, in the same way without budgets and
within any budget; and it evaluates its expressions in their order, none of them twice. -/
theorem Program.run_straight {program : Program} (accepted : program.check = .ok ())
    (straight : program.IsStraight) (input : Input) (trace : Trace) (call : CallerIn Unbounded) :
    ∃ result visits,
      Unbounded.run call program ⟨.initial input trace, []⟩ =
        Part.some (Logged.outcome id visits result) ∧
      visits.Sublist program.expressions.zipIdx ∧ (visits.map Prod.snd).Nodup ∧
      (∀ budget, program.run budget (.initial input trace) = result) ∧
      ∀ reason m, result = .error reason m → m.HostHalt reason := by
  have inert := Machine.Inert.initial input trace
  have mirrors (budget : Budget) :=
    Unbounded.Mirrors.run straight budget call (Machine.initial input trace).arrays.size
  obtain ⟨visits, part, run⟩ := (mirrors .standard).follows _ [] inert rfl
  rw [List.nil_append] at run
  have once : (visits.map Prod.snd).Nodup :=
    (List.nodup_zipIdx_map_snd _).sublist (part.map _)
  refine ⟨_, visits, run, part, once, fun budget => ?_, fun reason m halted => ?_⟩
  · obtain ⟨visits', -, run'⟩ := (mirrors budget).follows _ [] inert rfl
    exact Logged.outcome_inj (Part.some_injective (run'.symm.trans run))
  · have ended := (mirrors .standard).straight _ inert rfl
    rw [halted] at ended
    exact Machine.hostHalt_of_halts ended.1 ended.2
      fun same => run_ne_strayReturn .standard program accepted _ _ (same ▸ halted)

/-- The run of `var a = [read()]; if readall() == "" { set(a, 0, a); }` meets the fault of its input
twice and makes an array that has no readable form. -/
theorem Program.run_straight_cyclic :
    let program : Program := [
      .stmt (.declare (text "a") (.array [.call (text "read") [] ⟨1, 10⟩])),
      .stmt (.branch
        (.binary .equal (.call (text "readall") [] ⟨1, 22⟩) (.literal (.string [])) ⟨1, 22⟩)
        (.block [.stmt (.eval (.call (text "set") [.name (text "a") ⟨1, 44⟩, .literal (.integer 0),
          .name (text "a") ⟨1, 50⟩] ⟨1, 40⟩))]) .nothing)]
    let input : Input := ⟨text "x", some ⟨true, text "gone"⟩⟩
    let trace := Trace.empty true 3
    let call : CallerIn Unbounded := fun _ _ _ _ => Part.none
    program.check = .ok () ∧ program.IsStraight ∧
    (∃ m, program.run ⟨0, 0⟩ (.initial input trace) = .error .recursion m) ∧
    ∃ result visits,
      Unbounded.run call program ⟨.initial input trace, []⟩ =
        Part.some (Logged.outcome id visits result) ∧
      visits.Sublist program.expressions.zipIdx ∧ (visits.map Prod.snd).Nodup ∧
      (∀ budget, program.run budget (.initial input trace) = result) ∧
      ∀ reason m, result = .error reason m → m.HostHalt reason :=
  ⟨rfl, by decide, ⟨_, rfl⟩, Program.run_straight rfl (by decide) _ _ _⟩

end Script
