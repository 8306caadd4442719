import Script.Proofs.Oversight

/-!
# Only `set` changes arrays

An array that exists is never exchanged for another one, and its length never changes. What a place
of it holds after an evaluation is what the last successful call of `set` on this place has put
there, if there was one among the moments of the evaluation, and else what it held before. This is
so however the evaluation ends, since a halt keeps the moments before it.

Every other array that comes about is new: its number is the number of arrays before it.
-/

namespace Script

/-- The value that a moment puts into a place of an array. Only a call of `set` that does not fail
has nil as its value. -/
def Moment.stored? (a : ArrayId) (i : Nat) : Moment → Option Value
  | answered (.builtin .set) [.array b, .integer j, v] .nil =>
    if b = a ∧ j = i then some v else none
  | _ => none

theorem Moment.stored?_eq_some_iff {a : ArrayId} {i : Nat} {moment : Moment} {v : Value} :
    moment.stored? a i = some v ↔
      moment = .answered (.builtin .set) [.array a, .integer i, v] .nil := by
  constructor
  · intro h
    unfold stored? at h
    split at h
    · split at h
      · rename_i same
        obtain ⟨rfl, rfl⟩ := same
        cases h
        rfl
      · cases h
    · cases h
  · rintro rfl
    exact if_pos ⟨rfl, rfl⟩

theorem Moment.stored?_eq_none {moment : Moment}
    (other : ∀ arguments, moment ≠ .answered (.builtin .set) arguments .nil) (a : ArrayId)
    (i : Nat) : moment.stored? a i = none :=
  Option.eq_none_iff_forall_ne_some.mpr fun _ h => other _ (stored?_eq_some_iff.mp h)

/-- The value that has been put last into a place of an array. -/
def lastStored? (a : ArrayId) (i : Nat) (log : List Moment) : Option Value :=
  log.reverse.findSome? (Moment.stored? a i)

theorem lastStored?_append (a : ArrayId) (i : Nat) (front back : List Moment) :
    lastStored? a i (front ++ back) = (lastStored? a i back).or (lastStored? a i front) := by
  rw [lastStored?, List.reverse_append, List.findSome?_append, lastStored?, lastStored?]

theorem lastStored?_singleton (a : ArrayId) (i : Nat) (moment : Moment) :
    lastStored? a i [moment] = moment.stored? a i := by
  simp [lastStored?]

/-- A log in which nothing is put into arrays. -/
def Quiet (log : List Moment) : Prop :=
  ∀ a i, lastStored? a i log = none

theorem quiet_singleton {moment : Moment} (h : ∀ a i, moment.stored? a i = none) :
    Quiet [moment] :=
  fun a i => (lastStored?_singleton a i moment).trans (h a i)

/-- What becomes of the arrays of a machine: there may be more of them, and each one that was there
has its length and its elements, but for those that the log says are put into it. -/
structure Machine.Frame (log : List Moment) (m m' : Machine) : Prop where
  size : m.arrays.size ≤ m'.arrays.size
  length : ∀ a < m.arrays.size, (m'.elements a).size = (m.elements a).size
  slots : ∀ a < m.arrays.size, ∀ i < (m.elements a).size,
    (m'.elements a)[i]? = (lastStored? a i log).or (m.elements a)[i]?

namespace Machine.Frame
variable {m m' : Machine} {log : List Moment}

theorem of_elements_eq (size : m.arrays.size ≤ m'.arrays.size)
    (same : ∀ a < m.arrays.size, m'.elements a = m.elements a) (quiet : Quiet log) :
    Frame log m m' where
  size := size
  length a lt := by rw [same a lt]
  slots a lt i _ := by rw [same a lt, quiet a i, Option.none_or]

theorem of_arrays_eq (same : m'.arrays = m.arrays) (quiet : Quiet log) : Frame log m m' :=
  of_elements_eq (Nat.le_of_eq (by rw [same])) (fun a _ => by rw [elements, elements, same]) quiet

theorem allocate (m : Machine) (elements : Array Value) (quiet : Quiet log) :
    Frame log m (m.allocate elements) := by
  refine of_elements_eq ?_ (fun a lt => ?_) quiet
  · simp [Machine.allocate]
  · rw [elements_allocate, if_neg (Nat.ne_of_lt lt)]

theorem refl (m : Machine) : Frame [] m m :=
  of_arrays_eq rfl fun _ _ => rfl

theorem trans {m'' : Machine} {log' : List Moment} (h : Frame log m m')
    (h' : Frame log' m' m'') : Frame (log ++ log') m m'' where
  size := Nat.le_trans h.size h'.size
  length a lt := by
    rw [h'.length a (Nat.lt_of_lt_of_le lt h.size), h.length a lt]
  slots a lt i bound := by
    have lt' : a < m'.arrays.size := Nat.lt_of_lt_of_le lt h.size
    have bound' : i < (m'.elements a).size := by rwa [h.length a lt]
    rw [h'.slots a lt' i bound', h.slots a lt i bound, lastStored?_append, Option.or_assoc]

end Machine.Frame

/-! ### Steps -/

/-- A step that may add arrays and puts nothing into those that exist. -/
def Eval.Spares {α : Type} (x : Eval α) : Prop :=
  ∀ (m : Machine) log, Quiet log → m.Frame log (Eval.final (x m))

namespace Eval.Spares
variable {α : Type}

theorem of_arrays_eq {x : Eval α} (same : ∀ m, (Eval.final (x m)).arrays = m.arrays) : Spares x :=
  fun m _ quiet => .of_arrays_eq (same m) quiet

theorem looks {x : Eval α} (h : Eval.Looks x) : Spares x := by
  refine of_arrays_eq fun m => ?_
  obtain ⟨t, left⟩ := h m
  rw [left]

theorem newArray (elements : Array Value) : Spares (Eval.newArray elements) :=
  fun m _ quiet => .allocate m elements quiet

theorem newScope (name : Name) (bindings : Bindings) (env : Env) :
    Spares (Eval.newScope name bindings env) :=
  of_arrays_eq fun _ => rfl

theorem define (env : Env) (name : Name) (value : Value) : Spares (Eval.define env name value) := by
  cases env with
  | nil => exact of_arrays_eq fun _ => rfl
  | cons id env => exact of_arrays_eq fun _ => rfl

theorem assign (env : Env) (name : Name) (value : Value) :
    Spares (Eval.assign env name value) := by
  refine of_arrays_eq fun m => ?_
  rcases Eval.assign_cases env name value m with ⟨id, -, done⟩ | ⟨-, done⟩
  · rw [done]
    rfl
  · rw [done]
    rfl

theorem newFunction (name : Name) (parameters : List Name) (body : List Decl) (env : Env) :
    Spares (Eval.newFunction name parameters body env) :=
  of_arrays_eq fun _ => rfl

end Eval.Spares

/-! ### Evaluation -/

/-- A state goes over into another one with new moments in its log, which say what is put into
arrays. -/
def Course.frames : Course (Logged Moment) where
  moves _ s t := ∃ new, t.log = s.log ++ new ∧ s.machine.Frame new t.machine
  refl _ s := ⟨[], (List.append_nil _).symm, .refl s.machine⟩
  trans := by
    intro _ s t u first second
    obtain ⟨new, log, frame⟩ := first
    obtain ⟨new', log', frame'⟩ := second
    have both : u.log = s.log ++ (new ++ new') := by
      rw [log', log, List.append_assoc]
    exact ⟨new ++ new', both, frame.trans frame'⟩
  widen h := h

/-- A state is as good as another one with the same arrays and the same log. -/
structure Logged.Tallies (s t : Logged Moment) : Prop where
  log : t.log = s.log
  arrays : t.machine.arrays = s.machine.arrays

/-- A state moves on by new moments and to a machine on which they agree. -/
theorem Logged.Tallies.moves {s t : Logged Moment} (h : s.Tallies t) {m : Machine}
    {new : List Moment} (frame : t.machine.Frame new m) (env? : Option Env) :
    Course.frames.moves env? s ⟨m, t.log ++ new⟩ :=
  have same : s.machine.Frame [] t.machine := .of_arrays_eq h.arrays fun _ _ => rfl
  ⟨new, by rw [h.log], same.trans frame⟩

theorem Logged.Tallies.stops {s t : Logged Moment} (h : s.Tallies t) {m : Machine}
    (frame : t.machine.Frame [] m) (env? : Option Env) : Course.frames.moves env? s ⟨m, t.log⟩ := by
  have moved := h.moves frame env?
  rwa [List.append_nil] at moved

namespace Narrated
variable {α : Type}

/-- A computation whose moments say what it puts into arrays. -/
abbrev Framed (env? : Option Env) (s : Logged Moment) (x : Narrated α) : Prop :=
  Maintains Course.frames Logged.Tallies env? s x fun _ _ => True

namespace Framed
variable {env? : Option Env} {s : Logged Moment}

theorem step {x : Eval α} (h : Eval.Spares x) : Framed env? s (Narrated.step x) := by
  refine Maintains.step fun t tallies => ?_
  cases ht : x t.machine with
  | ok a m =>
      have frame := h t.machine [.stepped m] (quiet_singleton fun _ _ => rfl)
      rw [ht] at frame
      exact ⟨_, tallies.moves frame _, ⟨rfl, rfl⟩, trivial⟩
  | error reason m =>
      have frame := h t.machine [] fun _ _ => rfl
      rw [ht] at frame
      exact ⟨_, tallies.stops frame _, ⟨rfl, rfl⟩⟩

theorem tell {moment : Moment} (quiet : ∀ a i, moment.stored? a i = none) :
    Framed env? s (Narrated.tell moment) := by
  refine Maintains.tell (P := fun _ => True) fun t tallies => ?_
  have frame : t.machine.Frame [moment] t.machine := .of_arrays_eq rfl (quiet_singleton quiet)
  exact ⟨_, tallies.moves frame _, ⟨rfl, rfl⟩, trivial⟩

end Framed

end Narrated

/-- A successful call of `set` puts a value into one place. -/
theorem Machine.Frame.store {m : Machine} {a : ArrayId} {i : Int} (v : Value) (low : 0 ≤ i)
    (high : i.toNat < (m.elements a).size) {log : List Moment}
    (last : ∀ b j, lastStored? b j log = if a = b ∧ i = j then some v else none) :
    m.Frame log (m.store a i.toNat v) where
  size := Nat.le_of_eq size_arrays_store.symm
  length b _ := by
    rw [elements_store]
    split
    · rename_i same
      rw [same, Array.size_setIfInBounds]
    · rfl
  slots b _ j _ := by
    rw [elements_store, last]
    by_cases same : b = a
    · subst same
      rw [if_pos rfl, Array.getElem?_setIfInBounds]
      by_cases here : i.toNat = j
      · have both : b = b ∧ i = j := ⟨rfl, by omega⟩
        rw [if_pos here, if_pos high, if_pos both, Option.some_or]
      · have other : ¬ (b = b ∧ i = j) := fun h => here (by omega)
        rw [if_neg here, if_neg other, Option.none_or]
    · have other : ¬ (a = b ∧ i = j) := fun h => same h.1.symm
      rw [if_neg same, if_neg other, Option.none_or]

/-- A call of a built-in function together with the moment in which it is answered. -/
theorem Builtin.Does.frame {m m' : Machine} {b : Builtin} {arguments : List Value} {v : Value}
    (h : Does m b arguments (.ok v m')) :
    m.Frame [.stepped m', .answered (.builtin b) arguments v] m' := by
  have last (a : ArrayId) (i : Nat) :
      lastStored? a i [.stepped m', .answered (.builtin b) arguments v] =
        (Moment.answered (.builtin b) arguments v).stored? a i := by
    have split := lastStored?_append a i [.stepped m'] [.answered (.builtin b) arguments v]
    rw [lastStored?_singleton, lastStored?_singleton] at split
    exact split.trans (Option.or_none)
  have quiet (other : b = .set → v ≠ .nil) :
      Quiet [.stepped m', .answered (.builtin b) arguments v] := by
    intro a i
    rw [last]
    refine Moment.stored?_eq_none (fun _ same => ?_) a i
    cases same
    exact other rfl rfl
  cases h with
  | refuses cause => exact .of_arrays_eq rfl (quiet nofun)
  | computes other _ _ => exact .of_arrays_eq rfl (quiet fun same => absurd same other)
  | picks other _ =>
      refine .of_arrays_eq rfl (quiet ?_)
      rcases other with rfl | rfl <;> nofun
  | measuresString _ => exact .of_arrays_eq rfl (quiet nofun)
  | measuresArray _ => exact .of_arrays_eq rfl (quiet nofun)
  | makes _ => exact .allocate m _ (quiet nofun)
  | stores v low high => exact .store v low high last
  | prints _ output other =>
      refine .of_arrays_eq rfl (quiet ?_)
      rcases other with rfl | rfl <;> nofun
  | reads t _ _ => exact .of_arrays_eq rfl (quiet nofun)

theorem Builtin.Does.arrays_of_error {m m' : Machine} {b : Builtin} {arguments : List Value}
    {reason : Halt} (h : Does m b arguments (.error reason m')) : m'.arrays = m.arrays := by
  cases h
  rfl

/-- While a built-in function is called, its effect on arrays is not accounted for in the log until
the call is answered. -/
theorem Narrated.Framed.builtin {s : Logged Moment} (b : Builtin) (arguments : List Value) :
    Framed none s (Narrated.between (.calling (.builtin b) arguments)
      (.answered (.builtin b) arguments) (Narrated.step (b.call arguments))) := by
  refine (tell fun _ _ => rfl).bind fun s _ _ _ t tallies => ?_
  have done := Builtin.does_call t.machine b arguments
  cases called : b.call arguments t.machine with
  | error reason m =>
      rw [called] at done
      rw [bind_of_error (step_of_error called)]
      have frame : t.machine.Frame [] m := .of_arrays_eq done.arrays_of_error fun _ _ => rfl
      exact ⟨_, tallies.stops frame _, ⟨rfl, rfl⟩⟩
  | ok v m =>
      rw [called] at done
      rw [bind_of_ok (step_of_ok called)]
      have log : t.log ++ [.stepped m] ++ [.answered (.builtin b) arguments v] =
          t.log ++ [.stepped m, .answered (.builtin b) arguments v] := List.append_assoc _ _ _
      exact ⟨_, tallies.moves done.frame _, ⟨log, rfl⟩, trivial⟩

open Narrated in
theorem Oversees.frames :
    Oversees Course.frames (fun _ _ => True) (fun _ _ => True) Logged.Tallies where
  later_of_moves _ := trivial
  env_mono _ _ := trivial
  blind _ tallies := ⟨tallies.log, tallies.arrays⟩
  looks _ looks := Framed.step (.looks looks)
  tell marks _ := by
    refine Framed.tell (Moment.stored?_eq_none fun arguments same => ?_)
    rw [same] at marks
    cases marks
  newArray _ elements := Framed.step (.newArray elements)
  newScope {_ _ env _ _} name bindings _ hf :=
    (Framed.step (.newScope name bindings env)).bind fun t env _ _ =>
      (hf t env trivial trivial).mono fun _ moved => moved
  define {_ env} name value _ := Framed.step (.define env name value)
  assign {_ env} name value _ := Framed.step (.assign env name value)
  newFunction {_ env} name parameters body _ :=
    Framed.step (.newFunction name parameters body env)
  closure _ id := (Framed.step (.looks (Eval.looks_closure id))).imp fun _ _ _ _ _ => trivial
  builtin _ b arguments := Framed.builtin b arguments

/-- An execution next to the same one with its moments: these come behind those that were logged
before, and they say what has become of the arrays, whatever the execution ends with. -/
def Frames {α : Type} (x : Eval α) (y : Narrated α) (s : Logged Moment) : Prop :=
  ∃ new, y s = Logged.outcome id (s.log ++ new) (x s.machine) ∧
    s.machine.Frame new (Eval.final (x s.machine))

theorem Narrated.Shadows.frames {α : Type} {x : Eval α} {y : Narrated α} (h : Shadows x y)
    {env? : Option Env} {s : Logged Moment} (framed : Framed env? s y) : Frames x y s := by
  obtain ⟨t, ⟨new, log, frame⟩, tallies⟩ := framed.final s ⟨rfl, rfl⟩
  have same := h.eq_outcome s
  rw [tallies.log, log] at same
  refine ⟨new, same, ?_⟩
  have equal : t.machine.Frame [] (Eval.final (x s.machine)) := by
    rw [← h.machine_final s]
    exact .of_arrays_eq tallies.arrays fun _ _ => rfl
  have whole := frame.trans equal
  rwa [List.append_nil] at whole

/-- New arrays: a call of `rest`, `push` or `alloc` makes an array with the number of all arrays
before it, or it touches no array and has no array as its value. -/
theorem Builtin.makes_or_spares {b : Builtin} (maker : b = .rest ∨ b = .push ∨ b = .alloc)
    {arguments : List Value} {m m' : Machine} {v : Value}
    (called : b.call arguments m = .ok v m') :
    (v = .array m.arrays.size ∧ ∃ elements, Makes m b arguments elements ∧
      m' = m.allocate elements) ∨ (v.kind ≠ .array ∧ m'.arrays = m.arrays) := by
  have done := does_call m b arguments
  rw [called] at done
  cases done with
  | refuses cause => exact .inr ⟨nofun, rfl⟩
  | computes _ _ computed =>
      refine .inr ⟨?_, rfl⟩
      cases computed <;> nofun
  | picks other _ => rcases other with rfl | rfl <;> simp at maker
  | measuresString _ => simp at maker
  | measuresArray _ => simp at maker
  | makes made => exact .inl ⟨rfl, _, made, rfl⟩
  | stores _ _ _ => simp at maker
  | prints _ output _ => exact .inr ⟨nofun, rfl⟩
  | reads t _ _ => exact .inr ⟨nofun, rfl⟩

theorem evalExpr_array {call : Caller} {env : Env} {es : List Expr} {values : List Value}
    {m m' : Machine} (h : evalAll call env es m = .ok (.ok values) m') :
    evalExpr call env (.array es) m = .ok (.array m'.arrays.size) (m'.allocate values.toArray) :=
  bind_of_ok h

/-- Only `set` changes arrays. Executing an expression, a statement or a body in any state, and
whatever it ends with, every array that was there keeps its length, and every place of it holds what
the last successful call of `set` on this place has put there, if the moments of the execution tell
of one, and else what it held before. The arrays that literals, `rest`, `push` and `alloc` make have
a number that no array had before, and their elements are the values themselves. -/
theorem only_set_changes_arrays (budget : Budget) (env : Env) :
    let call := Narrated.caller budget
    (∀ e s, Frames (evalExpr budget.caller env e) (Observer.narrating.evalExpr call env e) s) ∧
    (∀ stmt s, Frames (execStmt budget.caller budget.rounds env stmt)
      (Observer.narrating.execStmt call budget.rounds env stmt) s) ∧
    (∀ body s, Frames (execBody budget.caller budget.rounds env body)
      (Observer.narrating.execBody call budget.rounds env body) s) ∧
    (∀ es m values m', evalAll budget.caller env es m = .ok (.ok values) m' →
      m.arrays.size ≤ m'.arrays.size ∧
      evalExpr budget.caller env (.array es) m =
        .ok (.array m'.arrays.size) (m'.allocate values.toArray)) ∧
    ∀ b : Builtin, b = .rest ∨ b = .push ∨ b = .alloc →
      ∀ arguments m v m', b.call arguments m = .ok v m' →
        (v = .array m.arrays.size ∧ ∃ elements, Builtin.Makes m b arguments elements ∧
          m' = m.allocate elements) ∨ (v.kind ≠ .array ∧ m'.arrays = m.arrays) := by
  refine ⟨fun e s => ?_, fun stmt s => ?_, fun body s => ?_, fun es m values m' h => ?_, ?_⟩
  · have shadows := Narrated.shadows_evalExpr budget env e
    exact shadows.frames (Oversees.frames.evalExpr budget trivial e)
  · have shadows := Narrated.shadows_execStmt budget env stmt
    exact shadows.frames (Oversees.frames.execStmt budget trivial stmt)
  · have shadows := Narrated.shadows_execBody budget env body
    exact shadows.frames (Oversees.frames.execBody budget trivial body)
  · have framed : Narrated.Framed none ⟨m, []⟩
        (Observer.narrating.evalAll (Narrated.caller budget) env es) :=
      Oversees.frames.evalAll budget trivial es
    obtain ⟨new, -, frame⟩ := (Narrated.shadows_evalAll budget env es).frames framed
    have size := frame.size
    rw [h] at size
    exact ⟨size, evalExpr_array h⟩
  · exact fun b maker arguments m v m' called => Builtin.makes_or_spares maker called

/-- The array `[1, 2]` is made, and then `rest` makes another one. -/
theorem only_set_changes_arrays_made :
    let es : List Expr := [.literal (.integer 1), .literal (.integer 2)]
    let start := Machine.initial (.ofText []) (.empty false 3)
    let m := start.allocate #[.integer 1, .integer 2]
    let m' := m.allocate #[.integer 2]
    evalExpr (Budget.caller ⟨0, 0⟩) Machine.globalEnv (.array es) start = .ok (.array 0) m ∧
      Builtin.rest.call [.array 0] m = .ok (.array 1) m' ∧
      ∃ elements, Builtin.Makes m .rest [.array 0] elements ∧ m' = m.allocate elements := by
  intro es start m m'
  obtain ⟨-, -, -, made, makes⟩ := only_set_changes_arrays ⟨0, 0⟩ Machine.globalEnv
  have called : Builtin.rest.call [.array 0] m = .ok (.array 1) m' := rfl
  refine ⟨(made es start [.integer 1, .integer 2] start rfl).2, called, ?_⟩
  rcases makes .rest (.inl rfl) [.array 0] m (.array 1) m' called with ⟨-, copied⟩ | ⟨other, -⟩
  · exact copied
  · exact absurd rfl other

end Script
