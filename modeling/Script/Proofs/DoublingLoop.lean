import Script.Proofs.Arithmetic
import Script.Proofs.DeclaredNames
import Script.Proofs.RoundTrip
import Script.Proofs.ScopePaths
import Script.Proofs.Sequences

/-!
# A loop that doubles the elements of an array

The function `double_all` goes through an array by an index and pushes the double of each element
onto an array that is empty at first. It is executed here step by step. With the trace off a step
that only looks at a machine leaves it as it is, so this is done first; what a call does under any
trace follows, as executions do not depend on it.
-/

namespace Script

/-! ### Steps with the trace off -/

/-- A loop whose condition tells whether fewer than `n` rounds have been taken. What holds before
the round with the number `k` is `I k`. -/
theorem repeatWhile_counted {condition : Eval Value} {body : Eval Completion}
    {I : Nat → Machine → Prop} {n : Nat}
    (asks : ∀ k m, I k m → condition m = .ok (.boolean (decide (k < n))) m)
    (goes : ∀ k m, k < n → I k m → ∃ m', body m = .ok .normal m' ∧ I (k + 1) m')
    {rounds k : Nat} {m : Machine} (holds : I k m) (le : k ≤ n) (enough : n < k + rounds) :
    ∃ m', repeatWhile condition body rounds m = .ok .normal m' ∧ I n m' := by
  induction rounds generalizing k m with
  | zero => exact absurd enough (Nat.not_lt.mpr le)
  | succ rounds ih =>
      rw [repeatWhile, onValue_of_ok (asks k m holds) (by simp)]
      rcases Nat.lt_or_eq_of_le le with lt | rfl
      · obtain ⟨m', done, holds'⟩ := goes k m lt holds
        obtain ⟨m'', further, last⟩ := ih holds' lt (by omega)
        refine ⟨m'', ?_, last⟩
        simp only [Value.isTruthy, decide_eq_true lt, if_true]
        rw [bind_of_ok done]
        exact further
      · refine ⟨m, ?_, holds⟩
        simp only [Value.isTruthy, Nat.lt_irrefl, decide_false, Bool.false_eq_true, if_false]
        rfl

theorem Eval.indented_off {α : Type} {x : Eval α} {m m' : Machine} {value : α}
    (off : m.trace.enabled = false) (done : x m = .ok value m')
    (off' : m'.trace.enabled = false) : Eval.indented x m = .ok value m' := by
  have level : m.trace.indent = m.trace := by simp [Trace.indent, off]
  have level' : m'.trace.dedent = m'.trace := by simp [Trace.dedent, off']
  rw [Eval.indented, level, done]
  dsimp only
  rw [level']

theorem inBlock_eq {α : Type} (env : Env) (run : Env → Eval α) (m : Machine) :
    inBlock env run m =
      run (m.scopes.size :: env) { m with scopes := (m.scopes.make (text "block") []).2 } :=
  rfl

section Statements
variable {call : Caller} {rounds : Nat} {env : Env} {m m' : Machine} {e : Expr} {v : Value}

theorem execBody_stmt_of_ok {s : Stmt} (done : execStmt call rounds env s m = .ok .normal m')
    (rest : List Decl) :
    execBody call rounds env (.stmt s :: rest) m = execBody call rounds env rest m' := by
  rw [execBody]
  exact bind_of_ok done

variable (evaluated : evalExpr call env e m = .ok v m') (settled : v.kind ≠ .error)
include evaluated settled

theorem execStmt_assign_of_ok {name : Name} {id : ScopeId} (position : Position)
    (found : m'.scopes.find? name env = some id) :
    execStmt call rounds env (.assign name e position) m =
      .ok .normal { m' with scopes := m'.scopes.define id name v } := by
  rw [execStmt, onValue_of_ok evaluated settled]
  exact bind_of_ok (Eval.assign_of_found found v)

theorem execStmt_return_of_ok :
    execStmt call rounds env (.return_ (some e)) m = .ok (.returned v) m' := by
  rw [execStmt, onValue_of_ok evaluated settled]
  rfl

end Statements

section Expressions
variable {call : Caller} {env : Env} {m m' m'' : Machine} {position : Position}

theorem evalExpr_name {name : Name} {v : Value}
    (found : m.scopes.lookup? env name = some v) :
    evalExpr call env (.name name position) m = .ok v m :=
  Eval.resolve_of_some found position

theorem evalAll_nil : evalAll call env [] m = .ok (.ok []) m := rfl

theorem evalAll_cons {e : Expr} {es : List Expr} {v : Value} {values : List Value}
    (first : evalExpr call env e m = .ok v m') (settled : v.kind ≠ .error)
    (others : evalAll call env es m' = .ok (.ok values) m'') :
    evalAll call env (e :: es) m = .ok (.ok (v :: values)) m'' := by
  rw [evalAll, onValue_of_ok first settled]
  exact bind_of_ok others

theorem evalExpr_index {target index : Expr} {u v w : Value}
    (first : evalExpr call env target m = .ok u m) (second : evalExpr call env index m = .ok v m)
    (settled : u.kind ≠ .error ∧ v.kind ≠ .error) (found : indexValue u v position m = .ok w m) :
    evalExpr call env (.index target index position) m = .ok w m := by
  rw [evalExpr, onValue_of_ok first settled.1, onValue_of_ok second settled.2, found]

theorem evalExpr_binary {op : BinaryOp} {left right : Expr} {a b : Int} {v : Value}
    (first : evalExpr call env left m = .ok (.integer a) m)
    (second : evalExpr call env right m = .ok (.integer b) m)
    (applied : op.apply (.integer a) (.integer b) position m = .ok v m)
    (off : m.trace.enabled = false) (readable : m.IsReadable v) :
    evalExpr call env (.binary op left right position) m = .ok v m := by
  have traced : traceBinary op (.integer a) (.integer b) v m = .ok () m := by
    refine (Traces.binary op (.integer a) (.integer b) v).off_of_readable off ?_
    simp [readable, m.isReadable_integer]
  rw [evalExpr, onValue_of_ok first (by simp), onValue_of_ok second (by simp), tracedBinary,
    bind_of_ok applied, bind_of_ok traced]
  rfl

theorem evalExpr_builtin {callee : Name} {es : List Expr} {b : Builtin} {values : List Value}
    {v : Value} (free : m.scopes.lookup? env callee = none)
    (named : Builtin.ofName? callee = some b)
    (arguments : evalAll call env es m = .ok (.ok values) m)
    (called : b.call values m = .ok v m') (off : m'.trace.enabled = false)
    (readable : ∀ u ∈ values ++ [v], m'.IsReadable u) :
    evalExpr call env (.call callee es position) m = .ok v m' := by
  have function : resolve env callee position m = .ok (.builtin b) m := by
    rw [Eval.resolve_of_none free, named]
    rfl
  have traced := (Traces.call callee values v).off_of_readable off readable
  rw [evalExpr, onValue_of_ok function (by simp)]
  refine (bind_of_ok arguments).trans ?_
  dsimp only
  rw [tracedCall, bind_of_ok called, bind_of_ok traced]
  rfl

end Expressions

def Value.integers (ns : List Int) : Array Value :=
  (ns.map Value.integer).toArray

theorem Value.integers_push (ns : List Int) (n : Int) :
    (Value.integers ns).push (.integer n) = Value.integers (ns ++ [n]) := by
  simp [integers]

namespace Machine
variable {m : Machine}

theorem isReadable_boolean (m : Machine) (b : Bool) : m.IsReadable (.boolean b) := by
  unfold IsReadable display
  cases m.arrays.size with
  | zero => exact ⟨_, rfl⟩
  | succ _ => exact ⟨_, rfl⟩

theorem isReadable_integers {a : ArrayId} {ns : List Int}
    (found : m.arrays[a]? = some (Value.integers ns)) : m.IsReadable (.array a) := by
  obtain ⟨lt, -⟩ := Array.getElem?_eq_some_iff.mp found
  obtain ⟨depth, nested⟩ := Nat.exists_eq_succ_of_ne_zero (Nat.ne_zero_of_lt lt)
  unfold IsReadable display
  rw [nested, displayWithin, elements_of_found found, Value.integers]
  cases shown : (ns.map Value.integer).mapM (m.displayWithin depth) with
  | ok forms => exact ⟨_, rfl⟩
  | error reason =>
      obtain ⟨v, mem, unreadable⟩ := exists_of_mapM_error shown
      obtain ⟨n, -, rfl⟩ := List.mem_map.mp mem
      cases depth <;> cases unreadable

end Machine

/-! ### What is kept -/

/-- Everything that a machine has is in another one as it was, which may have more scopes and
arrays. -/
structure Machine.KeptIn (m m' : Machine) : Prop where
  functions : m'.functions = m.functions
  input : m'.input = m.input
  output : m'.output = m.output
  scopes : ∀ id < m.scopes.size, m'.scopes[id]? = m.scopes[id]?
  arrays : ∀ a < m.arrays.size, m'.arrays[a]? = m.arrays[a]?

theorem size_le_of_kept {α : Type} {as bs : Array α}
    (kept : ∀ i < as.size, bs[i]? = as[i]?) : as.size ≤ bs.size := by
  by_contra fewer
  have inside := Nat.lt_of_not_le fewer
  have lost := kept bs.size inside
  rw [Array.getElem?_eq_none (Nat.le_refl _), Array.getElem?_eq_getElem inside] at lost
  cases lost

namespace Machine.KeptIn
variable {m m' : Machine}

theorem refl (m : Machine) : m.KeptIn m where
  functions := rfl
  input := rfl
  output := rfl
  scopes _ _ := rfl
  arrays _ _ := rfl

theorem retraced {t : Trace} (h : KeptIn { m with trace := t } m') (t' : Trace) :
    m.KeptIn { m' with trace := t' } where
  functions := h.functions
  input := h.input
  output := h.output
  scopes := h.scopes
  arrays := h.arrays

theorem found (h : m.KeptIn m') {a : ArrayId} {elements : Array Value}
    (found : m.arrays[a]? = some elements) : m'.arrays[a]? = some elements := by
  obtain ⟨lt, -⟩ := Array.getElem?_eq_some_iff.mp found
  rw [h.arrays a lt, found]

theorem allocate (h : m.KeptIn m') (elements : Array Value) :
    m.KeptIn (m'.allocate elements) where
  functions := h.functions
  input := h.input
  output := h.output
  scopes := h.scopes
  arrays a lt := by
    have other : a ≠ m'.arrays.size :=
      Nat.ne_of_lt (Nat.lt_of_lt_of_le lt (size_le_of_kept h.arrays))
    rw [Machine.allocate, Array.getElem?_push, if_neg other, h.arrays a lt]

theorem make (h : m.KeptIn m') (name : Name) (b : Bindings) :
    m.KeptIn { m' with scopes := (m'.scopes.make name b).2 } where
  functions := h.functions
  input := h.input
  output := h.output
  scopes id lt := by
    have lt' : id < m'.scopes.size := Nat.lt_of_lt_of_le lt (size_le_of_kept h.scopes)
    rw [Scopes.getElem?_make_of_lt name b lt', h.scopes id lt]
  arrays := h.arrays

theorem define (h : m.KeptIn m') {id : ScopeId} (new : m.scopes.size ≤ id) (name : Name)
    (value : Value) : m.KeptIn { m' with scopes := m'.scopes.define id name value } where
  functions := h.functions
  input := h.input
  output := h.output
  scopes i lt := by
    have other : id ≠ i := Nat.ne_of_gt (Nat.lt_of_lt_of_le lt new)
    rw [← h.scopes i lt]
    exact (Array.getElem?_modify).trans (if_neg other)
  arrays := h.arrays

end Machine.KeptIn

/-! ### The function -/

namespace Doubling

section Source
variable (place : Nat → Position)

/-- The condition `i < len(xs)`. -/
def condition : Expr :=
  .binary .less (.name (text "i") (place 0))
    (.call (text "len") [.name (text "xs") (place 1)] (place 2)) (place 3)

/-- The expression `push(out, xs[i] * 2)`. -/
def longer : Expr :=
  .call (text "push")
    [.name (text "out") (place 4), .binary .mul
      (.index (.name (text "xs") (place 5)) (.name (text "i") (place 6)) (place 7))
      (.literal (.integer 2)) (place 8)] (place 9)

/-- The expression `i + 1`. -/
def next : Expr :=
  .binary .add (.name (text "i") (place 10)) (.literal (.integer 1)) (place 11)

def round : List Decl :=
  [.stmt (.assign (text "out") (longer place) (place 12)),
    .stmt (.assign (text "i") (next place) (place 13))]

/-- The body of the function. Its parts stand in any places. -/
def body : List Decl :=
  [.stmt (.declare (text "out") (.array [])),
    .stmt (.declare (text "i") (.literal (.integer 0))),
    .stmt (.loop (condition place) (.block (round place))),
    .stmt (.return_ (some (.name (text "out") (place 14))))]

/-- The function that a declaration at the top level of a program makes. -/
def closure : Closure :=
  ⟨text "double_all", [text "xs"], body place, Machine.globalEnv⟩

end Source

example :
    letI : CharacterNames := .ofList []
    (Program.parse (text "fun double_all(xs) \x7b
      var out = [];
      var i = 0;
      while i < len(xs) \x7b
        out = push(out, xs[i] * 2);
        i = i + 1;
      \x7d
      return out;
    \x7d")).toOption.map Program.written = some (Program.written
      [.function (text "double_all") [text "xs"] (body fun _ => .nowhere)]) := by
  decide +kernel

/-- The local variables: the array, the new array and the index. -/
def locals (a o : ArrayId) (k : Nat) : Bindings :=
  [(text "xs", .array a), (text "out", .array o), (text "i", .integer k)]

def double (x : Int) : Int :=
  Integer64.wrap (2 * x)

/-- What the names in the body mean in an environment. -/
structure Sees (s : Scopes) (env : Env) (a o : ArrayId) (k : Nat) : Prop where
  xs : s.lookup? env (text "xs") = some (.array a)
  out : s.lookup? env (text "out") = some (.array o)
  i : s.lookup? env (text "i") = some (.integer k)
  len : s.lookup? env (text "len") = none
  push : s.lookup? env (text "push") = none

theorem Sees.of_locals {s : Scopes} {id : ScopeId} {outer : Env} {a o : ArrayId} {k : Nat}
    (own : s.bindings id = locals a o k) (len : s.lookup? outer (text "len") = none)
    (push : s.lookup? outer (text "push") = none) : Sees s (id :: outer) a o k := by
  have here (name : Name) : s.lookup? (id :: outer) name =
      ((locals a o k).get? name).or (s.lookup? outer name) := by
    rw [Scopes.lookup?_cons, own]
  exact ⟨here _, here _, here _, (here _).trans len, (here _).trans push⟩

/-- In an empty scope the names mean what they mean around it. -/
theorem Sees.inner {s : Scopes} {id : ScopeId} {env : Env} {a o : ArrayId} {k : Nat}
    (h : Sees s env a o k) (empty : s.bindings id = []) : Sees s (id :: env) a o k := by
  have same (name : Name) : s.lookup? (id :: env) name = s.lookup? env name := by
    rw [Scopes.lookup?_cons, empty]
    rfl
  exact ⟨(same _).trans h.xs, (same _).trans h.out, (same _).trans h.i, (same _).trans h.len,
    (same _).trans h.push⟩

section Expressions
variable {call : Caller} {env : Env} {m : Machine} {a o : ArrayId} {k : Nat} {xs : List Int}
  (h : Sees m.scopes env a o k) (off : m.trace.enabled = false)
  (found : m.arrays[a]? = some (Value.integers xs)) (place : Nat → Position)
include h off found

theorem evalExpr_condition :
    evalExpr call env (condition place) m = .ok (.boolean (decide (k < xs.length))) m := by
  have len : evalExpr call env (.call (text "len") [.name (text "xs") (place 1)] (place 2)) m =
      .ok (.integer xs.length) m := by
    have called := (Machine.Lists.array found).len
    rw [Value.integers, List.toList_toArray, List.length_map] at called
    refine evalExpr_builtin h.len rfl (evalAll_cons (evalExpr_name h.xs) (by simp) evalAll_nil)
      called off ?_
    simp [Machine.isReadable_integers found, m.isReadable_integer]
  refine evalExpr_binary (evalExpr_name h.i) len ?_ off (m.isReadable_boolean _)
  have compared : decide ((k : Int) < xs.length) = decide (k < xs.length) := by simp
  rw [← compared]
  rfl

theorem evalExpr_longer {ys : List Int} {x : Int} (here : xs[k]? = some x)
    (made : m.arrays[o]? = some (Value.integers ys)) :
    evalExpr call env (longer place) m =
      .ok (.array m.arrays.size) (m.allocate (Value.integers (ys ++ [double x]))) := by
  have element : evalExpr call env
      (.index (.name (text "xs") (place 5)) (.name (text "i") (place 6)) (place 7)) m =
      .ok (.integer x) m := by
    have part : (Value.integers xs).toList[k]? = some (.integer x) := by
      simp [Value.integers, here]
    have found := (Machine.Lists.array found).index_of_some part (place 7)
    exact evalExpr_index (evalExpr_name h.xs) (evalExpr_name h.i) (by simp) found
  have doubled : evalExpr call env (.binary .mul
      (.index (.name (text "xs") (place 5)) (.name (text "i") (place 6)) (place 7))
      (.literal (.integer 2)) (place 8)) m = .ok (.integer (double x)) m := by
    refine evalExpr_binary element rfl ?_ off (m.isReadable_integer _)
    rw [double, Int.mul_comm]
    exact RingOp.mul.apply_toBinaryOp x 2 (place 8) m
  have called := Builtin.push_array made (.integer (double x))
  rw [Value.integers_push] at called
  refine evalExpr_builtin h.push rfl (evalAll_cons (evalExpr_name h.out) (by simp)
    (evalAll_cons doubled (by simp) evalAll_nil)) called off ?_
  -- both arrays are displayed when the call is traced
  have old := Machine.found_withArrays made #[Value.integers (ys ++ [double x])]
  rw [← Machine.allocate_eq] at old
  have new : (m.allocate (Value.integers (ys ++ [double x]))).arrays[m.arrays.size]? =
      some (Value.integers (ys ++ [double x])) := Array.getElem?_push_size
  simp [Machine.isReadable_integers old, Machine.isReadable_integers new,
    Machine.isReadable_integer]

omit found in
theorem evalExpr_next (short : k + 1 < 0x8000000000000000) :
    evalExpr call env (next place) m = .ok (.integer (k + 1 : Nat)) m := by
  refine evalExpr_binary (evalExpr_name h.i) rfl ?_ off (m.isReadable_integer _)
  have same : Integer64.wrap (k + 1) = (k + 1 : Nat) :=
    Integer64.wrap_eq_self (by omega) (by omega)
  rw [← same]
  exact RingOp.add.apply_toBinaryOp k 1 (place 11) m

end Expressions

/-- The scopes while the body is executed: a scope of the call itself, and around it none that binds
`len` or `push`. -/
structure Frame (s : Scopes) (outer : Env) (id : ScopeId) (b : Bindings) : Prop where
  own : s.bindings id = b
  lt : id < s.size
  len : s.lookup? outer (text "len") = none
  push : s.lookup? outer (text "push") = none

namespace Frame
variable {s : Scopes} {outer : Env} {id : ScopeId} {b : Bindings}

theorem make (h : Frame s outer id b) (name : Name) : Frame (s.make name []).2 outer id b where
  own := by rw [Scopes.bindings_make, if_neg (Nat.ne_of_lt h.lt), h.own]
  lt := by
    rw [Scopes.size_make]
    exact Nat.lt_succ_of_lt h.lt
  len := Scopes.lookup?_make_of_none rfl h.len name
  push := Scopes.lookup?_make_of_none rfl h.push name

theorem define (h : Frame s outer id b) {name : Name} (value : Value) (len : text "len" ≠ name)
    (push : text "push" ≠ name) : Frame (s.define id name value) outer id (b.put name value) where
  own := by rw [Scopes.bindings_define_self h.lt, h.own]
  lt := by
    rw [Scopes.size_define]
    exact h.lt
  len := by rw [Scopes.lookup?_define_of_ne len, h.len]
  push := by rw [Scopes.lookup?_define_of_ne push, h.push]

theorem find?_inner (h : Frame s outer id b) {inner : ScopeId} (empty : s.bindings inner = [])
    (name : Name) {value : Value} (bound : b.get? name = some value) :
    s.find? name (inner :: id :: outer) = some id := by
  have free : (s.bindings inner).get? name = none := by
    rw [empty]
    rfl
  rw [Scopes.find?_cons_of_none free]
  exact Scopes.find?_cons_of_some (h.own ▸ bound) outer

theorem sees {a o : ArrayId} {k : Nat} (h : Frame s outer id (locals a o k)) :
    Sees s (id :: outer) a o k :=
  .of_locals h.own h.len h.push

end Frame

/-- What holds in a call that was made in the machine `start`: so far the doubles of the first
`pushed` elements are in the new array, and the index is `k`. -/
structure Holds (start : Machine) (outer : Env) (a : ArrayId) (xs : List Int) (pushed k : Nat)
    (m : Machine) : Prop where
  kept : start.KeptIn m
  off : m.trace.enabled = false
  doubled : ∃ o, start.arrays.size ≤ o ∧
    Frame m.scopes outer start.scopes.size (locals a o k) ∧
    m.arrays[o]? = some (Value.integers ((xs.take pushed).map double))

section Steps
variable {call : Caller} {rounds : Nat} {start m : Machine} {outer : Env} {a : ArrayId}
  {xs : List Int} {pushed k : Nat} (found : start.arrays[a]? = some (Value.integers xs))
  (place : Nat → Position)

theorem Holds.make (h : Holds start outer a xs pushed k m) (name : Name) :
    Holds start outer a xs pushed k { m with scopes := (m.scopes.make name []).2 } where
  kept := h.kept.make name []
  off := h.off
  doubled := by
    obtain ⟨o, new, frame, made⟩ := h.doubled
    exact ⟨o, new, frame.make name, made⟩

include found in
theorem Holds.condition (h : Holds start outer a xs pushed k m) :
    evalExpr call (start.scopes.size :: outer) (condition place) m =
      .ok (.boolean (decide (k < xs.length))) m := by
  obtain ⟨o, -, frame, -⟩ := h.doubled
  exact evalExpr_condition frame.sees h.off (h.kept.found found) place

section Round
variable {inner : ScopeId} (other : inner ≠ start.scopes.size)
  (empty : m.scopes.bindings inner = [])
include empty

include found other in
/-- The double of the element at the index is pushed onto a new array. -/
theorem Holds.push (h : Holds start outer a xs k k m) (lt : k < xs.length) :
    ∃ m', execStmt call rounds (inner :: start.scopes.size :: outer)
        (.assign (text "out") (longer place) (place 12)) m = .ok .normal m' ∧
      Holds start outer a xs (k + 1) k m' ∧ m'.scopes.bindings inner = [] := by
  obtain ⟨o, new, frame, made⟩ := h.doubled
  have here : xs[k]? = some xs[k] := List.getElem?_eq_getElem lt
  have longer : evalExpr call (inner :: start.scopes.size :: outer) (longer place) m = _ :=
    evalExpr_longer (frame.sees.inner empty) h.off (h.kept.found found) place here made
  have assigned := frame.find?_inner empty (text "out") rfl
  refine ⟨_, execStmt_assign_of_ok longer (by simp) (place 12) assigned, ?_, ?_⟩
  · refine ⟨(h.kept.allocate _).define (Nat.le_refl _) _ _, h.off, m.arrays.size,
      size_le_of_kept h.kept.arrays, frame.define _ (by decide) (by decide), ?_⟩
    rw [List.take_add_one, here, List.map_append]
    exact Array.getElem?_push_size
  · rw [← empty]
    exact Scopes.bindings_define_of_ne _ _ other

theorem Holds.advance (h : Holds start outer a xs pushed k m)
    (short : k + 1 < 0x8000000000000000) :
    ∃ m', execStmt call rounds (inner :: start.scopes.size :: outer)
        (.assign (text "i") (next place) (place 13)) m = .ok .normal m' ∧
      Holds start outer a xs pushed (k + 1) m' := by
  obtain ⟨o, new, frame, made⟩ := h.doubled
  have next : evalExpr call (inner :: start.scopes.size :: outer) (next place) m = _ :=
    evalExpr_next (frame.sees.inner empty) h.off place short
  have assigned := frame.find?_inner empty (text "i") rfl
  refine ⟨_, execStmt_assign_of_ok next (by simp) (place 13) assigned, ?_⟩
  exact ⟨h.kept.define (Nat.le_refl _) _ _, h.off, o, new, frame.define _ (by decide) (by decide),
    made⟩

end Round

include found in
/-- A round of the loop: one more element is pushed, and the index goes up. -/
theorem Holds.round (h : Holds start outer a xs k k m) (lt : k < xs.length)
    (short : xs.length < 0x8000000000000000) :
    ∃ m', execStmt call rounds (start.scopes.size :: outer) (.block (round place)) m =
        .ok .normal m' ∧
      Holds start outer a xs (k + 1) (k + 1) m' := by
  have other : m.scopes.size ≠ start.scopes.size := by
    obtain ⟨o, -, frame, -⟩ := h.doubled
    exact Nat.ne_of_gt frame.lt
  have empty : Scopes.bindings (m.scopes.make (text "block") []).2 m.scopes.size = [] := by
    rw [Scopes.bindings_make, if_pos rfl]
  obtain ⟨m', pushed, held, empty'⟩ := (h.make (text "block")).push found place other empty lt
  obtain ⟨m'', advanced, held'⟩ := held.advance place empty' (by omega)
  refine ⟨m'', ?_, held'⟩
  rw [execStmt, inBlock_eq, Doubling.round, execBody_stmt_of_ok pushed,
    execBody_stmt_of_ok advanced]
  rfl

include found in
theorem Holds.loop (call : Caller) (h : Holds start outer a xs 0 0 m)
    (short : xs.length < 0x8000000000000000) (enough : xs.length < rounds) :
    ∃ m', execStmt call rounds (start.scopes.size :: outer)
        (.loop (Doubling.condition place) (.block (Doubling.round place))) m =
          .ok .normal m' ∧
      Holds start outer a xs xs.length xs.length m' := by
  rw [execStmt]
  exact repeatWhile_counted (I := fun k => Holds start outer a xs k k)
    (fun k m held => held.condition found place)
    (fun k m lt held => held.round found place lt short) h (Nat.zero_le _) (by omega)

/-- A call begins with its parameter in a scope, and before the loop come two more variables. -/
theorem exists_holds_zero (call : Caller) (rounds : Nat) (off : start.trace.enabled = false)
    (len : start.scopes.lookup? outer (text "len") = none)
    (push : start.scopes.lookup? outer (text "push") = none) (a : ArrayId) (xs : List Int)
    (rest : List Decl) :
    let opened : Machine :=
      { start with scopes := (start.scopes.make (text "double_all") [(text "xs", .array a)]).2 }
    ∃ m, execBody call rounds (start.scopes.size :: outer)
          (.stmt (.declare (text "out") (.array [])) ::
            .stmt (.declare (text "i") (.literal (.integer 0))) :: rest) opened =
        execBody call rounds (start.scopes.size :: outer) rest m ∧
      Holds start outer a xs 0 0 m := by
  intro opened
  have frame : Frame opened.scopes outer start.scopes.size [(text "xs", .array a)] := by
    refine ⟨?_, ?_, Scopes.lookup?_make_of_none rfl len _, Scopes.lookup?_make_of_none rfl push _⟩
    · rw [Scopes.bindings_make, if_pos rfl]
    · rw [Scopes.size_make]
      exact Nat.lt_succ_self _
  have kept : start.KeptIn opened := (Machine.KeptIn.refl start).make _ _
  let made : Machine :=
    { opened.allocate #[] with
      scopes := opened.scopes.define start.scopes.size (text "out") (.array start.arrays.size) }
  let ready : Machine :=
    { made with scopes := made.scopes.define start.scopes.size (text "i") (.integer 0) }
  have first : execStmt call rounds (start.scopes.size :: outer)
      (.declare (text "out") (.array [])) opened = .ok .normal made := rfl
  have second : execStmt call rounds (start.scopes.size :: outer)
      (.declare (text "i") (.literal (.integer 0))) made = .ok .normal ready := rfl
  refine ⟨ready, (execBody_stmt_of_ok first _).trans (execBody_stmt_of_ok second _), ?_⟩
  have kept' : start.KeptIn made := (kept.allocate #[]).define (Nat.le_refl _) _ _
  have frame' : Frame made.scopes outer start.scopes.size _ :=
    frame.define (.array start.arrays.size) (by decide) (by decide)
  exact ⟨kept'.define (Nat.le_refl _) _ _, off, start.arrays.size, Nat.le_refl _,
    frame'.define _ (by decide) (by decide), Array.getElem?_push_size⟩

include found in
/-- The body returns the array of the doubled elements, if there is no trace. -/
theorem exists_execBody_body (call : Caller) (off : start.trace.enabled = false)
    (len : start.scopes.lookup? outer (text "len") = none)
    (push : start.scopes.lookup? outer (text "push") = none)
    (short : xs.length < 0x8000000000000000) (enough : xs.length < rounds) :
    ∃ o m, execBody call rounds (start.scopes.size :: outer) (body place)
        { start with scopes :=
          (start.scopes.make (text "double_all") [(text "xs", .array a)]).2 } =
        .ok (.returned (.array o)) m ∧
      start.KeptIn m ∧ m.trace.enabled = false ∧ start.arrays.size ≤ o ∧
      m.arrays[o]? = some (Value.integers (xs.map double)) := by
  obtain ⟨m, begun, held⟩ := exists_holds_zero call rounds off len push a xs
    [.stmt (.loop (condition place) (.block (round place))),
      .stmt (.return_ (some (.name (text "out") (place 14))))]
  obtain ⟨m', looped, held'⟩ := held.loop found place call short enough
  obtain ⟨o, new, frame, made⟩ := held'.doubled
  have returned : execStmt call rounds (start.scopes.size :: outer)
      (.return_ (some (.name (text "out") (place 14)))) m' = .ok (.returned (.array o)) m' :=
    execStmt_return_of_ok (evalExpr_name frame.sees.out) (by simp)
  rw [List.take_length] at made
  refine ⟨o, m', ?_, held'.kept, held'.off, new, made⟩
  rw [body, begun, execBody_stmt_of_ok looped, execBody]
  exact bind_of_ok returned

end Steps

theorem exists_callFunction_off {m : Machine} {id : FunctionId} {place : Nat → Position}
    (declared : m.functions[id]? = some (closure place)) (off : m.trace.enabled = false)
    (len : m.scopes.lookup? Machine.globalEnv (text "len") = none)
    (push : m.scopes.lookup? Machine.globalEnv (text "push") = none) {a : ArrayId} {xs : List Int}
    (found : m.arrays[a]? = some (Value.integers xs)) (short : xs.length < 0x8000000000000000)
    {rounds : Nat} (enough : xs.length < rounds) (depth : Nat) (position : Position) :
    ∃ o m', callFunction rounds (depth + 1) id [.array a] position m = .ok (.array o) m' ∧
      m.KeptIn m' ∧ m.arrays.size ≤ o ∧
      m'.arrays[o]? = some (Value.integers (xs.map double)) := by
  obtain ⟨o, m', executed, kept, off', new, made⟩ :=
    exists_execBody_body found place (callFunction rounds depth) off len push short enough
  refine ⟨o, m', ?_, kept, new, made⟩
  rw [callFunction_of_found declared rfl, map_eq_pure_bind]
  exact bind_of_ok (Eval.indented_off (by exact off) executed off')

/-- A call of `double_all` with an array of integers comes to an end, if no global variable is named
`len` or `push` and a loop may take more rounds than there are integers. It returns a new array,
which has the double of each integer in its place, brought into range. All scopes, functions and
arrays that there were, the input and the output are as before. -/
theorem call_doubles {m : Machine} {id : FunctionId} {place : Nat → Position}
    (declared : m.functions[id]? = some (closure place))
    (free : text "len" ∉ m.scopes.names Machine.globalScope ∧
      text "push" ∉ m.scopes.names Machine.globalScope) {a : ArrayId} {xs : List Int}
    (found : m.arrays[a]? = some (Value.integers xs)) (short : xs.length < 2 ^ 63)
    {rounds : Nat} (enough : xs.length < rounds) (depth : Nat) (position : Position) :
    ∃ o m', callFunction rounds (depth + 1) id [.array a] position m = .ok (.array o) m' ∧
      m.KeptIn m' ∧ m.arrays.size ≤ o ∧
      m'.arrays[o]? = some (Value.integers (xs.map fun x => Integer64.wrap (2 * x))) := by
  have unbound {name : Name} (other : name ∉ m.scopes.names Machine.globalScope) :
      m.scopes.lookup? Machine.globalEnv name = none := by
    rw [Machine.globalEnv, Scopes.lookup?_cons, Scopes.get?_eq_none_iff.mpr other]
    rfl
  let silent : Machine := { m with trace := .empty false 0 }
  obtain ⟨o, m', called, kept, new, made⟩ := exists_callFunction_off (m := silent) declared rfl
    (unbound free.1) (unbound free.2) found short enough depth position
  have alike : Alike (callFunction rounds (depth + 1) id [.array a] position)
      (callFunction rounds (depth + 1) id [.array a] position) := by
    rw [← Observer.callFunction_plain]
    exact Observer.plain_alike.callFunction rounds (depth + 1) id [.array a] position
  have both := alike silent m.trace
  rw [called] at both
  change Retraced _ _ (callFunction rounds (depth + 1) id [.array a] position m) at both
  generalize callFunction rounds (depth + 1) id [.array a] position m = r at both
  cases both with
  | ok _ _ t => exact ⟨o, _, rfl, kept.retraced t, new, made⟩

/-- The function and an array are declared, and then the function is called with the array. -/
theorem call_doubles_extremes :
    let program : Program := [.function (text "double_all") [text "xs"] (body fun _ => .nowhere),
      .stmt (.declare (text "a")
        (.array [.literal (.integer 1), .literal (.integer (2 ^ 63 - 1))]))]
    ∃ m, program.run ⟨3, 1⟩ (.initial (.ofText []) (.empty true 3)) = .ok none m ∧
      ∃ o m', callFunction 3 1 0 [.array 0] .nowhere m = .ok (.array o) m' ∧ m.KeptIn m' ∧
        m.arrays.size ≤ o ∧ m'.arrays[o]? = some (Value.integers [2, -2]) := by
  intro program
  refine ⟨_, rfl, ?_⟩
  have doubled : [1, 2 ^ 63 - 1].map (fun x => Integer64.wrap (2 * x)) = [2, -2] := by decide
  rw [← doubled]
  exact call_doubles rfl (by decide) rfl (by decide) (by decide) 0 .nowhere

end Doubling

end Script
