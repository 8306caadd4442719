import Script.Proofs.Nameless
import Script.Proofs.Observer

/-!
# Machines that differ in names

Twins are machines that agree on arrays, the input, the output and the trace, and whose functions
have the same readable forms; their scopes may be quite different, and so may the bodies and the
environments of their functions. Steps without names do the same to both of them.
-/

namespace Script

/-- A scope is the same in scopes of the same names if its bindings are. -/
theorem Scopes.getElem?_of_bindings {s s' : Scopes} {id : ScopeId}
    (names : s'.map Scope.name = s.map Scope.name) (same : s'.bindings id = s.bindings id) :
    s'[id]? = s[id]? := by
  have named := congrArg (·[id]?) names
  simp only [Array.getElem?_map] at named
  simp only [Scopes.bindings] at same
  cases hs : s[id]? with
  | none =>
      rw [hs] at named
      exact Option.map_eq_none_iff.mp named
  | some scope =>
      rw [hs] at named same
      obtain ⟨scope', hs', name⟩ := Option.map_eq_some_iff.mp named
      rw [hs'] at same ⊢
      obtain ⟨_, _⟩ := scope
      obtain ⟨_, _⟩ := scope'
      exact congrArg some (congr (congrArg Scope.mk name) same)

/-- Two machines that look the same where names play no part. -/
structure Machine.Twin (m m' : Machine) : Prop where
  arrays : m'.arrays = m.arrays
  input : m'.input = m.input
  output : m'.output = m.output
  trace : m'.trace = m.trace
  heads : m'.functions.map Closure.display = m.functions.map Closure.display

namespace Machine.Twin
variable {m m' : Machine}

theorem refl (m : Machine) : m.Twin m := ⟨rfl, rfl, rfl, rfl, rfl⟩

theorem elements (h : m.Twin m') (a : ArrayId) : m'.elements a = m.elements a := by
  rw [Machine.elements, h.arrays, Machine.elements]

theorem size_functions (h : m.Twin m') : m'.functions.size = m.functions.size := by
  have same := congrArg Array.size h.heads
  rwa [Array.size_map, Array.size_map] at same

theorem displayAtom (h : m.Twin m') (value : Value) :
    m'.displayAtom value = m.displayAtom value := by
  cases value with
  | function id =>
      have head := congrArg (·[id]?) h.heads
      simp only [Array.getElem?_map] at head
      simp only [Machine.displayAtom, head]
  | _ => rfl

theorem displayWithin (h : m.Twin m') (depth : Nat) (value : Value) :
    m'.displayWithin depth value = m.displayWithin depth value := by
  induction depth generalizing value with
  | zero => exact h.displayAtom value
  | succ depth ih =>
      cases value with
      | array a => simp only [Machine.displayWithin, h.elements, funext ih]
      | _ => exact h.displayAtom _

theorem display (h : m.Twin m') (value : Value) : m'.display value = m.display value := by
  rw [Machine.display, h.arrays]
  exact h.displayWithin _ value

theorem describeAtom (h : m.Twin m') (value : Value) :
    m'.describeAtom value = m.describeAtom value := by
  cases value with
  | function id =>
      have head := congrArg (·[id]?) h.heads
      simp only [Array.getElem?_map] at head
      simp only [Machine.describeAtom, head]
  | _ => rfl

theorem describe (h : m.Twin m') (value : Value) : m'.describe value = m.describe value := by
  have within (depth : Nat) (value : Value) :
      m'.describeWithin depth value = m.describeWithin depth value := by
    induction depth generalizing value with
    | zero => exact h.describeAtom value
    | succ depth ih =>
        cases value with
        | array a => simp only [Machine.describeWithin, h.elements, funext ih]
        | _ => exact h.describeAtom _
  rw [Machine.describe, h.arrays]
  exact within _ value

/-- The global environment is described alike if its scope is the same. -/
theorem describeEnv_globalEnv (h : m.Twin m')
    (global : m'.scopes[globalScope]? = m.scopes[globalScope]?) :
    m'.describeEnv globalEnv = m.describeEnv globalEnv := by
  have binding : m'.describeBinding = m.describeBinding := by
    funext pair
    simp only [Machine.describeBinding, h.describe]
  simp only [Machine.describeEnv, globalEnv, Scopes.chain, List.filterMap_cons,
    List.filterMap_nil, global, binding]

theorem newFunction (h : m.Twin m') {f g : Closure} (name : g.name = f.name)
    (parameters : g.parameters = f.parameters) :
    ({ m with functions := m.functions.push f } : Machine).Twin
      { m' with functions := m'.functions.push g } := by
  have head : g.display = f.display := by
    rw [Closure.display, name, parameters, Closure.display]
  refine ⟨h.arrays, h.input, h.output, h.trace, ?_⟩
  simp only [Array.map_push, h.heads, head]

section Functions
variable {R : Closure → Closure → Prop}
  (related : ∀ (id : FunctionId) (f g : Closure), m.functions[id]? = some f →
    m'.functions[id]? = some g → R f g)

include related

/-- A relation of the functions of twins goes on to hold when related functions are made. -/
theorem forall_push (h : m.Twin m') {f g : Closure} (new : R f g) (id : FunctionId)
    (f' g' : Closure) (hf : (m.functions.push f)[id]? = some f')
    (hg : (m'.functions.push g)[id]? = some g') : R f' g' := by
  simp only [Array.getElem?_push] at hf hg
  rw [h.size_functions] at hg
  by_cases last : id = m.functions.size
  · rw [if_pos last] at hf hg
    rwa [← Option.some.inj hf, ← Option.some.inj hg]
  · rw [if_neg last] at hf hg
    exact related id f' g' hf hg

theorem closure (h : m.Twin m') (id : FunctionId) :
    Option.Rel R m.functions[id]? m'.functions[id]? := by
  cases hf : m.functions[id]? with
  | none =>
      have ge := Array.getElem?_eq_none_iff.mp hf
      rw [Array.getElem?_eq_none (h.size_functions ▸ ge)]
      exact .none
  | some f =>
      have lt : id < m'.functions.size :=
        h.size_functions ▸ (Array.getElem?_eq_some_iff.mp hf).1
      have hg : m'.functions[id]? = some m'.functions[id] := Array.getElem?_eq_getElem lt
      rw [hg]
      exact .some (related id f _ hf hg)

end Functions

/-- A machine with the scopes and the functions of its twin is that twin. -/
theorem eq_with (h : m.Twin m') :
    { m with scopes := m'.scopes, functions := m'.functions } = m' := by
  rw [← h.arrays, ← h.input, ← h.output, ← h.trace]

end Machine.Twin

/-- A machine as it was before, except for what names play no part in. -/
structure Machine.Stays (m n : Machine) : Prop where
  scopes : n.scopes = m.scopes
  functions : n.functions = m.functions
  enabled : n.trace.enabled = m.trace.enabled

namespace Machine.Stays
variable {l m n : Machine}

theorem refl (m : Machine) : m.Stays m := ⟨rfl, rfl, rfl⟩

theorem trans (h : l.Stays m) (h' : m.Stays n) : l.Stays n where
  scopes := h'.scopes.trans h.scopes
  functions := h'.functions.trans h.functions
  enabled := h'.enabled.trans h.enabled

end Machine.Stays

@[simp] theorem Trace.enabled_write (t : Trace) (message : Text) :
    (t.write message).enabled = t.enabled := by
  unfold Trace.write
  split <;> rfl

@[simp] theorem Trace.enabled_writeLine (t : Trace) (message : Text) :
    (t.writeLine message).enabled = t.enabled :=
  t.enabled_write _

@[simp] theorem Trace.enabled_indent (t : Trace) : t.indent.enabled = t.enabled := by
  unfold Trace.indent
  split <;> rfl

@[simp] theorem Trace.enabled_dedent (t : Trace) : t.dedent.enabled = t.enabled := by
  unfold Trace.dedent
  split <;> rfl

namespace Eval
variable {α β : Type}

/-- The same end of two computations that have run on `m` and `m'` and left their scopes and
functions alone. -/
inductive SameEnd (m m' : Machine) :
    EStateM.Result Halt Machine α → EStateM.Result Halt Machine α → Prop
  | ok {a : α} {n n' : Machine} : n.Twin n' → m.Stays n → m'.Stays n' →
      SameEnd m m' (.ok a n) (.ok a n')
  | error {reason : Halt} {n n' : Machine} : n.Twin n' → m.Stays n → m'.Stays n' →
      SameEnd m m' (.error reason n) (.error reason n')

theorem SameEnd.after {l l' m m' : Machine} (stays : l.Stays m) (stays' : l'.Stays m')
    {result result' : EStateM.Result Halt Machine α} (h : SameEnd m m' result result') :
    SameEnd l l' result result' := by
  cases h with
  | ok twin left right => exact .ok twin (stays.trans left) (stays'.trans right)
  | error twin left right => exact .error twin (stays.trans left) (stays'.trans right)

/-- Two computations that do the same to twins, and nothing to scopes and functions. -/
def Abreast (x y : Eval α) : Prop :=
  ∀ m m', m.Twin m' → SameEnd m m' (x m) (y m')

namespace Abreast

theorem bind {x y : Eval α} {f g : α → Eval β} (h : Abreast x y) (hf : ∀ a, Abreast (f a) (g a)) :
    Abreast (x >>= f) (y >>= g) := by
  intro m m' twin
  have first := h m m' twin
  generalize hm : x m = r, hm' : y m' = r' at first
  cases first with
  | error twin left right =>
      rw [bind_of_error hm, bind_of_error hm']
      exact .error twin left right
  | ok twin left right =>
      rw [bind_of_ok hm, bind_of_ok hm']
      exact (hf _ _ _ twin).after left right

theorem ofExcept (r : Except Halt α) : Abreast (ofExcept r) (ofExcept r) := by
  intro m m' twin
  cases r with
  | ok a => exact .ok twin (.refl m) (.refl m')
  | error reason => exact .error twin (.refl m) (.refl m')

/-- Two lines of the trace that end alike in twins. -/
theorem of_off {values : List Value} {x y : Eval Unit} (hx : Traces values x)
    (hy : Traces values y) {m m' : Machine} (twin : m.Twin m') (off : m.trace.enabled = false) :
    SameEnd m m' (x m) (y m') := by
  rw [hx.off off, hy.off (by rw [twin.trace, off]), funext twin.display]
  cases values.mapM m.display with
  | ok shown => exact .ok twin (.refl m) (.refl m')
  | error reason => exact .error twin (.refl m) (.refl m')

end Abreast

theorem Nameless.abreast {x : Eval α} (h : Nameless x) : Abreast x x := by
  induction h with
  | pure a => exact fun m m' twin => .ok twin (.refl m) (.refl m')
  | halt reason => exact fun m m' twin => .error twin (.refl m) (.refl m')
  | bind _ _ hx hf => exact .bind hx hf
  | @look _ f same _ ih =>
      intro m m' twin
      have seen : f m' = f m := by
        rw [← twin.eq_with]
        exact same m m'.scopes m'.functions m.output m.trace
      change SameEnd m m' (f m m) (f m' m')
      rw [seen]
      exact ih m m m' twin
  | @change _ f same =>
      intro m m' twin
      -- a twin is the machine with other scopes and functions, for which the change is the same
      have kept := congrArg Prod.snd (same m m.scopes m.functions m.trace)
      change (f m).2 = _ at kept
      have changed := same m m'.scopes m'.functions m.trace
      rw [show { m with scopes := m'.scopes, functions := m'.functions, trace := m.trace } = m' from
        twin.eq_with] at changed
      change SameEnd m m' (.ok (f m).1 (f m).2) (.ok (f m').1 (f m').2)
      rw [changed]
      refine .ok ⟨rfl, rfl, rfl, ?_, ?_⟩ ⟨?_, ?_, ?_⟩ ⟨rfl, rfl, ?_⟩
      · rw [kept]
      · rw [kept]
        exact twin.heads
      · rw [kept]
      · rw [kept]
      · rw [kept]
      · rw [twin.trace]
  | display value =>
      intro m m' twin
      have shown := Abreast.ofExcept (m.display value) m m' twin
      change SameEnd m m' (Eval.ofExcept (m.display value) m) (Eval.ofExcept (m'.display value) m')
      rwa [twin.display]
  | traceLine t =>
      intro m m' twin
      change SameEnd m m' (.ok () { m with trace := m.trace.writeLine t })
        (.ok () { m' with trace := m'.trace.writeLine t })
      refine .ok ⟨twin.arrays, twin.input, twin.output, ?_, twin.heads⟩
        ⟨rfl, rfl, ?_⟩ ⟨rfl, rfl, ?_⟩
      · dsimp only
        rw [twin.trace]
      · exact Trace.enabled_writeLine _ _
      · exact Trace.enabled_writeLine _ _

end Eval

end Script
