import Script.Proofs.Effects

/-!
# Input that is not read

A run only depends on the input that it takes. If it ends and leaves something of its input unread,
then it ends in the same way with any text behind its input, and leaves that text unread as well.

What has to be excluded is that a reader notices where its text ends while something of it is left.
Each reader either uses up the text or stops at a place that does not depend on what stands further
behind; all other steps leave the input alone. Once the input is used up it stays so, and therefore
none of the readers has met the end in a run that leaves something.
-/

namespace Script

namespace Machine

/-- A machine with more input behind what is left of it. -/
def supply (m : Machine) (t : Text) : Machine :=
  { m with input := { m.input with rest := m.input.rest ++ t } }

end Machine

namespace Eval
variable {α β : Type}

def withInput (input : Input) :
    EStateM.Result Halt Machine α → EStateM.Result Halt Machine α
  | .ok a m => .ok a { m with input }
  | .error reason m => .error reason { m with input }

/-- A result with more input behind what is left of it. -/
def supply (t : Text) : EStateM.Result Halt Machine α → EStateM.Result Halt Machine α
  | .ok a m => .ok a (m.supply t)
  | .error reason m => .error reason (m.supply t)

theorem supply_eq_withInput (t : Text) (r : EStateM.Result Halt Machine α) :
    supply t r = withInput { (final r).input with rest := (final r).input.rest ++ t } r := by
  cases r <;> rfl

/-! ### Steps that leave the input alone -/

/-- A computation that does not depend on the input and leaves it as it is. -/
def SparesInput (x : Eval α) : Prop :=
  ∀ m input, x { m with input } = withInput input (x m)

namespace SparesInput

theorem bind {x : Eval α} {f : α → Eval β} (h : SparesInput x) (hf : ∀ a, SparesInput (f a)) :
    SparesInput (x >>= f) := by
  intro m input
  have first := h m input
  cases found : x m with
  | ok a n =>
      rw [found] at first
      rw [bind_of_ok first, bind_of_ok found]
      exact hf a n input
  | error reason n =>
      rw [found] at first
      rw [bind_of_error first, bind_of_error found]
      rfl

theorem input_final {x : Eval α} (h : SparesInput x) (m : Machine) :
    (final (x m)).input = m.input := by
  have same : x m = withInput m.input (x m) := h m m.input
  rw [same]
  cases x m <;> rfl

theorem ofExcept (r : Except Halt α) : SparesInput (ofExcept r) := by
  cases r <;> exact fun _ _ => rfl

end SparesInput

end Eval

namespace Machine

theorem displayWithin_input (m : Machine) (input : Input) (depth : Nat) (value : Value) :
    ({ m with input } : Machine).displayWithin depth value = m.displayWithin depth value := by
  induction depth generalizing value with
  | zero => rfl
  | succ depth ih =>
      cases value with
      | array id =>
          simp only [displayWithin, funext ih]
          rfl
      | _ => rfl

end Machine

namespace Eval
variable {α : Type}

theorem Inputless.sparesInput {x : Eval α} (h : Inputless True x) : SparesInput x := by
  induction h with
  | pure a => exact fun _ _ => rfl
  | halt reason => exact fun _ _ => rfl
  | bind _ _ hx hf => exact .bind hx hf
  | @look _ f same _ ih =>
      intro m input
      change f { m with input } { m with input } = withInput input (f m m)
      have seen : f { m with input } = f m := same m m.scopes m.functions input m.output m.trace
      rw [seen]
      exact ih m m input
  | @change _ f same =>
      intro m input
      have changed := same m m.scopes m.functions input m.trace
      have kept := congrArg Prod.snd (same m m.scopes m.functions m.input m.trace)
      change (f m).2 = _ at kept
      change EStateM.Result.ok (f { m with input }).1 (f { m with input }).2 =
        .ok (f m).1 { (f m).2 with input }
      rw [changed, kept]
  | display value =>
      intro m input
      have shown : ({ m with input } : Machine).display value = m.display value :=
        m.displayWithin_input input _ value
      change Eval.ofExcept (({ m with input } : Machine).display value) { m with input } =
        withInput input (Eval.ofExcept (m.display value) m)
      rw [shown]
      exact SparesInput.ofExcept _ m input
  | traceLine t => exact fun _ _ => rfl

theorem sparesInput_resolve (env : Env) (name : Name) (position : Position) :
    SparesInput (resolve env name position) := by
  intro m input
  cases found : m.scopes.lookup? env name with
  | some v =>
      rw [resolve_of_some found, resolve_of_some (m := { m with input }) found]
      rfl
  | none =>
      rw [resolve_of_none found, resolve_of_none (m := { m with input }) found]
      rfl

theorem sparesInput_assign (env : Env) (name : Name) (value : Value) :
    SparesInput (assign env name value) := by
  intro m input
  change EStateM.Result.ok _ _ = withInput input (.ok _ _)
  dsimp only
  cases m.scopes.find? name env <;> rfl

/-! ### Short sight -/

/-- The second computation does the same as the first with more input, unless the first uses up its
input; and used up input stays so. -/
structure ShortSighted (x y : Eval α) : Prop where
  spent (m : Machine) : m.input.rest = [] → (final (x m)).input.rest = []
  faultless (m : Machine) : m.input.fault = none → (final (x m)).input.fault = none
  supplied (m : Machine) (t : Text) : m.input.fault = none → (final (x m)).input.rest ≠ [] →
    y (m.supply t) = supply t (x m)

namespace ShortSighted

theorem of_sparesInput {x : Eval α} (h : SparesInput x) : ShortSighted x x where
  spent m none := by rw [h.input_final, none]
  faultless m none := by rw [h.input_final, none]
  supplied m t _ _ := by
    rw [supply_eq_withInput, h.input_final]
    exact h m _

theorem of_inputless {x : Eval α} (h : Inputless True x) : ShortSighted x x :=
  of_sparesInput h.sparesInput

/-- What two computations keep of the input is kept by one after the other. -/
theorem input_final_bind {β : Type} {P : Input → Prop} {x : Eval α} {f : α → Eval β}
    (h : ∀ m, P m.input → P (final (x m)).input)
    (hf : ∀ a m, P m.input → P (final (f a m)).input) (m : Machine) (holds : P m.input) :
    P (final ((x >>= f) m)).input := by
  have first := h m holds
  cases found : x m with
  | ok a n =>
      rw [found] at first
      rw [bind_of_ok found]
      exact hf a n first
  | error reason n =>
      rw [found] at first
      rw [bind_of_error found]
      exact first

theorem bind {β : Type} {x y : Eval α} {f g : α → Eval β} (h : ShortSighted x y)
    (hf : ∀ a, ShortSighted (f a) (g a)) : ShortSighted (x >>= f) (y >>= g) where
  spent := input_final_bind (P := fun i => i.rest = []) h.spent fun a => (hf a).spent
  faultless := input_final_bind (P := fun i => i.fault = none) h.faultless fun a => (hf a).faultless
  supplied m t none unread := by
    have sound := h.faultless m none
    have first := h.supplied m t none
    cases found : x m with
    | ok a n =>
        rw [found] at first sound
        rw [bind_of_ok found] at unread ⊢
        -- something is left after the first part too, since what is used up stays so
        have left : n.input.rest ≠ [] := fun none => unread ((hf a).spent n none)
        rw [bind_of_ok (first left)]
        exact (hf a).supplied n t sound unread
    | error reason n =>
        rw [found] at first
        rw [bind_of_error found] at unread ⊢
        exact bind_of_error (first unread)

theorem indented {x y : Eval α} (h : ShortSighted x y) :
    ShortSighted (Eval.indented x) (Eval.indented y) := by
  have input_final (m : Machine) : (final (Eval.indented x m)).input =
      (final (x { m with trace := m.trace.indent })).input := by
    unfold Eval.indented
    cases x { m with trace := m.trace.indent } <;> rfl
  constructor
  · intro m none
    rw [input_final]
    exact h.spent { m with trace := m.trace.indent } none
  · intro m none
    rw [input_final]
    exact h.faultless { m with trace := m.trace.indent } none
  · intro m t none unread
    rw [input_final] at unread
    have inner := h.supplied { m with trace := m.trace.indent } t none unread
    have entered : ({ m.supply t with trace := (m.supply t).trace.indent } : Machine) =
        Machine.supply { m with trace := m.trace.indent } t := rfl
    unfold Eval.indented
    rw [entered, inner]
    cases x { m with trace := m.trace.indent } <;> rfl

end ShortSighted

end Eval

/-! ### Readers -/

namespace Input
variable {s t : Text}

theorem readLine_append (unread : (readLine (.ofText s)).rest ≠ []) :
    readLine (.ofText (s ++ t)) =
      { readLine (.ofText s) with rest := (readLine (.ofText s)).rest ++ t } := by
  have ends : .lineFeed ∈ s := by
    by_contra endless
    rw [ofText, readLine_of_notMem none endless] at unread
    exact unread rfl
  obtain ⟨line, rest, rfl, single⟩ := List.eq_append_cons_of_mem ends
  rw [List.append_assoc, List.cons_append, ofText, ofText, readLine_append_lineFeed _ none single,
    readLine_append_lineFeed _ none single]

theorem readWordFrom_append (word : Text) (unread : (readWordFrom none word s).rest ≠ []) :
    readWordFrom none word (s ++ t) =
      { readWordFrom none word s with rest := (readWordFrom none word s).rest ++ t } := by
  fun_induction readWordFrom none word s with
  | case1 => exact absurd rfl unread
  | case2 => exact absurd rfl unread
  | case3 word d more ends =>
      rw [List.cons_append, List.cons_append, readWordFrom]
      simp [ends]
  | case4 word d more goes ih =>
      rw [List.cons_append, List.cons_append, readWordFrom]
      simp only [if_true, if_neg goes]
      exact ih unread
  | case5 word rest _ => rw [List.cons_append, readWordFrom_lineFeed]
  | case6 word c rest cr _ blank inside =>
      rw [List.cons_append, readWordFrom_of_blank inside cr blank]
  | case7 word c rest cr lf blank empty ih =>
      obtain rfl : word = [] := not_not.mp empty
      rw [List.cons_append, readWordFrom_nil_of_blank cr lf blank]
      exact ih unread
  | case8 word c rest _ _ solid ih =>
      rw [List.cons_append, readWordFrom_of_solid solid]
      exact ih unread

end Input

namespace Builtin
open Input

variable {read : Input → Reading}

/-- No reader sees beyond what it takes and the code point behind that. -/
theorem IsReader.append (h : IsReader read) {s : Text} (t : Text)
    (unread : (read (.ofText s)).rest ≠ []) :
    read (.ofText (s ++ t)) = { read (.ofText s) with rest := (read (.ofText s)).rest ++ t } := by
  cases h with
  | line => exact readLine_append unread
  | word => exact readWordFrom_append [] unread
  | char =>
      cases s with
      | nil => exact absurd rfl unread
      | cons c rest => rfl
  | all => exact absurd rfl unread

theorem IsReader.of (h : IsReader read) (input : Input) : (read input).Of input.rest := by
  cases h with
  | line => exact input.of_readLine
  | word => exact input.of_readWord
  | char => exact input.of_readChar
  | all => exact input.of_readAll

theorem IsReader.fault_ofText (h : IsReader read) (s : Text) :
    (read (.ofText s)).fault = none := by
  cases h with
  | line => exact or_self_iff.mp (fault_readLine (.ofText s))
  | word => exact or_self_iff.mp (fault_readWord (.ofText s))
  | char => exact or_self_iff.mp (fault_readChar (.ofText s))
  | all => rfl

theorem input_takeInput (b : Builtin) (read : Input → Reading) (m : Machine) :
    (Eval.final (b.takeInput read m)).input = m.input.leave (read m.input) := by
  obtain ⟨-, called⟩ | ⟨_, _, -, -, called⟩ | ⟨_, -, -, called⟩ := takeInput_cases m b read <;>
    · rw [called]
      rfl

open Eval in
theorem IsReader.shortSighted (h : IsReader read) (b : Builtin) :
    ShortSighted (b.takeInput read) (b.takeInput read) where
  spent m none := by
    have left := (h.of m.input).rest
    rw [none, List.suffix_nil] at left
    rw [input_takeInput]
    exact left
  faultless m none := by
    rw [input_takeInput]
    exact none
  supplied m t none unread := by
    obtain ⟨scopes, functions, arrays, ⟨rest, fault⟩, output, trace⟩ := m
    obtain rfl : fault = Option.none := none
    rw [input_takeInput] at unread
    have before : b.takeInput read ⟨scopes, functions, arrays, .ofText rest, output, trace⟩ = _ :=
      takeInput_of_faultless (h.fault_ofText rest)
    have after : b.takeInput read
        ⟨scopes, functions, arrays, .ofText (rest ++ t), output, trace⟩ = _ :=
      takeInput_of_faultless (h.fault_ofText (rest ++ t))
    rw [h.append t unread] at after
    exact after.trans (congrArg (supply t) before.symm)

theorem shortSighted_call (b : Builtin) (arguments : List Value) :
    Eval.ShortSighted (b.call arguments) (b.call arguments) := by
  obtain inputless | ⟨read, reader, same⟩ := b.inputless_or_reads True arguments
  · exact .of_inputless inputless
  · rw [same]
    exact reader.shortSighted b

end Builtin

/-! ### Runs -/

theorem Primitive.shortSighted {α : Type} {x : Eval α} (h : Primitive x) :
    Eval.ShortSighted x x := by
  cases h with
  | resolve env name position => exact .of_sparesInput (Eval.sparesInput_resolve env name position)
  | newArray elements => exact .of_inputless (.newArray elements)
  | index target index position => exact .of_inputless (.indexValue target index position)
  | builtin b arguments => exact b.shortSighted_call arguments
  | newScope name bindings env => exact .of_sparesInput fun _ _ => rfl
  | define env name value => cases env <;> exact .of_sparesInput fun _ _ => rfl
  | assign env name value => exact .of_sparesInput (Eval.sparesInput_assign env name value)
  | newFunction name parameters body env => exact .of_sparesInput fun _ _ => rfl
  | closure id => exact .of_sparesInput fun _ _ => rfl
  | halt reason => exact .of_inputless (.halt reason)

theorem Observer.plain_shortSighted :
    Observer.Related Eval.ShortSighted Observer.plain Observer.plain where
  pure a := .of_inputless (.pure a)
  bind := .bind
  step := Primitive.shortSighted
  onExpr _ _ _ _ h := h
  onDecl _ _ _ _ h := h
  onCall callee _ arguments _ _ h :=
    h.bind fun v => .of_inputless (.bind (.traceCall callee arguments v) fun _ => .pure v)
  onUnary op operand position := .of_inputless (.tracedUnary op operand position)
  onBinary op left right position := .of_inputless (.tracedBinary op left right position)
  inBody h := h.indented
  onAbort _ := .of_inputless (.traceLine _ trivial)

/-- A run that leaves something of its input unread goes the same way if there is more input behind
it: it has the same result or halts for the same reason, with a machine that differs in nothing but
that the additional input is left as well. -/
theorem Program.run_of_unread (budget : Budget) (program : Program) (s t : Text) (trace : Trace)
    (unread : (Eval.final (program.run budget (.initial (.ofText s) trace))).input.rest ≠ []) :
    program.run budget (.initial (.ofText (s ++ t)) trace) =
      Eval.supply t (program.run budget (.initial (.ofText s) trace)) := by
  have h := Observer.plain_shortSighted.run budget program
  rw [Observer.run_plain] at h
  exact h.supplied (.initial (.ofText s) trace) t rfl unread

/-- A program that reads a word and what is left of its line. -/
def Program.wordAndLine : Program :=
  [.stmt (.declare (text "word") (.call (text "read") [] ⟨1, 12⟩)),
    .stmt (.declare (text "line") (.call (text "readln") [] ⟨2, 12⟩))]

theorem Program.run_of_unread_wordAndLine :
    (Eval.final (wordAndLine.run .standard
      (.initial (.ofText (text "one two\r\nthree")) (.empty true 3)))).input.rest ≠ [] ∧
    wordAndLine.run .standard
        (.initial (.ofText (text "one two\r\nthree" ++ text "\nfour")) (.empty true 3)) =
      Eval.supply (text "\nfour") (wordAndLine.run .standard
        (.initial (.ofText (text "one two\r\nthree")) (.empty true 3))) := by
  have left : (Eval.final (wordAndLine.run .standard
      (.initial (.ofText (text "one two\r\nthree")) (.empty true 3)))).input.rest =
        text "three" := by
    decide +kernel
  have unread := left.trans_ne (List.cons_ne_nil _ _)
  exact ⟨unread, run_of_unread .standard wordAndLine _ _ _ unread⟩

end Script
