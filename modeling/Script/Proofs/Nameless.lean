import Script.Proofs.Readable

/-!
# Steps without names

Operators, indices and built-in functions neither look at scopes nor change them, and all they need
of a function is its readable form. Such a step looks at arrays and the input, changes arrays, the
input and the output, makes readable forms, and writes to the trace. Among the built-in functions,
only the readers have anything to do with the input or write to the trace.
-/

namespace Script

namespace Eval

/-- A computation in which names play no part. -/
inductive Nameless : {α : Type} → Eval α → Prop
  | pure {α : Type} (a : α) : Nameless (pure a)
  | halt {α : Type} (reason : Halt) : Nameless (throw reason : Eval α)
  | bind {α β : Type} {x : Eval α} {f : α → Eval β} : Nameless x → (∀ a, Nameless (f a)) →
      Nameless (x >>= f)
  | look {α : Type} {f : Machine → Eval α} :
      (∀ (m : Machine) scopes functions output trace,
        f { m with scopes, functions, output, trace } = f m) →
      (∀ m, Nameless (f m)) → Nameless (get >>= f)
  | change {α : Type} {f : Machine → α × Machine} :
      (∀ (m : Machine) scopes functions trace, f { m with scopes, functions, trace } =
        ((f m).1, { (f m).2 with scopes, functions, trace })) → Nameless (modifyGet f)
  | display (value : Value) : Nameless (display value)
  | traceLine (t : Text) : Nameless (traceLine t)

/-- A computation in which the input plays no part either, and which writes to the trace only if
it may be `traced`. -/
inductive Inputless (traced : Prop) : {α : Type} → Eval α → Prop
  | pure {α : Type} (a : α) : Inputless traced (pure a)
  | halt {α : Type} (reason : Halt) : Inputless traced (throw reason : Eval α)
  | bind {α β : Type} {x : Eval α} {f : α → Eval β} : Inputless traced x →
      (∀ a, Inputless traced (f a)) → Inputless traced (x >>= f)
  | look {α : Type} {f : Machine → Eval α} :
      (∀ (m : Machine) scopes functions input output trace,
        f { m with scopes, functions, input, output, trace } = f m) →
      (∀ m, Inputless traced (f m)) → Inputless traced (get >>= f)
  | change {α : Type} {f : Machine → α × Machine} :
      (∀ (m : Machine) scopes functions input trace,
        f { m with scopes, functions, input, trace } =
          ((f m).1, { (f m).2 with scopes, functions, input, trace })) →
      Inputless traced (modifyGet f)
  | display (value : Value) : Inputless traced (display value)
  | traceLine (t : Text) : traced → Inputless traced (traceLine t)

namespace Inputless

variable {traced : Prop}

theorem nameless {α : Type} {x : Eval α} (h : Inputless traced x) : Nameless x := by
  induction h with
  | pure a => exact .pure a
  | halt reason => exact .halt reason
  | bind _ _ hx hf => exact .bind hx hf
  | look same _ ih =>
      exact .look (fun m scopes functions => same m scopes functions m.input) ih
  | @change _ f same =>
      apply Nameless.change
      intro m scopes functions trace
      have kept := congrArg Prod.snd (same m m.scopes m.functions m.input m.trace)
      change (f m).2 = _ at kept
      have changed := same m scopes functions m.input trace
      rw [kept] at changed ⊢
      exact changed
  | display value => exact .display value
  | traceLine t _ => exact .traceLine t

theorem ofExcept {α : Type} (r : Except Halt α) : Inputless traced (ofExcept r) := by
  cases r with
  | ok a => exact .pure a
  | error reason => exact .halt reason

theorem bytesOf (t : Text) : Inputless traced (bytesOf t) := ofExcept _

theorem newArray (elements : Array Value) : Inputless traced (newArray elements) :=
  .change fun _ _ _ _ _ => rfl

theorem mapM {α β : Type} {f : α → Eval β} (h : ∀ a, Inputless traced (f a)) (as : List α) :
    Inputless traced (as.mapM f) := by
  induction as with
  | nil => exact .pure _
  | cons a as ih =>
      rw [List.mapM_cons]
      exact .bind (h a) fun _ => .bind ih fun _ => .pure _

theorem displayAll (values : List Value) : Inputless traced (displayAll values) :=
  .bind (mapM .display values) fun _ => .pure _

theorem traceCall (callee : Name) (arguments : List Value) (value : Value) :
    Inputless True (traceCall callee arguments value) :=
  .bind (displayAll _) fun _ => .bind (.display _) fun _ => .traceLine _ trivial

theorem traceUnary (op : UnaryOp) (operand value : Value) :
    Inputless True (traceUnary op operand value) :=
  .bind (.display _) fun _ => .bind (.display _) fun _ => .traceLine _ trivial

theorem traceBinary (op : BinaryOp) (left right value : Value) :
    Inputless True (traceBinary op left right value) :=
  .bind (.display _) fun _ => .bind (.display _) fun _ => .bind (.display _) fun _ =>
    .traceLine _ trivial

theorem indexValue (target index : Value) (position : Position) :
    Inputless traced (indexValue target index position) := by
  unfold Script.indexValue
  split
  · exact .look (fun _ _ _ _ _ _ => rfl) fun _ => .pure _
  · exact .bind (bytesOf _) fun _ => .pure _
  · exact .pure _
  · exact .pure _

theorem apply (op : BinaryOp) (left right : Value) (position : Position) :
    Inputless traced (op.apply left right position) := by
  unfold BinaryOp.apply
  split
  · exact .pure _
  · exact .pure _
  · split <;> exact .pure _
  · exact .bind (bytesOf _) fun _ => .bind (bytesOf _) fun _ => .pure _
  · exact .pure _

theorem tracedUnary (op : UnaryOp) (operand : Value) (position : Position) :
    Inputless True (tracedUnary op operand position) :=
  .bind (traceUnary _ _ _) fun _ => .pure _

theorem tracedBinary (op : BinaryOp) (left right : Value) (position : Position) :
    Inputless True (tracedBinary op left right position) :=
  .bind (apply _ _ _ _) fun _ => .bind (traceBinary _ _ _ _) fun _ => .pure _

end Inputless

namespace Nameless

theorem newArray (elements : Array Value) : Nameless (newArray elements) :=
  (Inputless.newArray elements : Inputless True _).nameless

theorem indexValue (target index : Value) (position : Position) :
    Nameless (indexValue target index position) :=
  (Inputless.indexValue target index position : Inputless True _).nameless

theorem apply (op : BinaryOp) (left right : Value) (position : Position) :
    Nameless (op.apply left right position) :=
  (Inputless.apply op left right position : Inputless True _).nameless

theorem tracedUnary (op : UnaryOp) (operand : Value) (position : Position) :
    Nameless (tracedUnary op operand position) :=
  (Inputless.tracedUnary op operand position).nameless

theorem tracedBinary (op : BinaryOp) (left right : Value) (position : Position) :
    Nameless (tracedBinary op left right position) :=
  (Inputless.tracedBinary op left right position).nameless

end Nameless

end Eval

namespace Builtin
open Eval

variable {traced : Prop}

theorem inputless_callLen (value : Value) : Inputless traced (callLen value) := by
  cases value with
  | string t => exact .bind (.bytesOf t) fun _ => .pure _
  | array a => exact .look (fun _ _ _ _ _ _ => rfl) fun _ => .pure _
  | _ => exact .pure _

theorem inputless_callFirst (value : Value) : Inputless traced (callFirst value) := by
  cases value with
  | string t => exact .bind (.bytesOf t) fun _ => .pure _
  | array a => exact .look (fun _ _ _ _ _ _ => rfl) fun _ => .pure _
  | _ => exact .pure _

theorem inputless_callLast (value : Value) : Inputless traced (callLast value) := by
  cases value with
  | string t => exact .bind (.bytesOf t) fun _ => .pure _
  | array a => exact .look (fun _ _ _ _ _ _ => rfl) fun _ => .pure _
  | _ => exact .pure _

theorem inputless_callRest (value : Value) : Inputless traced (callRest value) := by
  cases value with
  | string t => exact .bind (.bytesOf t) fun _ => .pure _
  | array a =>
      refine .look (fun _ _ _ _ _ _ => rfl) fun m => ?_
      dsimp only
      split
      · exact .pure _
      · exact .newArray _
  | _ => exact .pure _

theorem inputless_callPush (container value : Value) :
    Inputless traced (callPush container value) := by
  cases container with
  | string s =>
      cases value with
      | string t => exact .bind (.bytesOf s) fun _ => .bind (.bytesOf t) fun _ => .pure _
      | _ => exact .pure _
  | array a => exact .look (fun _ _ _ _ _ _ => rfl) fun _ => .newArray _
  | _ => exact .pure _

theorem inputless_callAlloc (count fill : Value) : Inputless traced (callAlloc count fill) := by
  cases count with
  | integer n =>
      dsimp only [callAlloc]
      split
      · exact .pure _
      · split
        · exact .halt _
        · exact .newArray _
  | _ => exact .pure _

theorem inputless_callSet (array index value : Value) :
    Inputless traced (callSet array index value) := by
  cases array with
  | array a =>
      cases index with
      | integer i =>
          refine .look (fun _ _ _ _ _ _ => rfl) fun m => ?_
          dsimp only
          split
          · exact .bind (.change fun _ _ _ _ _ => rfl) fun _ => .pure _
          · exact .pure _
      | _ => exact .pure _
  | _ => exact .pure _

theorem inputless_printEach (ending : Text) (values : List Value) :
    Inputless traced (printEach ending values) := by
  induction values with
  | nil => exact .pure _
  | cons value values ih =>
      exact .bind (.display value) fun _ => .bind (.change fun _ _ _ _ _ => rfl) fun _ => ih

/-- The four ways to read. -/
inductive IsReader : (Input → Reading) → Prop
  | line : IsReader Input.readLine
  | word : IsReader Input.readWord
  | char : IsReader Input.readChar
  | all : IsReader Input.readAll

/-- A call leaves the input and the trace alone, or does nothing but read. -/
theorem inputless_or_reads (traced : Prop) (b : Builtin) (arguments : List Value) :
    Inputless traced (b.call arguments) ∨
      ∃ read, IsReader read ∧ b.call arguments = b.takeInput read := by
  have performed : Inputless traced (b.perform arguments) ∨
      ∃ read, IsReader read ∧ b.perform arguments = b.takeInput read := by
    unfold perform
    split
    · exact .inl (inputless_callLen _)
    · exact .inl (inputless_callFirst _)
    · exact .inl (inputless_callLast _)
    · exact .inl (inputless_callRest _)
    · exact .inl (inputless_callPush _ _)
    · exact .inl (inputless_callAlloc _ _)
    · exact .inl (inputless_callSet _ _ _)
    · exact .inl (inputless_printEach _ _)
    · exact .inl (inputless_printEach _ _)
    · exact .inr ⟨_, .line, rfl⟩
    · exact .inr ⟨_, .word, rfl⟩
    · exact .inr ⟨_, .char, rfl⟩
    · exact .inr ⟨_, .all, rfl⟩
    · exact .inl (.pure _)
  unfold call
  split
  · exact performed
  · split
    · exact performed
    · exact .inl (.pure _)

theorem nameless_takeInput (b : Builtin) (read : Input → Reading) :
    Nameless (b.takeInput read) := by
  refine .look (fun _ _ _ _ _ => rfl) fun m => .bind (.change fun _ _ _ _ => rfl) fun _ => ?_
  dsimp only
  split
  · exact .pure _
  · split
    · exact .bind (.traceLine _) fun _ => .pure _
    · exact .bind (.halt _) fun _ => .pure _

theorem nameless_call (b : Builtin) (arguments : List Value) : Nameless (b.call arguments) := by
  obtain inputless | ⟨read, -, same⟩ := b.inputless_or_reads True arguments
  · exact inputless.nameless
  · rw [same]
    exact nameless_takeInput b read

end Builtin

end Script
