import Mathlib.Data.List.Forall2
import Mathlib.Data.Nat.Digits.Defs
import Script.Proofs.Arithmetic
import Script.Proofs.ArrayGraph
import Script.Proofs.CloseLayout
import Script.Report

/-!
# Data that is printed reads back

Data are integers, Booleans, nil and arrays of data, nested to any finite depth. A value of a
machine is data if it unfolds to such a tree; arrays may be shared, as only a cycle never ends. The
readable form of such a value is an expression, and a source that declares a name with it gives the
name a value that unfolds to the same tree.

A negative integer is read as the negation of a number. The number that belongs to the smallest
integer is out of range and brought back to that integer, which is its own negation.
-/

namespace Script

/-- What values without functions, failures and strings are made of. -/
inductive Data where
  | integer (value : Int) (low : -0x8000000000000000 ≤ value) (high : value < 0x8000000000000000)
  | boolean (value : Bool)
  | nil
  | array (elements : List Data)

/-- Another machine has the arrays of a machine, as they are, and the same scopes. -/
structure Machine.Extends (m m' : Machine) : Prop where
  arrays {id : ArrayId} {elements : Array Value} :
    m.arrays[id]? = some elements → m'.arrays[id]? = some elements
  scopes : m'.scopes = m.scopes

namespace Machine.Extends
variable {m m' m'' : Machine}

theorem refl (m : Machine) : m.Extends m := ⟨id, rfl⟩

theorem trans (h : m.Extends m') (h' : m'.Extends m'') : m.Extends m'' :=
  ⟨h'.arrays ∘ h.arrays, h'.scopes.trans h.scopes⟩

end Machine.Extends

namespace Data

/-- Whether data is what a value of a machine unfolds to. Two values have the same structure if they
unfold to the same data. -/
inductive Describes (m : Machine) : Data → Value → Prop
  | integer {n : Int} {low : -0x8000000000000000 ≤ n} {high : n < 0x8000000000000000} :
      Describes m (.integer n low high) (.integer n)
  | boolean {b : Bool} : Describes m (.boolean b) (.boolean b)
  | nil : Describes m .nil .nil
  | array {ds : List Data} {id : ArrayId} {elements : Array Value} :
      m.arrays[id]? = some elements → List.Forall₂ (Describes m) ds elements.toList →
      Describes m (.array ds) (.array id)

mutual

def written : Data → Text
  | integer n _ _ => Text.ofInt n
  | boolean b => if b then text "true" else text "false"
  | nil => text "nil"
  | array ds => text "[" ++ Text.join (text ", ") (writtenAll ds) ++ text "]"
termination_by structural d => d

def writtenAll : List Data → List Text
  | [] => []
  | d :: ds => d.written :: writtenAll ds
termination_by structural ds => ds

end

mutual

/-- The expression that the readable form of data is read as. -/
def expr : Data → Expr
  | integer (.ofNat n) _ _ => .literal (.integer n)
  | integer (.negSucc n) _ _ => .unary .negate (.literal (.integer ↑(n + 1))) .nowhere
  | boolean b => .literal (.boolean b)
  | nil => .literal .nil
  | array ds => .array (exprs ds)
termination_by structural d => d

def exprs : List Data → List Expr
  | [] => []
  | d :: ds => d.expr :: exprs ds
termination_by structural ds => ds

end

theorem induction {P : Data → Prop} (integer : ∀ n low high, P (.integer n low high))
    (boolean : ∀ b, P (.boolean b)) (nil : P .nil)
    (array : ∀ ds, (∀ d ∈ ds, P d) → P (.array ds)) (d : Data) : P d := by
  refine @Data.rec P (fun ds => ∀ d ∈ ds, P d) integer boolean nil array ?_ ?_ d
  · simp
  · exact fun d ds first others => List.forall_mem_cons.mpr ⟨first, others⟩

@[simp] theorem writtenAll_eq (ds : List Data) : writtenAll ds = ds.map written := by
  induction ds with
  | nil => rfl
  | cons d ds ih => rw [writtenAll, ih, List.map_cons]

@[simp] theorem exprs_eq (ds : List Data) : exprs ds = ds.map expr := by
  induction ds with
  | nil => rfl
  | cons d ds ih => rw [exprs, ih, List.map_cons]

/-! ### Values that are data -/

namespace Describes
variable {m m' : Machine} {d : Data} {v : Value} {a b : ArrayId}

theorem exists_of_mem {ds : List Data} {vs : List Value} (h : List.Forall₂ (Describes m) ds vs)
    (mem : v ∈ vs) : ∃ d ∈ ds, d.Describes m v := by
  induction h with
  | nil => cases mem
  | @cons d w ds vs first _ ih =>
      rcases List.mem_cons.mp mem with rfl | mem
      · exact ⟨d, List.mem_cons_self, first⟩
      · obtain ⟨d', inside, described⟩ := ih mem
        exact ⟨d', List.mem_cons_of_mem d inside, described⟩

theorem exists_array (h : d.Describes m (.array a)) : ∃ ds, d = .array ds := by
  cases h with
  | array _ _ => exact ⟨_, rfl⟩

theorem lt_size (h : d.Describes m (.array a)) : a < m.arrays.size := by
  cases h with
  | array found _ => exact (Array.getElem?_eq_some_iff.mp found).1

/-- The elements of an array that is data are data. -/
theorem of_points {ds : List Data} (h : (Data.array ds).Describes m (.array a))
    (points : m.Points a b) : ∃ d ∈ ds, d.Describes m (.array b) := by
  cases h with
  | @array _ _ elements found all =>
      rw [Machine.Points, Machine.elements, found, Option.getD_some, ← Array.mem_toList_iff]
        at points
      exact exists_of_mem all points

/-- A tree does not contain itself, so an array that is data lies on no cycle. -/
theorem not_transGen (h : d.Describes m (.array a)) : ¬Relation.TransGen m.Points a a := by
  induction d using Data.induction generalizing a with
  | array ds ih =>
      intro cycle
      obtain ⟨b, points, path⟩ := Relation.TransGen.head'_iff.mp cycle
      obtain ⟨d, mem, described⟩ := h.of_points points
      exact ih d mem described (.tail' path points)
  | _ => cases h

/-- All arrays on a path from an array that is data are data. -/
theorem of_isChain (h : d.Describes m (.array a)) {path : List ArrayId}
    (chain : (a :: path).IsChain m.Points) :
    ∀ b ∈ a :: path, ∃ d : Data, d.Describes m (.array b) := by
  induction path generalizing a d with
  | nil => simpa using ⟨d, h⟩
  | cons b path ih =>
      obtain ⟨points, chain⟩ := List.isChain_cons_cons.mp chain
      obtain ⟨ds, rfl⟩ := h.exists_array
      obtain ⟨d', -, described⟩ := h.of_points points
      exact List.forall_mem_cons.mpr ⟨⟨.array ds, h⟩, ih described chain⟩

theorem mapM_written {f : Value → Except Halt Text} {ds : List Data} {vs : List Value}
    (all : List.Forall₂ (Describes m) ds vs)
    (each : ∀ {d : Data} {v}, d.Describes m v →
      f v = .ok d.written ∨ f v = .error .recursion) :
    vs.mapM f = .ok (ds.map written) ∨ vs.mapM f = .error .recursion := by
  induction all with
  | nil => exact .inl rfl
  | cons first _ ih =>
      rw [List.mapM_cons]
      rcases each first with shown | deep
      · rcases ih with others | deep
        · exact .inl (by rw [shown, others]; rfl)
        · exact .inr (by rw [shown, deep]; rfl)
      · exact .inr (by rw [deep]; rfl)

/-- The readable form of a value that is data is found, unless there is too little depth. -/
theorem displayWithin (h : d.Describes m v) (depth : Nat) :
    m.displayWithin depth v = .ok d.written ∨ m.displayWithin depth v = .error .recursion := by
  induction depth generalizing d v with
  | zero =>
      cases h with
      | array _ _ => exact .inr rfl
      | _ => exact .inl rfl
  | succ depth ih =>
      cases h with
      | @array ds id elements found all =>
          rw [Machine.displayWithin, Machine.elements, found, Option.getD_some]
          rcases mapM_written all ih with shown | deep
          · refine .inl ?_
            rw [shown, written, writtenAll_eq]
            rfl
          · refine .inr ?_
            rw [deep]
            rfl
      | _ => exact .inl rfl

theorem display (h : d.Describes m v) : m.display v = .ok d.written := by
  refine (h.displayWithin m.arrays.size).resolve_right (Machine.display_ne_recursion ?_)
  rintro a path rfl chain b mem
  obtain ⟨d', described⟩ := h.of_isChain chain b mem
  exact ⟨described.lt_size, described.not_transGen⟩

theorem settled (h : d.Describes m v) : v.kind ≠ .error := by
  cases h <;> simp

theorem mono (h : d.Describes m v) (arrays : ∀ {id : ArrayId} {elements : Array Value},
    m.arrays[id]? = some elements → m'.arrays[id]? = some elements) : d.Describes m' v := by
  induction d using Data.induction generalizing v with
  | array ds ih =>
      cases h with
      | @array _ id elements found all =>
          refine .array (arrays found) ?_
          generalize elements.toList = vs at all
          induction all with
          | nil => exact .nil
          | @cons d v ds vs first others ihs =>
              obtain ⟨ih, rest⟩ := List.forall_mem_cons.mp ih
              exact .cons (ih first) (ihs rest)
  | _ =>
      cases h
      constructor

end Describes

/-! ### Layout -/

/-- Text that may follow an element of an array, or the value of a declaration. -/
def IsDelimiter (t : Text) : Prop :=
  ∃ c rest, t = c :: rest ∧ c ∈ text ",];"

theorem isFree_delimiter {w rest : Text} (some : w ≠ []) (delimiter : IsDelimiter rest) :
    IsFree w rest := by
  obtain ⟨c, rest, rfl, mem⟩ := delimiter
  intro d head
  obtain rfl := Option.some.inj head
  obtain ⟨first, more, rfl⟩ := List.exists_cons_of_ne_nil some
  have alone : fixedTerminals.all fun f => (text ",];").all fun c => !f.2.tail.contains c := by
    decide +kernel
  have plain : (text ",];").all fun c => !c.isNamePart && c != CodePoint.ofChar '/' := by decide
  have alone := fun f inside => List.all_eq_true.mp (List.all_eq_true.mp alone f inside) c mem
  have plain := List.all_eq_true.mp plain c mem
  simp only [Bool.not_eq_true', List.contains_eq_mem, decide_eq_false_iff_not] at alone
  simp only [Bool.and_eq_true, Bool.not_eq_true', bne_iff_ne] at plain
  refine joins_eq_false_iff.mpr ⟨fun _ => plain.1, fun f inside front => ?_, fun same => ?_⟩
  · obtain ⟨behind, same⟩ := front
    refine alone f inside ?_
    simp [← same]
  · have same : first :: more ++ [c] = text "/" ++ [CodePoint.ofChar '/'] := same
    exact plain.2 (List.singleton_inj.mp (List.append_inj_right' same rfl))

section Close
variable {rest : Text} {words : List Word}

/-- A mark that stands alone in an expression may be followed by anything. -/
theorem close_mark {m : Mark} (mem : m ∈ [.minus, .comma, .leftBracket, .rightBracket, .semicolon])
    (h : Close rest words) : Close (m.spelling ++ rest) (.mark m :: words) := by
  have single : ∀ m ∈ [Mark.minus, .comma, .leftBracket, .rightBracket, .semicolon],
      m.spelling.getLast?.any CodePoint.isNamePart = false ∧
        (∀ f ∈ fixedTerminals, m.spelling <+: f.2 → f.2 = m.spelling) ∧ m.spelling ≠ text "/" := by
    decide
  obtain ⟨plain, single, other⟩ := single m mem
  exact .word .nil (isProper_mark m) (isFree_of_single plain single other rest) h

theorem close_literal (value : Literal) (delimiter : IsDelimiter rest) (h : Close rest words) :
    Close (value.word.lexeme ++ rest) (value.word :: words) := by
  have proper := isProper_literal value
  have some : value.word.lexeme ≠ [] := by
    obtain ⟨c, more, lexeme, -, -⟩ := value.word.terminal.exists_of_spells proper.1
    rw [lexeme]
    exact List.cons_ne_nil c more
  exact .word .nil proper (isFree_delimiter some delimiter) h

theorem join_cons (separator t : Text) (ts : List Text) :
    Text.join separator (t :: ts) = t ++ ts.flatMap (separator ++ ·) := by
  induction ts generalizing t with
  | nil => simp [Text.join]
  | cons u ts ih =>
      have step : Text.join separator (t :: u :: ts) =
          t ++ separator ++ Text.join separator (u :: ts) := rfl
      rw [step, ih, List.flatMap_cons, List.append_assoc, List.append_assoc]

theorem close_further {ds : List Data}
    (each : ∀ d ∈ ds, ∀ {rest words}, IsDelimiter rest → Close rest words →
      Close (d.written ++ rest) (d.expr.words ++ words))
    (h : Close rest words) :
    Close ((ds.map written).flatMap (text ", " ++ ·) ++ (text "]" ++ rest))
        (furtherWords (ds.map expr) ++ .mark .rightBracket :: words) ∧
      IsDelimiter ((ds.map written).flatMap (text ", " ++ ·) ++ (text "]" ++ rest)) := by
  induction ds with
  | nil => exact ⟨close_mark (m := .rightBracket) (by simp) h, _, _, rfl, by decide⟩
  | cons d ds ih =>
      obtain ⟨first, others⟩ := List.forall_mem_cons.mp each
      obtain ⟨further, delimiter⟩ := ih others
      refine ⟨?_, _, _, rfl, by decide⟩
      have space : Gap (text " ") := .space rfl .nil
      have element := (first delimiter further).gap_append space
      have listed := close_mark (m := .comma) (by simp) element
      have comma : text ", " = Mark.comma.spelling ++ text " " := rfl
      rw [List.map_cons, List.flatMap_cons, List.map_cons, furtherWords, List.cons_append,
        List.append_assoc, List.append_assoc, List.append_assoc]
      exact listed

theorem close_written (d : Data) (delimiter : IsDelimiter rest) (h : Close rest words) :
    Close (d.written ++ rest) (d.expr.words ++ words) := by
  induction d using Data.induction generalizing rest words with
  | integer n low high =>
      cases n with
      | ofNat k => exact close_literal (.integer k) delimiter h
      | negSucc k =>
          exact close_mark (m := .minus) (by simp)
            (close_literal (.integer ↑(k + 1)) delimiter h)
  | boolean b =>
      cases b with
      | false => exact close_literal (.boolean false) delimiter h
      | true => exact close_literal (.boolean true) delimiter h
  | nil => exact close_literal .nil delimiter h
  | array ds ih =>
      have inside : Close (Text.join (text ", ") (ds.map written) ++ (text "]" ++ rest))
          (listedWords (ds.map expr) ++ .mark .rightBracket :: words) := by
        cases ds with
        | nil => exact close_mark (m := .rightBracket) (by simp) h
        | cons d ds =>
            obtain ⟨first, others⟩ := List.forall_mem_cons.mp ih
            obtain ⟨further, behind⟩ := close_further others h
            rw [List.map_cons, join_cons, List.append_assoc, List.map_cons, listedWords,
              List.append_assoc]
            exact first behind further
      have opened := close_mark (m := .leftBracket) (by simp) inside
      rw [written, writtenAll_eq, expr, exprs_eq, Expr.words, List.append_assoc, List.append_assoc,
        List.cons_append, List.append_assoc]
      exact opened

end Close

theorem isWritable_literal {n : Nat} (bound : n ≤ 0x8000000000000000) :
    (Literal.integer n).isWritable := by
  have length : (Nat.toDigits 10 n).length ≤ 19 :=
    Nat.toDigits_length 10 n 19 (by decide) (by omega)
  have digits : (Text.ofNat n).length ≤ maxDigits := by
    rw [Text.ofNat, List.length_map]
    exact length.trans (by decide)
  simp [Literal.isWritable, digits]

theorem isWritable_expr (d : Data) : d.expr.isWritable := by
  induction d using Data.induction with
  | integer n low high =>
      cases n with
      | ofNat k =>
          have high : (k : Int) < 0x8000000000000000 := high
          exact isWritable_literal (by omega)
      | negSucc k => exact isWritable_literal (by omega)
  | boolean b => rfl
  | nil => rfl
  | array ds ih =>
      rw [expr, exprs_eq, Expr.isWritable]
      induction ds with
      | nil => rfl
      | cons d ds ihs =>
          obtain ⟨first, others⟩ := List.forall_mem_cons.mp ih
          rw [List.map_cons, areWritable, first, ihs others]
          rfl

/-! ### Evaluation -/

section Evaluation
variable {f : Position → Position} {e : Expr}

theorem eq_of_relocate_literal {value : Literal} (h : e.relocate f = .literal value) :
    e = .literal value := by
  cases e with
  | literal _ => exact h
  | _ => cases h

theorem exists_of_relocate_unary {op : UnaryOp} {operand : Expr} {position : Position}
    (h : e.relocate f = .unary op operand position) :
    ∃ e' p, e = .unary op e' p ∧ e'.relocate f = operand := by
  cases e with
  | unary op' e' p =>
      obtain ⟨rfl, same, -⟩ := Expr.unary.inj h
      exact ⟨e', p, rfl, same⟩
  | _ => cases h

theorem exists_of_relocate_declare {d : Decl} {name : Name} {value : Expr}
    (h : d.relocate f = .stmt (.declare name value)) :
    ∃ e : Expr, d = .stmt (.declare name e) ∧ e.relocate f = value := by
  cases d with
  | function => cases h
  | stmt s =>
      cases s with
      | declare name' e =>
          obtain ⟨rfl, same⟩ := Stmt.declare.inj (Decl.stmt.inj h)
          exact ⟨e, rfl, same⟩
      | _ => cases h

theorem exists_of_relocate_array {elements : List Expr} (h : e.relocate f = .array elements) :
    ∃ es : List Expr, e = .array es ∧ es.map (Expr.relocate f) = elements := by
  cases e with
  | array es => exact ⟨es, rfl, (relocateExprs_eq f es).symm.trans (Expr.array.inj h)⟩
  | _ => cases h

theorem wrap_neg_wrap {n : Int} (low : -0x8000000000000000 ≤ n) (high : n < 0) :
    Integer64.wrap (-Integer64.wrap (-n)) = n := by
  rcases Int.lt_or_eq_of_le low with above | rfl
  · rw [Integer64.wrap_eq_self (n := -n) (by omega) (by omega), Int.neg_neg,
      Integer64.wrap_eq_self low (by omega)]
  · decide

theorem exists_evalAll {ds : List Data} {call : Caller} {env : Env}
    (each : ∀ d ∈ ds, ∀ {e : Expr} {m : Machine},
      e.relocate .forget = d.expr.relocate .forget → ∃ v m',
        evalExpr call env e m = .ok v m' ∧ d.Describes m' v ∧ m.Extends m')
    {es : List Expr}
    (same : es.map (Expr.relocate .forget) = (ds.map expr).map (Expr.relocate .forget))
    (m : Machine) : ∃ vs m', evalAll call env es m = .ok (.ok vs) m' ∧
      List.Forall₂ (Describes m') ds vs ∧ m.Extends m' := by
  induction ds generalizing es m with
  | nil =>
      obtain rfl := List.map_eq_nil_iff.mp same
      exact ⟨[], m, rfl, .nil, .refl m⟩
  | cons d ds ih =>
      obtain ⟨first, others⟩ := List.forall_mem_cons.mp each
      obtain ⟨e, es, rfl, here, same⟩ := List.map_eq_cons_iff.mp same
      obtain ⟨v, m₁, evaluated, described, extends₁⟩ := first here
      obtain ⟨vs, m₂, rest, all, extends₂⟩ := ih others same m₁
      refine ⟨v :: vs, m₂, ?_, .cons (described.mono extends₂.arrays) all, extends₁.trans extends₂⟩
      rw [evalAll, onValue_of_ok evaluated described.settled]
      exact bind_of_ok rest

/-- The expression of data has a value that is this data, wherever it is evaluated. -/
theorem exists_evalExpr (d : Data) {e : Expr} (same : e.relocate .forget = d.expr.relocate .forget)
    (call : Caller) (env : Env) (m : Machine) : ∃ v m',
      evalExpr call env e m = .ok v m' ∧ d.Describes m' v ∧ m.Extends m' := by
  induction d using Data.induction generalizing e m with
  | integer n low high =>
      cases n with
      | ofNat k =>
          obtain rfl := eq_of_relocate_literal same
          refine ⟨_, m, rfl, ?_, .refl m⟩
          rw [Literal.value, Integer64.wrap_eq_self (n := k) low high]
          exact .integer
      | negSucc k =>
          obtain ⟨operand, p, rfl, number⟩ := exists_of_relocate_unary same
          obtain rfl := eq_of_relocate_literal number
          have number : evalExpr call env (.literal (.integer ↑(k + 1))) m =
              .ok (.integer (Integer64.wrap ↑(k + 1))) m := rfl
          obtain ⟨t, evaluated⟩ := exists_evalExpr_negate number p
          refine ⟨_, _, evaluated, ?_, ⟨id, rfl⟩⟩
          have negated : -Int.negSucc k = ↑(k + 1) := rfl
          rw [← negated, wrap_neg_wrap low (Int.negSucc_lt_zero k)]
          exact .integer
  | boolean b =>
      obtain rfl := eq_of_relocate_literal same
      exact ⟨_, m, rfl, .boolean, .refl m⟩
  | nil =>
      obtain rfl := eq_of_relocate_literal same
      exact ⟨_, m, rfl, .nil, .refl m⟩
  | array ds ih =>
      rw [expr, exprs_eq, Expr.relocate, relocateExprs_eq] at same
      obtain ⟨es, rfl, listed⟩ := exists_of_relocate_array same
      obtain ⟨vs, m₁, evaluated, all, extends₁⟩ :=
        exists_evalAll (fun d mem _ m here => ih d mem here m) listed m
      let made := m₁.allocate vs.toArray
      have extends₂ : m₁.Extends made := by
        refine ⟨fun {id elements} found => ?_, rfl⟩
        obtain ⟨lt, same⟩ := Array.getElem?_eq_some_iff.mp found
        exact (Array.getElem?_push_lt lt).trans (congrArg some same)
      have described : (Data.array ds).Describes made (.array m₁.arrays.size) := by
        have found : made.arrays[m₁.arrays.size]? = some vs.toArray := Array.getElem?_push_size
        refine .array found ?_
        exact all.imp fun d v inside => inside.mono extends₂.arrays
      refine ⟨.array m₁.arrays.size, made, ?_, described, extends₁.trans extends₂⟩
      rw [evalExpr]
      exact bind_of_ok evaluated

end Evaluation

end Data

namespace Program

theorem run_declare {e : Expr} {budget : Budget} {m m' : Machine} {v : Value} (name : Name)
    (evaluated : evalExpr budget.caller Machine.globalEnv e m = .ok v m')
    (settled : v.kind ≠ .error) :
    Program.run budget [.stmt (.declare name e)] m =
      .ok none { m' with scopes := m'.scopes.define Machine.globalScope name v } := by
  have declared : execStmt budget.caller budget.rounds Machine.globalEnv (.declare name e) m =
      .ok .normal { m' with scopes := m'.scopes.define Machine.globalScope name v } := by
    rw [execStmt, onValue_of_ok evaluated settled]
    rfl
  have body : execBody budget.caller budget.rounds Machine.globalEnv [.stmt (.declare name e)] m =
      .ok .normal { m' with scopes := m'.scopes.define Machine.globalScope name v } := by
    rw [execBody]
    exact bind_of_ok declared
  exact bind_of_ok body

theorem close_declaration (d : Data) : Close (text "var r = " ++ d.written ++ text ";")
    (bodyWords [.stmt (.declare (text "r") d.expr)]) := by
  have space : Gap (text " ") := .space rfl .nil
  have apart (w t : Text) : IsFree w (text " " ++ t) :=
    isFree_of_isApart w (show CodePoint.isSpace 0x20 from rfl)
  have writable : Name.isWritable (text "r") := by decide
  have semicolon : Close (text ";") [.mark .semicolon] :=
    Data.close_mark (m := .semicolon) (by simp) (.done .nil)
  have value := (d.close_written ⟨_, _, rfl, by decide⟩ semicolon).gap_append space
  have equal := Close.word space (isProper_mark .equal) (apart _ _) value
  have named := Close.word space (isProper_name writable) (apart _ _) equal
  have declared := Close.word .nil (isProper_keyword .var_) (apart _ _) named
  have words : bodyWords [.stmt (.declare (text "r") d.expr)] =
      .keyword .var_ :: .name (text "r") :: .mark .equal ::
        (d.expr.words ++ [.mark .semicolon]) := by
    rw [bodyWords, bodyWords, Decl.words, Stmt.words, List.append_nil]
  rw [words, List.append_assoc]
  exact declared

/-- Data that is printed reads back: a source that declares a name with the readable form of a value
that is data gives it a value with the same structure. -/
theorem run_displayed [CharacterNames] {m : Machine} {v : Value} {d : Data} (h : d.Describes m v) :
    ∃ shown, m.display v = .ok shown ∧ ∀ (budget : Budget) (input : Input) (trace : Trace),
      ∃ m' v', (Machine.initial input trace).runSource budget
          (text "var r = " ++ shown ++ text ";") = (.finished, m') ∧
        m'.scopes.lookup? Machine.globalEnv (text "r") = some v' ∧ d.Describes m' v' := by
  refine ⟨d.written, h.display, fun budget input trace => ?_⟩
  have writable : Program.isWritable [.stmt (.declare (text "r") d.expr)] := by
    have name : Name.isWritable (text "r") := by decide
    rw [isWritable, isWritableBody, Decl.isWritable, Stmt.isWritable, name, d.isWritable_expr]
    rfl
  obtain ⟨read, parsed, same⟩ := parse_close writable (close_declaration d)
  obtain ⟨statement, _, rfl, declared, rest⟩ := List.map_eq_cons_iff.mp same
  obtain rfl := List.map_eq_nil_iff.mp rest
  obtain ⟨e, rfl, value⟩ := Data.exists_of_relocate_declare declared
  obtain ⟨v', m', evaluated, described, extends_⟩ :=
    d.exists_evalExpr value budget.caller Machine.globalEnv (Machine.initial input trace)
  have run := run_declare (text "r") evaluated described.settled
  have loaded : load (text "var r = " ++ d.written ++ text ";") =
      .ok [.stmt (.declare (text "r") e)] := by
    rw [load, parsed]
    rfl
  let bound := m'.scopes.define Machine.globalScope (text "r") v'
  refine ⟨{ m' with scopes := bound }, v', ?_, ?_, ?_⟩
  · rw [Machine.runSource, loaded]
    simp only [run, bound]
  · simp only [bound, extends_.scopes]
    rfl
  · exact described.mono id

/-- An array that holds another one twice, with the smallest integer in it. -/
theorem run_displayed_shared :
    letI : CharacterNames := .ofList []
    let m : Machine := { Machine.initial (.ofText []) (.empty false 3) with
      arrays := #[#[.integer (-0x8000000000000000), .boolean true], #[.array 0, .nil, .array 0]] }
    let inner : Data :=
      .array [.integer (-0x8000000000000000) (by decide) (by decide), .boolean true]
    let source := text
      "var r = [[-9223372036854775808, true], nil, [-9223372036854775808, true]];"
    (Data.array [inner, .nil, inner]).Describes m (.array 1) ∧
      ∀ (budget : Budget) (input : Input) (trace : Trace), ∃ m' v',
        (Machine.initial input trace).runSource budget source = (.finished, m') ∧
          m'.scopes.lookup? Machine.globalEnv (text "r") = some v' ∧
          (Data.array [inner, .nil, inner]).Describes m' v' := by
  intro m inner source
  let _ : CharacterNames := .ofList []
  have first : inner.Describes m (.array 0) :=
    .array rfl (.cons .integer (.cons .boolean .nil))
  have described : (Data.array [inner, .nil, inner]).Describes m (.array 1) :=
    .array rfl (.cons first (.cons .nil (.cons first .nil)))
  obtain ⟨shown, display, run⟩ := run_displayed described
  have readable : m.display (.array 1) =
      .ok (text "[[-9223372036854775808, true], nil, [-9223372036854775808, true]]") := by rfl
  obtain rfl := Except.ok.inj (readable.symm.trans display)
  have same : text "var r = " ++
      text "[[-9223372036854775808, true], nil, [-9223372036854775808, true]]" ++ text ";" =
        source := by
    decide +kernel
  rw [same] at run
  exact ⟨described, run⟩

end Program

end Script
