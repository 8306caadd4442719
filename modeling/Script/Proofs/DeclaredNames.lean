import Script.Proofs.ReservedWords
import Script.Proofs.ScopeNames

/-!
# Using declared names

Every word can be declared as a name, and once it is bound in a scope, the name evaluates there to
the value that it is bound to and can be assigned another one. But the words that are reserved where
an operand or a statement may start are not read as names there, so a few names that can be declared
cannot be used.
-/

namespace Script

/-- A name is bound to a value in a scope. -/
def Machine.Binds (m : Machine) (id : ScopeId) (name : Name) (value : Value) : Prop :=
  (m.scopes.bindings id).get? name = some value

namespace Bindings

/-- Of the pairs that are bound one after the other, the last with a name counts. -/
theorem get?_foldl_put_of_notMem {pairs : List (Name × Value)} {b : Bindings} {name : Name}
    (other : name ∉ pairs.map Prod.fst) :
    get? (pairs.foldl (fun b (name, value) => b.put name value) b) name = b.get? name := by
  induction pairs generalizing b with
  | nil => rfl
  | cons pair pairs ih =>
      obtain ⟨differs, others⟩ := not_or.mp (fun mem => other (List.mem_cons.mpr mem))
      rw [List.foldl_cons, ih others, get?_put_of_ne b pair.2 differs]

theorem get?_ofList {pairs : List (Name × Value)} {name : Name} {value : Value}
    (nodup : (pairs.map Prod.fst).Nodup) (mem : (name, value) ∈ pairs) :
    get? (ofList pairs) name = some value := by
  obtain ⟨front, back, rfl⟩ := List.append_of_mem mem
  rw [List.map_append, List.map_cons] at nodup
  have others := (List.nodup_cons.mp (List.nodup_append.mp nodup).2.1).1
  rw [ofList, List.foldl_append, List.foldl_cons, get?_foldl_put_of_notMem others,
    get?_put_self]

end Bindings

namespace Machine
variable {m m' : Machine} {id : ScopeId} {env : Env} {name : Name} {value : Value}

theorem Binds.lt (binds : m.Binds id name value) : id < m.scopes.size := by
  by_contra outside
  rw [Binds, Scopes.bindings, Array.getElem?_eq_none (Nat.le_of_not_lt outside)] at binds
  cases binds

theorem Binds.find? (binds : m.Binds id name value) :
    m.scopes.find? name (id :: env) = some id :=
  Scopes.find?_cons_of_some binds env

theorem Binds.resolve (binds : m.Binds id name value) (env : Env) (position : Position) :
    resolve (id :: env) name position m = .ok value m := by
  have found : m.scopes.lookup? (id :: env) name = some value := by
    rw [Scopes.lookup?, binds.find?]
    exact binds
  exact Eval.resolve_of_some found position

theorem Binds.exists_of_continues (binds : m.Binds id name value)
    (later : m.scopes.Continues m'.scopes) : ∃ value', m'.Binds id name value' := by
  have mem : name ∈ m.scopes.names id := by
    obtain ⟨front, back, same, -⟩ := List.lookup_eq_some_iff.mp binds
    rw [Scopes.names, same]
    simp
  obtain ⟨binding, bound, rfl⟩ := List.mem_map.mp ((later.kept id binds.lt).subset mem)
  refine Option.isSome_iff_exists.mp (List.lookup_isSome_iff.mpr ?_)
  exact ⟨binding, bound, beq_self_eq_true _⟩

end Machine

/-! ### What is read -/

open Unfinished in
/-- How a word is read. Where a name is declared, it is one. Where an operand may start, it is one
unless it stands for a literal, and what is neither called nor assigned is the value of the name. At
the start of a statement, where all keywords are reserved but `else` only behind a brace, it is the
variable of an assignment unless it is reserved, and a reserved word cannot be assigned. -/
structure ReadAsName [CharacterNames] (n : Name) : Prop where
  declared {s : Unfinished} {control : Control} : s.control.declared? n = some control →
    s.ReadsWord n fun _ => s.goTo control
  operand {s : Unfinished} {goal : Goal} {frames : List Frame} :
    s.control = .operand goal frames → (∀ l, (n, l) ∉ literalWords) →
    s.ReadsWord n fun p => s.goTo (.afterName goal frames n p)
  literal {s : Unfinished} {goal : Goal} {frames : List Frame} {l : Literal} :
    s.control = .operand goal frames → (n, l) ∈ literalWords →
    s.ReadsWord n fun p => s.goTo (.afterOperand goal frames ⟨.literal l, p⟩)
  value (s : Unfinished) (goal : Goal) (frames : List Frame) (p : Position) (token : Token) :
    token.terminal ≠ .mark .leftParen → token.terminal ≠ .mark .equal →
    (s.goTo (.afterName goal frames n p)).feed token =
      (s.goTo (.afterOperand goal frames ⟨.name n p, p⟩)).feed token
  reserved {s : Unfinished} : s.StartsStatement →
    (s.Reserves n ↔ ∃ k : Keyword, k.spelling = n ∧ (k = .else_ → s.isAfterBrace))
  statement {s : Unfinished} : s.StartsStatement → ¬s.Reserves n →
    s.ReadsWord n fun p => s.settled.goTo (.afterName .eval [] n p)
  assigned {s : Unfinished} {gap between rest : Text} (last p : Position) : s.StartsStatement →
    ¬s.Reserves n → Gap gap → Gap between → rest.head? ≠ some (CodePoint.ofChar '=') →
    let here := p.afterText gap
    let equal := (here.afterText n).afterText between
    s.read last ⟨gap ++ (n ++ (between ++ CodePoint.ofChar '=' :: rest)), p⟩ =
      (s.settled.goTo (.operand (.assign n here) [])).read equal
        ⟨rest, equal.after (CodePoint.ofChar '=')⟩
  refused {s : Unfinished} {gap between rest : Text} (last p : Position) : s.StartsStatement →
    s.Reserves n → Gap gap → Gap between → rest.head? ≠ some (CodePoint.ofChar '=') →
    ∃ token, s.read last ⟨gap ++ (n ++ (between ++ CodePoint.ofChar '=' :: rest)), p⟩ =
      .error (.unexpectedToken token)

theorem readAsName_of_spells [CharacterNames] {n : Name} (spelled : Terminal.name.spells n) :
    ReadAsName n where
  declared := Unfinished.readsWord_declared spelled
  operand here := Unfinished.readsWord_operand here spelled
  literal here word := Unfinished.readsWord_literal here word
  value s _ _ p _ := s.feed_afterName_of_ne p
  reserved := Unfinished.reserves_iff_of_startsStatement
  statement starts := Unfinished.readsWord_statement starts spelled
  assigned last p starts free hgap hbetween single :=
    Unfinished.read_assigned hgap hbetween single last p starts spelled free
  refused last p starts reserved hgap hbetween single :=
    Unfinished.read_reserved hgap hbetween single last p starts reserved

/-! ### What is evaluated -/

/-- The value of a call of which the body ends with a completion. -/
def Completion.called : Completion → Value
  | normal => .nil
  | returned value => value
  | aborted failure => .error failure

/-- A call looks the function up, makes the scope and then executes the body in it. -/
theorem callFunction_of_found {m : Machine} {f : Closure} {id : FunctionId}
    {arguments : List Value} (found : m.functions[id]? = some f)
    (fits : arguments.length = f.parameters.length) (rounds depth : Nat) (position : Position) :
    callFunction rounds (depth + 1) id arguments position m =
      (Completion.called <$> Eval.indented (execBody (callFunction rounds depth) rounds
        (m.scopes.size :: f.env) f.body)) { m with scopes :=
          (m.scopes.make f.name (Bindings.ofList (f.parameters.zip arguments))).2 } := by
  have looked : Eval.closure? id m = .ok (some f) m := congrArg (EStateM.Result.ok · m) found
  rw [callFunction]
  refine (bind_of_ok looked).trans ?_
  dsimp only
  rw [if_pos fits, map_eq_pure_bind]
  refine (bind_of_ok rfl).trans (congrFun (bind_congr fun completion => ?_) _)
  cases completion <;> rfl

/-- How a name behaves in a scope. A variable is bound to the value of its initializer, a function
to itself, and a parameter to its argument in the scope of the called body. The name then evaluates
to the value that it is bound to, and an assignment binds it again in the same scope. -/
structure BehavesAsName (budget : Budget) (n : Name) : Prop where
  variable_ {m m' : Machine} {id : ScopeId} {env : Env} {e : Expr} {v : Value} :
    id < m.scopes.size → evalExpr budget.caller (id :: env) e m = .ok v m' → v.kind ≠ .error →
    ∃ m'', execStmt budget.caller budget.rounds (id :: env) (.declare n e) m = .ok .normal m'' ∧
      m''.Binds id n v
  function {m : Machine} {id : ScopeId} (env : Env) (parameters : List Name) (body : List Decl) :
    id < m.scopes.size →
    ∃ m', execDecl budget.caller budget.rounds (id :: env) (.function n parameters body) m =
        .ok .normal m' ∧ m'.Binds id n (.function m.functions.size)
  parameter {m : Machine} {f : Closure} {id : FunctionId} {arguments : List Value} {v : Value}
    (depth : Nat) (position : Position) : m.functions[id]? = some f → f.parameters.Nodup →
    arguments.length = f.parameters.length → (n, v) ∈ f.parameters.zip arguments →
    ∃ m' : Machine, m'.Binds m.scopes.size n v ∧
      callFunction budget.rounds (depth + 1) id arguments position m =
        (Completion.called <$> Eval.indented (execBody (callFunction budget.rounds depth)
          budget.rounds (m.scopes.size :: f.env) f.body)) m'
  value {m : Machine} {id : ScopeId} {v : Value} (env : Env) (p : Position) : m.Binds id n v →
    evalExpr budget.caller (id :: env) (.name n p) m = .ok v m
  assigned {m m' : Machine} {id : ScopeId} {env : Env} {e : Expr} {v w : Value} (p : Position) :
    m.Binds id n v → evalExpr budget.caller (id :: env) e m = .ok w m' → w.kind ≠ .error →
    ∃ m'', execStmt budget.caller budget.rounds (id :: env) (.assign n e p) m = .ok .normal m'' ∧
      Scopes.Defines id n w m'.scopes m''.scopes ∧ m''.Binds id n w

theorem behavesAsName (budget : Budget) (n : Name) : BehavesAsName budget n where
  variable_ {m m' id env e v} lt he settled := by
    have grows := grows_evalExpr budget (id :: env) m e
    rw [he] at grows
    rw [execStmt, onValue_of_ok he settled]
    exact ⟨_, rfl, (Scopes.defines_define (Nat.lt_of_lt_of_le lt grows.size) n v).bound⟩
  function {m id} env parameters body lt :=
    ⟨_, rfl, (Scopes.defines_define lt n (.function m.functions.size)).bound⟩
  parameter {m f id arguments v} depth position found nodup fits mem := by
    have names : (f.parameters.zip arguments).map Prod.fst = f.parameters :=
      List.map_fst_zip (Nat.le_of_eq fits.symm)
    have bound : Bindings.get? (Bindings.ofList (f.parameters.zip arguments)) n = some v :=
      Bindings.get?_ofList (names.symm ▸ nodup) mem
    refine ⟨_, ?_, callFunction_of_found found fits budget.rounds depth position⟩
    rw [Machine.Binds, Scopes.bindings_make, if_pos rfl, bound]
  value env p binds := binds.resolve env p
  assigned {m m' id env e v w} p binds he settled := by
    have grows := grows_evalExpr budget (id :: env) m e
    rw [he] at grows
    obtain ⟨old, binds'⟩ : ∃ old, m'.Binds id n old := binds.exists_of_continues grows.toContinues
    have defines := Scopes.defines_define binds'.lt n w
    rw [execStmt, onValue_of_ok he settled]
    exact ⟨_, bind_of_ok (Eval.assign_of_found binds'.find? w), defines, defines.bound⟩

/-- Every word can be declared, and a declared name that is read as such in an expression or at the
start of an assignment has the value that it is bound to, or is bound again. Which words are read as
names depends on the place: the words of literals are none in expressions, and no keyword is one at
the start of a statement, except that `else` is one unless a brace stands directly before it. -/
theorem declared_names [CharacterNames] {n : Name} (spelled : Terminal.name.spells n) :
    ReadAsName n ∧ ∀ budget, BehavesAsName budget n :=
  ⟨readAsName_of_spells spelled, fun budget => behavesAsName budget n⟩

theorem declared_names_if :
    letI : CharacterNames := .ofList []
    Terminal.name.spells (text "if") ∧ ReadAsName (text "if") ∧
      ∀ budget, BehavesAsName budget (text "if") :=
  letI : CharacterNames := .ofList []
  ⟨by decide, declared_names (by decide)⟩

/-- Not every declared name can be used: the value of `true` is not what it is bound to. -/
theorem not_forall_declared_names :
    letI : CharacterNames := .ofList []
    ¬∀ n : Name, Terminal.name.spells n →
      (∃ program m,
        Program.parse (text "var " ++ n ++ text " = 1; var y = " ++ n ++ text ";") = .ok program ∧
        program.run .standard (.initial (.ofText []) (.empty false 0)) = .ok none m ∧
        m.Binds Machine.globalScope (text "y") (.integer 1)) ∧
      ∃ program, Program.parse (text "var " ++ n ++ text " = 1; " ++ n ++ text " = 2;") =
        .ok program := by
  let _ : CharacterNames := .ofList []
  intro all
  obtain ⟨⟨program, m, parsed, ran, binds⟩, -⟩ := all (text "true") (by decide)
  have read : Program.parse
      (text "var " ++ text "true" ++ text " = 1; var y = " ++ text "true" ++ text ";") =
        .ok [.stmt (.declare (text "true") (.literal (.integer 1))),
          .stmt (.declare (text "y") (.literal (.boolean true)))] := by cbv
  obtain rfl := Except.ok.inj (parsed.symm.trans read)
  obtain ⟨-, rfl⟩ := EStateM.Result.ok.inj ran
  have same : some (Value.boolean true) = some (.integer 1) := binds
  cases same

end Script
