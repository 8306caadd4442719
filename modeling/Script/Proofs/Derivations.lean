import Script.Proofs.NodePositions

/-!
# The tokens of a program

Which tokens make up each part of a program. Tokens are counted from zero, and a part is made up of
those from one index up to another one, the latter excluded. Every node of an expression has the
position of a certain token: a name or a call that of the name, a unary operator that of the
operator, a binary operator or an index that of the first token of its left operand. Parentheses
belong to the expression that they enclose, of which they change nothing; so they count for a node
of which that expression is the left operand, but not for the node that they enclose.

An expression has a level that says how tightly its operators bind, those inside of parentheses and
brackets apart: zero if they may be any, one to four if all binary ones bind at least as tightly as
those of that level, five if all are unary, and six if there are none.
-/

namespace Script

/-- The literal that a token stands for, if it stands for one and can be read. -/
def Token.literal? [CharacterNames] (token : Token) : Option Literal :=
  match token.terminal with
  | .number => (numberLiteral token.lexeme).toOption
  | .string => (stringLiteral token.lexeme).toOption
  | .keyword .true_ => some (.boolean true)
  | .keyword .false_ => some (.boolean false)
  | .keyword .nil_ => some .nil
  | _ => none

section Derivations
variable [CharacterNames] (tokens : List Token)

def Has (i : Nat) (terminal : Terminal) : Prop :=
  ∃ token, tokens[i]? = some token ∧ token.terminal = terminal

def Starts (i : Nat) (p : Position) : Prop :=
  ∃ token, tokens[i]? = some token ∧ token.position = p

mutual

/-- The tokens from `i` up to `j` are an expression of a level. -/
inductive ExprAt : (level i j : Nat) → Expr → Prop
  | literal {i : Nat} {token : Token} {value : Literal} :
      tokens[i]? = some token → token.literal? = some value → ExprAt 6 i (i + 1) (.literal value)
  | name {i : Nat} {name : Name} {p : Position} :
      tokens[i]? = some ⟨.name, name, p⟩ → ExprAt 6 i (i + 1) (.name name p)
  | call {i j : Nat} {callee : Name} {arguments : List Expr} {p : Position} :
      tokens[i]? = some ⟨.name, callee, p⟩ → Has tokens (i + 1) (.mark .leftParen) →
      ListAt (i + 2) j arguments → Has tokens j (.mark .rightParen) →
      ExprAt 6 i (j + 1) (.call callee arguments p)
  | array {i j : Nat} {elements : List Expr} :
      Has tokens i (.mark .leftBracket) → ListAt (i + 1) j elements →
      Has tokens j (.mark .rightBracket) → ExprAt 6 i (j + 1) (.array elements)
  -- parentheses change nothing in the expression, but from here on it starts with the parenthesis
  | group {i j : Nat} {e : Expr} :
      Has tokens i (.mark .leftParen) → ExprAt 0 (i + 1) j e → Has tokens j (.mark .rightParen) →
      ExprAt 6 i (j + 1) e
  | index {i j k : Nat} {target index : Expr} {p : Position} :
      ExprAt 6 i j target → Starts tokens i p → Has tokens j (.mark .leftBracket) →
      ExprAt 0 (j + 1) k index → Has tokens k (.mark .rightBracket) →
      ExprAt 6 i (k + 1) (.index target index p)
  | unary {i j : Nat} {op : UnaryOp} {operand : Expr} {p : Position} :
      Has tokens i (.mark op.mark) → Starts tokens i p → ExprAt 5 (i + 1) j operand →
      ExprAt 5 i j (.unary op operand p)
  -- operators of one level group to the left
  | binary {i j k : Nat} {op : BinaryOp} {left right : Expr} {p : Position} :
      ExprAt op.level i j left → Starts tokens i p → Has tokens j (.mark op.mark) →
      ExprAt (op.level + 1) (j + 1) k right → ExprAt op.level i k (.binary op left right p)
  | weaken {k l i j : Nat} {e : Expr} : k ≤ l → ExprAt l i j e → ExprAt k i j e

inductive ListAt : (i j : Nat) → List Expr → Prop
  | nil {i : Nat} : ListAt i i []
  | concat {i j k : Nat} {es : List Expr} {e : Expr} :
      ItemsAt i j es → ExprAt 0 j k e → ListAt i k (es ++ [e])

/-- The tokens are expressions with a comma behind each of them. -/
inductive ItemsAt : (i j : Nat) → List Expr → Prop
  | nil {i : Nat} : ItemsAt i i []
  | concat {i j k : Nat} {es : List Expr} {e : Expr} :
      ItemsAt i j es → ExprAt 0 j k e → Has tokens k (.mark .comma) →
      ItemsAt i (k + 1) (es ++ [e])

end

inductive NamesAt : (i j : Nat) → List Name → Prop
  | one {i : Nat} {name : Name} {p : Position} :
      tokens[i]? = some ⟨.name, name, p⟩ → NamesAt i (i + 1) [name]
  | concat {i j : Nat} {names : List Name} {name : Name} {p : Position} :
      NamesAt i j names → Has tokens j (.mark .comma) →
      tokens[j + 1]? = some ⟨.name, name, p⟩ → NamesAt i (j + 2) (names ++ [name])

/-- The tokens are what stands in front of the parameters of a function. -/
def FunctionAt (i j : Nat) (name : Name) : Prop :=
  Has tokens i (.keyword .fun_) ∧ (∃ p, tokens[i + 1]? = some ⟨.name, name, p⟩) ∧
    Has tokens (i + 2) (.mark .leftParen) ∧ j = i + 3

/-- The tokens are what stands in front of the body of a function. -/
inductive HeadAt : (i j : Nat) → Name → List Name → Prop
  | bare {i j : Nat} {name : Name} :
      FunctionAt tokens i j name → Has tokens j (.mark .rightParen) → HeadAt i (j + 1) name []
  | listed {i j k : Nat} {name : Name} {parameters : List Name} :
      FunctionAt tokens i j name → NamesAt tokens j k parameters →
      Has tokens k (.mark .rightParen) → HeadAt i (k + 1) name parameters

mutual

inductive StmtAt : (i j : Nat) → Stmt → Prop
  | block {i j : Nat} {body : List Decl} : BlockAt i j body → StmtAt i j (.block body)
  | declare {i j : Nat} {name : Name} {value : Expr} {p : Position} :
      Has tokens i (.keyword .var_) → tokens[i + 1]? = some ⟨.name, name, p⟩ →
      Has tokens (i + 2) (.mark .equal) → ExprAt tokens 0 (i + 3) j value →
      Has tokens j (.mark .semicolon) → StmtAt i (j + 1) (.declare name value)
  | assign {i j : Nat} {name : Name} {value : Expr} {p : Position} :
      tokens[i]? = some ⟨.name, name, p⟩ → Has tokens (i + 1) (.mark .equal) →
      ExprAt tokens 0 (i + 2) j value → Has tokens j (.mark .semicolon) →
      StmtAt i (j + 1) (.assign name value p)
  | eval {i j : Nat} {value : Expr} :
      ExprAt tokens 0 i j value → Has tokens j (.mark .semicolon) → StmtAt i (j + 1) (.eval value)
  | branch {i j k l : Nat} {condition : Expr} {body : List Decl} {otherwise : Otherwise} :
      Has tokens i (.keyword .if_) → ExprAt tokens 0 (i + 1) j condition → BlockAt j k body →
      OtherwiseAt k l otherwise → StmtAt i l (.branch condition (.block body) otherwise)
  | loop {i j k : Nat} {condition : Expr} {body : List Decl} :
      Has tokens i (.keyword .while_) → ExprAt tokens 0 (i + 1) j condition → BlockAt j k body →
      StmtAt i k (.loop condition (.block body))
  | leave {i : Nat} :
      Has tokens i (.keyword .return_) → Has tokens (i + 1) (.mark .semicolon) →
      StmtAt i (i + 2) (.return_ none)
  | return_ {i j : Nat} {value : Expr} :
      Has tokens i (.keyword .return_) → ExprAt tokens 0 (i + 1) j value →
      Has tokens j (.mark .semicolon) → StmtAt i (j + 1) (.return_ (some value))

/-- The tokens are what follows the body of a branch. -/
inductive OtherwiseAt : (i j : Nat) → Otherwise → Prop
  | nothing {i : Nat} : OtherwiseAt i i .nothing
  | block {i j : Nat} {body : List Decl} :
      Has tokens i (.keyword .else_) → BlockAt (i + 1) j body →
      OtherwiseAt i j (.stmt (.block body))
  | branch {i j : Nat} {condition : Expr} {body : Stmt} {otherwise : Otherwise} :
      Has tokens i (.keyword .else_) → StmtAt (i + 1) j (.branch condition body otherwise) →
      OtherwiseAt i j (.stmt (.branch condition body otherwise))

inductive DeclAt : (i j : Nat) → Decl → Prop
  | function {i j k : Nat} {name : Name} {parameters : List Name} {body : List Decl} :
      HeadAt tokens i j name parameters → BlockAt j k body →
      DeclAt i k (.function name parameters body)
  | stmt {i j : Nat} {s : Stmt} : StmtAt i j s → DeclAt i j (.stmt s)

inductive BlockAt : (i j : Nat) → List Decl → Prop
  | braces {i j : Nat} {body : List Decl} :
      Has tokens i (.mark .leftBrace) → BodyAt (i + 1) j body → Has tokens j (.mark .rightBrace) →
      BlockAt i (j + 1) body

inductive BodyAt : (i j : Nat) → List Decl → Prop
  | nil {i : Nat} : BodyAt i i []
  | concat {i j k : Nat} {body : List Decl} {d : Decl} :
      BodyAt i j body → DeclAt j k d → BodyAt i k (body ++ [d])

end

/-- A node has the position of the token that it begins with: a name, or an operator, or whatever
token begins the left operand or the target in front of an operator or a bracket. -/
inductive HeadedAt : Node → Prop
  | name {i : Nat} {name : Name} {p : Position} :
      tokens[i]? = some ⟨.name, name, p⟩ → HeadedAt (.name name p)
  | call {i : Nat} {callee : Name} {p : Position} :
      tokens[i]? = some ⟨.name, callee, p⟩ → Has tokens (i + 1) (.mark .leftParen) →
      HeadedAt (.call callee p)
  | assign {i : Nat} {name : Name} {p : Position} :
      tokens[i]? = some ⟨.name, name, p⟩ → Has tokens (i + 1) (.mark .equal) →
      HeadedAt (.assign name p)
  | unary {i : Nat} {op : UnaryOp} {p : Position} :
      Has tokens i (.mark op.mark) → Starts tokens i p → HeadedAt (.unary op p)
  | binary {i j : Nat} {op : BinaryOp} {left : Expr} {p : Position} :
      ExprAt tokens op.level i j left → Starts tokens i p → Has tokens j (.mark op.mark) →
      HeadedAt (.binary op p)
  | index {i j : Nat} {target : Expr} {p : Position} :
      ExprAt tokens 6 i j target → Starts tokens i p → Has tokens j (.mark .leftBracket) →
      HeadedAt (.index p)

/-! ### Unfinished programs -/

def OperandAt (level i j : Nat) (x : Operand) : Prop :=
  Starts tokens i x.start ∧ ExprAt tokens level i j x.expr

def ArmAt (i k : Nat) (arm : Arm) : Prop :=
  ∃ j, Has tokens i (.keyword .if_) ∧ ExprAt tokens 0 (i + 1) j arm.condition ∧
    BlockAt tokens j k arm.body

/-- The tokens are arms with `else` behind each of them. The arms are listed from the last one. -/
inductive ArmsAt : (i j : Nat) → List Arm → Prop
  | nil {i : Nat} : ArmsAt i i []
  | cons {i j k : Nat} {arm : Arm} {earlier : List Arm} :
      ArmsAt i j earlier → ArmAt tokens j k arm → Has tokens k (.keyword .else_) →
      ArmsAt i (k + 1) (arm :: earlier)

namespace Unfinished

/-- The tokens start a statement that goes on with an expression. -/
inductive GoalAt : (i j : Nat) → Goal → Prop
  | eval {i : Nat} : GoalAt i i .eval
  | declare {i : Nat} {name : Name} {p : Position} :
      Has tokens i (.keyword .var_) → tokens[i + 1]? = some ⟨.name, name, p⟩ →
      Has tokens (i + 2) (.mark .equal) → GoalAt i (i + 3) (.declare name)
  | assign {i : Nat} {name : Name} {p : Position} :
      tokens[i]? = some ⟨.name, name, p⟩ → Has tokens (i + 1) (.mark .equal) →
      GoalAt i (i + 2) (.assign name p)
  | return_ {i : Nat} : Has tokens i (.keyword .return_) → GoalAt i (i + 1) .return_
  | branch {i j : Nat} {earlier : List Arm} :
      ArmsAt tokens i j earlier → Has tokens j (.keyword .if_) →
      GoalAt i (j + 1) (.branch earlier)
  | loop {i : Nat} : Has tokens i (.keyword .while_) → GoalAt i (i + 1) .loop

/-- The tokens open constructs, of which the innermost one takes an operand of a level. Where an
operator takes another construct as an operand, that construct has the level it asks for. -/
inductive FramesAt : (level i j : Nat) → List Frame → Prop
  | nil {i : Nat} : FramesAt 0 i i []
  | unary {k i j : Nat} {op : UnaryOp} {p : Position} {frames : List Frame} :
      FramesAt k i j frames → Has tokens j (.mark op.mark) → Starts tokens j p →
      FramesAt 5 i (j + 1) (.unary op p :: frames)
  | binary {k i j l : Nat} {op : BinaryOp} {left : Operand} {frames : List Frame} :
      FramesAt k i j frames → k ≤ op.level → OperandAt tokens op.level j l left →
      Has tokens l (.mark op.mark) → FramesAt (op.level + 1) i (l + 1) (.binary op left :: frames)
  | group {k i j : Nat} {start : Position} {frames : List Frame} :
      FramesAt k i j frames → Has tokens j (.mark .leftParen) → Starts tokens j start →
      FramesAt 0 i (j + 1) (.group start :: frames)
  | index {k i j l : Nat} {target : Operand} {frames : List Frame} :
      FramesAt k i j frames → OperandAt tokens 6 j l target → Has tokens l (.mark .leftBracket) →
      FramesAt 0 i (l + 1) (.index target :: frames)
  | call {k i j l : Nat} {callee : Name} {p : Position} {arguments : List Expr}
      {frames : List Frame} :
      FramesAt k i j frames → tokens[j]? = some ⟨.name, callee, p⟩ →
      Has tokens (j + 1) (.mark .leftParen) → ItemsAt tokens (j + 2) l arguments.reverse →
      FramesAt 0 i l (.call callee p arguments :: frames)
  | array {k i j l : Nat} {start : Position} {elements : List Expr} {frames : List Frame} :
      FramesAt k i j frames → Has tokens j (.mark .leftBracket) → Starts tokens j start →
      ItemsAt tokens (j + 1) l elements.reverse → FramesAt 0 i l (.array start elements :: frames)

inductive OpenerAt : (i j : Nat) → Opener → Prop
  | block {i : Nat} : Has tokens i (.mark .leftBrace) → OpenerAt i (i + 1) .block
  | function {i j : Nat} {name : Name} {parameters : List Name} :
      HeadAt tokens i j name parameters → Has tokens j (.mark .leftBrace) →
      OpenerAt i (j + 1) (.function name parameters)
  | branch {i j k : Nat} {condition : Expr} {earlier : List Arm} :
      ArmsAt tokens i j earlier → Has tokens j (.keyword .if_) →
      ExprAt tokens 0 (j + 1) k condition → Has tokens k (.mark .leftBrace) →
      OpenerAt i (k + 1) (.branch condition earlier)
  | otherwise {i j : Nat} {last : Arm} {earlier : List Arm} :
      ArmsAt tokens i j (last :: earlier) → Has tokens j (.mark .leftBrace) →
      OpenerAt i (j + 1) (.otherwise last earlier)
  | loop {i j : Nat} {condition : Expr} :
      Has tokens i (.keyword .while_) → ExprAt tokens 0 (i + 1) j condition →
      Has tokens j (.mark .leftBrace) → OpenerAt i (j + 1) (.loop condition)

/-- The tokens up to an index are open blocks with the statements before them. -/
inductive LevelsAt : Nat → List Level → Prop
  | nil : LevelsAt 0 []
  | cons {i j k : Nat} {opener : Opener} {before : List Decl} {levels : List Level} :
      LevelsAt i levels → BodyAt tokens i j before.reverse → OpenerAt tokens j k opener →
      LevelsAt k (⟨opener, before⟩ :: levels)

/-- The tokens from `i` up to `n` are what has been read since the last complete statement. -/
def ControlAt (i n : Nat) : Control → Prop
  | .statement _ => i = n
  | .afterArm last earlier => ∃ j, ArmsAt tokens i j earlier ∧ ArmAt tokens j n last
  | .afterElse last earlier => ArmsAt tokens i n (last :: earlier)
  | .functionName => Has tokens i (.keyword .fun_) ∧ n = i + 1
  | .parametersOpen function =>
    Has tokens i (.keyword .fun_) ∧ (∃ p, tokens[i + 1]? = some ⟨.name, function, p⟩) ∧ n = i + 2
  | .firstParameter function => FunctionAt tokens i n function
  | .nextParameter function parameters => ∃ j k, FunctionAt tokens i j function ∧
      NamesAt tokens j k parameters ∧ Has tokens k (.mark .comma) ∧ n = k + 1
  | .afterParameter function parameters =>
    ∃ j, FunctionAt tokens i j function ∧ NamesAt tokens j n parameters
  | .functionBody function parameters => HeadAt tokens i n function parameters
  | .variableName => Has tokens i (.keyword .var_) ∧ n = i + 1
  | .variableEqual name =>
    Has tokens i (.keyword .var_) ∧ (∃ p, tokens[i + 1]? = some ⟨.name, name, p⟩) ∧ n = i + 2
  | .operand goal frames =>
    ∃ j level, GoalAt tokens i j goal ∧ FramesAt tokens level j n frames
  | .afterName goal frames name p =>
    ∃ j k level, GoalAt tokens i j goal ∧ FramesAt tokens level j k frames ∧
      tokens[k]? = some ⟨.name, name, p⟩ ∧ n = k + 1
  | .afterOperand goal frames x =>
    ∃ j k level, GoalAt tokens i j goal ∧ FramesAt tokens level j k frames ∧
      OperandAt tokens 6 k n x

/-- Unless a literal is bad, the tokens up to some index are open blocks and complete statements,
and the further tokens have a property that depends on this index. -/
def Within (P : Nat → Prop) (s : Unfinished) : Prop :=
  s.fault = none → ∃ i j, LevelsAt tokens i s.levels ∧ BodyAt tokens i j s.statements.reverse ∧ P j

/-- Unless a literal is bad, the first `n` tokens are an unfinished program. -/
def At (n : Nat) (s : Unfinished) : Prop :=
  s.Within tokens fun i => ControlAt tokens i n s.control

end Unfinished

end Derivations

/-! ### Nodes -/

section Nodes
variable [CharacterNames] {tokens : List Token}

mutual

theorem ExprAt.headed {level i j : Nat} {e : Expr} : ExprAt tokens level i j e →
    ∀ node ∈ e.nodes, HeadedAt tokens node
  | .literal _ _ => List.forall_mem_nil _
  | .name here => List.forall_mem_singleton.mpr (.name here)
  | .call here paren arguments _ => List.forall_mem_cons.mpr ⟨.call here paren, arguments.headed⟩
  | .array _ elements _ => elements.headed
  | .group _ inner _ => inner.headed
  | .index target start bracket index _ => List.forall_mem_cons.mpr
      ⟨.index target start bracket, List.forall_mem_append.mpr ⟨target.headed, index.headed⟩⟩
  | .unary op start operand => List.forall_mem_cons.mpr ⟨.unary op start, operand.headed⟩
  | .binary left start op right => List.forall_mem_cons.mpr
      ⟨.binary left start op, List.forall_mem_append.mpr ⟨left.headed, right.headed⟩⟩
  | .weaken _ tighter => tighter.headed

theorem ListAt.headed {i j : Nat} {es : List Expr} : ListAt tokens i j es →
    ∀ node ∈ listedNodes es, HeadedAt tokens node
  | .nil => List.forall_mem_nil _
  | .concat items last => by
    rw [listedNodes_append, listedNodes, listedNodes, List.append_nil]
    exact List.forall_mem_append.mpr ⟨items.headed, last.headed⟩

theorem ItemsAt.headed {i j : Nat} {es : List Expr} : ItemsAt tokens i j es →
    ∀ node ∈ listedNodes es, HeadedAt tokens node
  | .nil => List.forall_mem_nil _
  | .concat items last _ => by
    rw [listedNodes_append, listedNodes, listedNodes, List.append_nil]
    exact List.forall_mem_append.mpr ⟨items.headed, last.headed⟩

end

mutual

theorem StmtAt.headed {i j : Nat} {statement : Stmt} : StmtAt tokens i j statement →
    ∀ node ∈ statement.nodes, HeadedAt tokens node
  | .block body => body.headed
  | .declare _ _ _ value _ => value.headed
  | .assign here equal value _ => List.forall_mem_cons.mpr ⟨.assign here equal, value.headed⟩
  | .eval value _ => value.headed
  | .branch _ condition body otherwise => List.forall_mem_append.mpr
      ⟨List.forall_mem_append.mpr ⟨condition.headed, body.headed⟩, otherwise.headed⟩
  | .loop _ condition body => List.forall_mem_append.mpr ⟨condition.headed, body.headed⟩
  | .leave _ _ => List.forall_mem_nil _
  | .return_ _ value _ => value.headed

theorem OtherwiseAt.headed {i j : Nat} {otherwise : Otherwise} : OtherwiseAt tokens i j otherwise →
    ∀ node ∈ otherwise.nodes, HeadedAt tokens node
  | .nothing => List.forall_mem_nil _
  | .block _ body => body.headed
  | .branch _ branch => branch.headed

theorem DeclAt.headed {i j : Nat} {d : Decl} : DeclAt tokens i j d →
    ∀ node ∈ d.nodes, HeadedAt tokens node
  | .function _ body => body.headed
  | .stmt s => s.headed

theorem BlockAt.headed {i j : Nat} {body : List Decl} : BlockAt tokens i j body →
    ∀ node ∈ bodyNodes body, HeadedAt tokens node
  | .braces _ body _ => body.headed

theorem BodyAt.headed {i j : Nat} {body : List Decl} : BodyAt tokens i j body →
    ∀ node ∈ bodyNodes body, HeadedAt tokens node
  | .nil => List.forall_mem_nil _
  | .concat body last => by
    rw [bodyNodes_append, bodyNodes, bodyNodes, List.append_nil]
    exact List.forall_mem_append.mpr ⟨body.headed, last.headed⟩

end

end Nodes

/-! ### Steps -/

section Steps
variable [CharacterNames] {tokens : List Token} {i j k l n : Nat} {token : Token}

omit [CharacterNames] in
theorem has_of_getElem? {terminal : Terminal} {lexeme : Text} {p : Position}
    (h : tokens[i]? = some ⟨terminal, lexeme, p⟩) : Has tokens i terminal :=
  ⟨_, h, rfl⟩

omit [CharacterNames] in
theorem starts_of_getElem? {terminal : Terminal} {lexeme : Text} {p : Position}
    (h : tokens[i]? = some ⟨terminal, lexeme, p⟩) : Starts tokens i p :=
  ⟨_, h, rfl⟩

theorem ItemsAt.eq_of_nil {es : List Expr} (h : ItemsAt tokens i j es) (none : es = []) :
    i = j := by
  cases h with
  | nil => rfl
  | concat _ _ _ => exact absurd none (List.append_ne_nil_of_right_ne_nil _ (List.cons_ne_nil _ _))

theorem OperandAt.weaken {x : Operand} (h : OperandAt tokens l i j x) (le : k ≤ l) :
    OperandAt tokens k i j x :=
  ⟨h.1, .weaken le h.2⟩

/-- A chain of branches is one statement. -/
theorem ArmsAt.stmtAt {last : Arm} {earlier : List Arm} {otherwise : Otherwise}
    (h : ArmsAt tokens i j earlier) (arm : ArmAt tokens j k last)
    (rest : OtherwiseAt tokens k l otherwise) :
    StmtAt tokens i l (branchOf last otherwise earlier) := by
  induction h generalizing last otherwise k l with
  | nil =>
      obtain ⟨m, if_, condition, body⟩ := arm
      exact .branch if_ condition body rest
  | cons _ before else_ ih =>
      obtain ⟨m, if_, condition, body⟩ := arm
      exact ih before (.branch else_ (.branch if_ condition body rest))

namespace Unfinished
variable {s t : Unfinished} {goal : Goal} {frames : List Frame} {P : Nat → Prop}

theorem FramesAt.le (h : FramesAt tokens l i j frames) : l ≤ 5 := by
  cases h with
  | @binary _ _ _ _ op _ _ _ _ _ _ => cases op <;> decide
  | _ => omega

/-- What is left open behind an operator of a level does not ask for more, and what has been folded
is an operand of that level. -/
theorem FramesAt.fold (h : FramesAt tokens k i j frames) {x : Operand} {level : Nat}
    (hx : OperandAt tokens l j n x) (fits : k ≤ l) (tight : level ≤ l) (low : level ≤ 5) :
    ∃ k' j', k' ≤ level ∧ FramesAt tokens k' i j' (fold level frames x).1 ∧
      OperandAt tokens level j' n (fold level frames x).2 := by
  induction h generalizing x l with
  | nil => exact ⟨0, _, Nat.zero_le _, .nil, hx.weaken tight⟩
  | unary frames op start ih =>
      exact ih ⟨start, .unary op start (.weaken fits hx.2)⟩ frames.le low
  | binary frames le left op ih =>
      rw [Unfinished.fold]
      split
      · next binds => exact ih ⟨left.1, .binary left.2 left.1 op (.weaken fits hx.2)⟩ le binds
      · next binds => exact ⟨_, _, by omega, .binary frames le left op, hx.weaken tight⟩
  | group frames paren start =>
      exact ⟨0, _, Nat.zero_le _, .group frames paren start, hx.weaken tight⟩
  | index frames target bracket =>
      exact ⟨0, _, Nat.zero_le _, .index frames target bracket, hx.weaken tight⟩
  | call frames callee paren arguments =>
      exact ⟨0, _, Nat.zero_le _, .call frames callee paren arguments, hx.weaken tight⟩
  | array frames bracket start elements =>
      exact ⟨0, _, Nat.zero_le _, .array frames bracket start elements, hx.weaken tight⟩

theorem Within.imp {Q : Nat → Prop} (h : s.Within tokens P) (weaker : ∀ i, P i → Q i) :
    s.Within tokens Q := by
  intro none
  obtain ⟨i, j, levels, body, p⟩ := h none
  exact ⟨i, j, levels, body, weaker j p⟩

theorem Within.goTo (h : s.Within tokens P) {control : Control}
    (step : ∀ i, P i → ControlAt tokens i n control) : (s.goTo control).At tokens n :=
  h.imp (s := s.goTo control) step

theorem Within.add (h : s.Within tokens P) {d : Decl} (afterBrace : Bool)
    (step : ∀ i, P i → DeclAt tokens i n d) : (s.add d afterBrace).At tokens n := by
  intro none
  obtain ⟨i, j, levels, body, p⟩ := h none
  refine ⟨i, n, levels, ?_, rfl⟩
  rw [show (s.add d afterBrace).statements = d :: s.statements from rfl, List.reverse_cons]
  exact .concat body (step j p)

theorem Within.openBlock (h : s.Within tokens P) {opener : Opener}
    (step : ∀ i, P i → OpenerAt tokens i n opener) : (s.openBlock opener).At tokens n := by
  intro none
  obtain ⟨i, j, levels, body, p⟩ := h none
  exact ⟨n, n, .cons levels body (step j p), .nil, rfl⟩

section Feeding
variable (here : tokens[n]? = some token)
include here

theorem at_feedOperand (h : s.Within tokens fun i => ControlAt tokens i n (.operand goal frames))
    (fed : s.feedOperand goal frames token = some t) : t.At tokens (n + 1) := by
  obtain ⟨terminal, lexeme, p⟩ := token
  have has := has_of_getElem? here
  have starts := starts_of_getElem? here
  -- a literal is an operand of its own, and whatever is opened here is opened at the token
  have literal {value : Literal} (same : Token.literal? ⟨terminal, lexeme, p⟩ = some value) :
      (s.goTo (.afterOperand goal frames ⟨.literal value, p⟩)).At tokens (n + 1) := by
    refine h.goTo ?_
    rintro i ⟨j, level, goal, frames⟩
    exact ⟨j, n, level, goal, frames, starts, .literal here same⟩
  have inside {frame : Frame} {level : Nat}
      (opens : ∀ {j k}, FramesAt tokens k j n frames →
        FramesAt tokens level j (n + 1) (frame :: frames)) :
      (s.goTo (.operand goal (frame :: frames))).At tokens (n + 1) := by
    refine h.goTo ?_
    rintro i ⟨j, _, goal, frames⟩
    exact ⟨j, level, goal, opens frames⟩
  cases terminal with
  | name =>
      cases fed
      refine h.goTo ?_
      rintro i ⟨j, level, goal, frames⟩
      exact ⟨j, n, level, goal, frames, here, rfl⟩
  | number =>
      simp only [feedOperand] at fed
      cases read : numberLiteral lexeme <;> rw [read] at fed <;> cases fed
      · exact fun none => by simp at none
      · exact literal (by simp [Token.literal?, read, Except.toOption])
  | string =>
      simp only [feedOperand] at fed
      cases read : stringLiteral lexeme <;> rw [read] at fed <;> cases fed
      · exact fun none => by simp at none
      · exact literal (by simp [Token.literal?, read, Except.toOption])
  | keyword k => cases k <;> cases fed <;> exact literal rfl
  | mark m =>
      cases m with
      | rightParen =>
          rcases frames with _ | ⟨⟨⟩ | ⟨⟩ | ⟨⟩ | ⟨⟩ | ⟨callee, start, _ | _⟩ | ⟨⟩, frames⟩ <;>
            cases fed
          refine h.goTo ?_
          rintro i ⟨j, _, goal, opened⟩
          cases opened with
          | call frames callee paren none =>
            obtain rfl := none.eq_of_nil rfl
            exact ⟨j, _, _, goal, frames, starts_of_getElem? callee, .call callee paren .nil has⟩
      | rightBracket =>
          rcases frames with _ | ⟨⟨⟩ | ⟨⟩ | ⟨⟩ | ⟨⟩ | ⟨⟩ | ⟨start, _ | _⟩, frames⟩ <;> cases fed
          refine h.goTo ?_
          rintro i ⟨j, _, goal, opened⟩
          cases opened with
          | array frames bracket start none =>
            obtain rfl := none.eq_of_nil rfl
            exact ⟨j, _, _, goal, frames, start, .array bracket .nil has⟩
      | semicolon =>
          cases goal <;> cases frames <;> cases fed
          refine h.add false ?_
          rintro i ⟨j, _, goal, frames⟩
          cases frames
          obtain - | - | - | return_ := goal
          exact .stmt (.leave return_ has)
      | minus => cases fed; exact inside fun frames => .unary frames has starts
      | bang => cases fed; exact inside fun frames => .unary frames has starts
      | leftParen => cases fed; exact inside fun frames => .group frames has starts
      | leftBracket => cases fed; exact inside fun frames => .array frames has starts .nil
      | _ => cases fed
  | endOfInput => cases fed

/-- A mark that closes a construct takes everything in it that has been read. -/
theorem at_feedClose {x : Operand} {m : Mark} (mark : token.terminal = .mark m)
    (h : s.Within tokens fun i => ∃ j k level, GoalAt tokens i j goal ∧
      FramesAt tokens level j k frames ∧ OperandAt tokens 0 k n x)
    (fed : s.feedClose goal frames x m = some t) : t.At tokens (n + 1) := by
  have has : Has tokens n (.mark m) := ⟨token, here, mark⟩
  unfold feedClose at fed
  split at fed
  case h_1 =>
    cases fed
    refine h.goTo ?_
    rintro i ⟨j, k, _, goal, opened, hx⟩
    cases opened with
    | group frames paren start =>
      exact ⟨j, _, _, goal, frames, start, .group paren hx.2 has⟩
  case h_2 callee start arguments frames =>
    cases fed
    refine h.goTo ?_
    rintro i ⟨j, k, _, goal, opened, hx⟩
    cases opened with
    | call frames callee paren arguments =>
      refine ⟨j, _, _, goal, frames, starts_of_getElem? callee, ?_⟩
      rw [List.reverse_cons]
      exact .call callee paren (.concat arguments hx.2) has
  case h_3 =>
    cases fed
    refine h.goTo ?_
    rintro i ⟨j, k, _, goal, opened, hx⟩
    cases opened with
    | index frames target bracket =>
      exact ⟨j, _, _, goal, frames, target.1, .index target.2 target.1 bracket hx.2 has⟩
  case h_4 =>
    cases fed
    refine h.goTo ?_
    rintro i ⟨j, k, _, goal, opened, hx⟩
    cases opened with
    | array frames bracket start elements =>
      refine ⟨j, _, _, goal, frames, start, ?_⟩
      rw [List.reverse_cons]
      exact .array bracket (.concat elements hx.2) has
  case h_5 =>
    cases fed
    refine h.goTo ?_
    rintro i ⟨j, k, _, goal, opened, hx⟩
    cases opened with
    | call frames callee paren arguments =>
      refine ⟨j, _, goal, .call frames callee paren ?_⟩
      rw [List.reverse_cons]
      exact .concat arguments hx.2 has
  case h_6 =>
    cases fed
    refine h.goTo ?_
    rintro i ⟨j, k, _, goal, opened, hx⟩
    cases opened with
    | array frames bracket start elements =>
      refine ⟨j, _, goal, .array frames bracket start ?_⟩
      rw [List.reverse_cons]
      exact .concat elements hx.2 has
  case h_7 =>
    obtain ⟨statement, made, rfl⟩ := Option.map_eq_some_iff.mp fed
    refine h.add false ?_
    rintro i ⟨j, k, _, begun, opened, hx⟩
    cases opened
    obtain _ | ⟨var_, name, equal⟩ | ⟨name, equal⟩ | return_ | _ | _ := begun <;> cases made
    · exact .stmt (.eval hx.2 has)
    · exact .stmt (.declare var_ name equal hx.2 has)
    · exact .stmt (.assign name equal hx.2 has)
    · exact .stmt (.return_ return_ hx.2 has)
  case h_8 =>
    obtain ⟨opener, made, rfl⟩ := Option.map_eq_some_iff.mp fed
    refine h.openBlock ?_
    rintro i ⟨j, k, _, begun, opened, hx⟩
    cases opened
    obtain _ | _ | _ | _ | ⟨earlier, if_⟩ | while_ := begun <;> cases made
    · exact .branch earlier if_ hx.2 has
    · exact .loop while_ hx.2 has
  case h_9 => cases fed

theorem at_feedAfterOperand {x : Operand}
    (h : s.Within tokens fun i => ControlAt tokens i n (.afterOperand goal frames x))
    (fed : s.feedAfterOperand goal frames x token = some t) : t.At tokens (n + 1) := by
  have folded (level : Nat) (low : level ≤ 5) : s.Within tokens fun i => ∃ j k l,
      GoalAt tokens i j goal ∧ FramesAt tokens l j k (fold level frames x).1 ∧ l ≤ level ∧
        OperandAt tokens level k n (fold level frames x).2 := by
    refine h.imp ?_
    rintro i ⟨j, k, l, goal, opened, hx⟩
    obtain ⟨l', k', le, opened', hx'⟩ :=
      opened.fold hx (Nat.le_succ_of_le opened.le) (Nat.le_succ_of_le low) low
    exact ⟨j, k', l', goal, opened', le, hx'⟩
  obtain ⟨terminal, lexeme, p⟩ := token
  cases terminal with
  | mark m =>
      by_cases bracket : m = .leftBracket
      · subst bracket
        cases fed
        refine h.goTo ?_
        rintro i ⟨j, k, level, goal, frames, hx⟩
        exact ⟨j, 0, goal, .index frames hx (has_of_getElem? here)⟩
      · cases operator : BinaryOp.ofMark? m with
        | some op =>
            simp only [feedAfterOperand, operator] at fed
            cases fed
            obtain rfl := BinaryOp.ofMark?_eq_some_iff.mp operator
            refine (folded op.level (by cases op <;> decide)).goTo ?_
            rintro i ⟨j, k, l, goal, frames, le, hx⟩
            exact ⟨j, _, goal, .binary frames le hx (has_of_getElem? here)⟩
        | none =>
            simp only [feedAfterOperand, operator] at fed
            refine at_feedClose here rfl ((folded 0 (by decide)).imp ?_) fed
            rintro i ⟨j, k, l, goal, frames, -, hx⟩
            exact ⟨j, k, l, goal, frames, hx⟩
  | _ => cases fed

theorem at_feedAfterName {name : Name} {p : Position}
    (h : s.Within tokens fun i => ControlAt tokens i n (.afterName goal frames name p))
    (fed : s.feedAfterName goal frames name p token = some t) : t.At tokens (n + 1) := by
  unfold feedAfterName at fed
  split at fed
  · next paren =>
      cases fed
      refine h.goTo ?_
      rintro i ⟨j, k, level, goal, frames, name, rfl⟩
      exact ⟨j, 0, goal, .call frames name ⟨token, here, paren⟩ .nil⟩
  · next equal =>
      cases fed
      refine h.goTo ?_
      rintro i ⟨j, k, level, goal, frames, name, rfl⟩
      cases goal
      cases frames
      exact ⟨_, 0, .assign name ⟨token, here, equal⟩, .nil⟩
  · refine at_feedAfterOperand here (h.imp ?_) fed
    rintro i ⟨j, k, level, goal, frames, name, rfl⟩
    exact ⟨j, k, level, goal, frames, starts_of_getElem? name, .name name⟩

theorem at_closeBlock? (brace : token.terminal = .mark .rightBrace)
    (h : s.Within tokens fun i => i = n) (closed : s.closeBlock? = some t) :
    t.At tokens (n + 1) := by
  have has : Has tokens n (.mark .rightBrace) := ⟨token, here, brace⟩
  obtain ⟨statements, levels, control, fault⟩ := s
  cases levels with
  | nil => cases closed
  | cons level levels =>
      obtain ⟨opener, before⟩ := level
      -- the statements of the block are those behind the brace that opened it
      have inner : Within tokens (fun i => ∃ m, OpenerAt tokens i m opener ∧
          BodyAt tokens m n statements.reverse) ⟨before, levels, control, fault⟩ := by
        intro none
        obtain ⟨m, _, levels, body, rfl⟩ := h none
        obtain - | ⟨levels, before, opener⟩ := levels
        exact ⟨_, _, levels, before, m, opener, body⟩
      cases opener with
      | block =>
          cases closed
          refine inner.add true ?_
          rintro i ⟨m, ⟨brace⟩, body⟩
          exact .stmt (.block (.braces brace body has))
      | function name parameters =>
          cases closed
          refine inner.add true ?_
          rintro i ⟨m, _ | ⟨head, brace⟩, body⟩
          exact .function head (.braces brace body has)
      | branch condition earlier =>
          cases closed
          refine inner.goTo ?_
          rintro i ⟨m, _ | _ | ⟨earlier, if_, condition, brace⟩, body⟩
          exact ⟨_, earlier, _, if_, condition, .braces brace body has⟩
      | otherwise last earlier =>
          cases closed
          refine inner.add true ?_
          rintro i ⟨m, _ | _ | _ | ⟨_ | ⟨earlier, last, else_⟩, brace⟩, body⟩
          exact .stmt (earlier.stmtAt last (.block else_ (.braces brace body has)))
      | loop condition =>
          cases closed
          refine inner.add true ?_
          rintro i ⟨m, _ | _ | _ | _ | ⟨while_, condition, brace⟩, body⟩
          exact .stmt (.loop while_ condition (.braces brace body has))

theorem at_feedStatement (h : s.Within tokens fun i => i = n)
    (fed : s.feedStatement token = some t) : t.At tokens (n + 1) := by
  have operand (fed : s.feedOperand .eval [] token = some t) : t.At tokens (n + 1) := by
    refine at_feedOperand here (h.imp ?_) fed
    rintro i rfl
    exact ⟨i, 0, .eval, .nil⟩
  have has : Has tokens n token.terminal := ⟨token, here, rfl⟩
  have first {control : Control} (hc : ControlAt tokens n (n + 1) control) :
      (s.goTo control).At tokens (n + 1) := by
    refine h.goTo ?_
    rintro i rfl
    exact hc
  obtain ⟨terminal, lexeme, p⟩ := token
  cases terminal with
  | keyword k =>
      cases k with
      | fun_ => cases fed; exact first ⟨has, rfl⟩
      | var_ => cases fed; exact first ⟨has, rfl⟩
      | if_ => cases fed; exact first ⟨_, 0, .branch .nil has, .nil⟩
      | while_ => cases fed; exact first ⟨_, 0, .loop has, .nil⟩
      | return_ => cases fed; exact first ⟨_, 0, .return_ has, .nil⟩
      | _ => exact operand fed
  | mark m =>
      cases m with
      | rightBrace => exact at_closeBlock? here rfl h fed
      | leftBrace =>
          cases fed
          refine h.openBlock ?_
          rintro i rfl
          exact .block has
      | _ => exact operand fed
  | _ => exact operand fed

/-- One more token makes one more token of the unfinished program. -/
theorem at_feed (h : s.At tokens n) (fed : s.feed token = some t) : t.At tokens (n + 1) := by
  obtain ⟨statements, levels, control, fault⟩ := s
  cases control with
  | statement afterBrace => exact at_feedStatement here h fed
  | operand goal frames => exact at_feedOperand here h fed
  | afterName goal frames name position => exact at_feedAfterName here h fed
  | afterOperand goal frames x => exact at_feedAfterOperand here h fed
  | afterArm last earlier =>
      by_cases other : token.terminal = .keyword .else_
      · obtain ⟨terminal, lexeme, p⟩ := token
        subst other
        cases fed
        refine h.goTo ?_
        rintro i ⟨j, earlier, last⟩
        exact .cons earlier last (has_of_getElem? here)
      · rw [feed_afterArm _ last earlier rfl other] at fed
        refine at_feedStatement here (h.add true ?_) fed
        rintro i ⟨j, earlier, last⟩
        exact .stmt (earlier.stmtAt last .nothing)
  | afterElse last earlier =>
      obtain ⟨terminal, lexeme, p⟩ := token
      have has := has_of_getElem? here
      cases terminal with
      | mark m =>
          cases m <;> cases fed
          exact h.openBlock fun i earlier => .otherwise earlier has
      | keyword k =>
          cases k <;> cases fed
          exact h.goTo fun i earlier => ⟨_, 0, .branch earlier has, .nil⟩
      | _ => cases fed
  | functionName =>
      obtain ⟨terminal, lexeme, p⟩ := token
      cases terminal with
      | name =>
          cases fed
          refine h.goTo ?_
          rintro i ⟨fun_, rfl⟩
          exact ⟨fun_, ⟨p, here⟩, rfl⟩
      | mark m => cases m <;> cases fed
      | keyword k => cases k <;> cases fed
      | _ => cases fed
  | parametersOpen function =>
      obtain ⟨terminal, lexeme, p⟩ := token
      have has := has_of_getElem? here
      cases terminal with
      | mark m =>
          cases m <;> cases fed
          refine h.goTo ?_
          rintro i ⟨fun_, name, rfl⟩
          exact ⟨fun_, name, has, rfl⟩
      | keyword k => cases k <;> cases fed
      | _ => cases fed
  | firstParameter function =>
      obtain ⟨terminal, lexeme, p⟩ := token
      have has := has_of_getElem? here
      cases terminal with
      | name =>
          cases fed
          exact h.goTo fun i function => ⟨_, function, .one here⟩
      | mark m =>
          cases m <;> cases fed
          exact h.goTo fun i function => .bare function has
      | keyword k => cases k <;> cases fed
      | _ => cases fed
  | nextParameter function parameters =>
      obtain ⟨terminal, lexeme, p⟩ := token
      cases terminal with
      | name =>
          cases fed
          refine h.goTo ?_
          rintro i ⟨j, k, function, names, comma, rfl⟩
          exact ⟨j, function, .concat names comma here⟩
      | mark m => cases m <;> cases fed
      | keyword k => cases k <;> cases fed
      | _ => cases fed
  | afterParameter function parameters =>
      obtain ⟨terminal, lexeme, p⟩ := token
      have has := has_of_getElem? here
      cases terminal with
      | mark m =>
          cases m <;> cases fed
          · refine h.goTo ?_
            rintro i ⟨j, function, names⟩
            exact .listed function names has
          · refine h.goTo ?_
            rintro i ⟨j, function, names⟩
            exact ⟨j, _, function, names, has, rfl⟩
      | keyword k => cases k <;> cases fed
      | _ => cases fed
  | functionBody function parameters =>
      obtain ⟨terminal, lexeme, p⟩ := token
      have has := has_of_getElem? here
      cases terminal with
      | mark m =>
          cases m <;> cases fed
          exact h.openBlock fun i head => .function head has
      | keyword k => cases k <;> cases fed
      | _ => cases fed
  | variableName =>
      obtain ⟨terminal, lexeme, p⟩ := token
      cases terminal with
      | name =>
          cases fed
          refine h.goTo ?_
          rintro i ⟨var_, rfl⟩
          exact ⟨var_, ⟨p, here⟩, rfl⟩
      | mark m => cases m <;> cases fed
      | keyword k => cases k <;> cases fed
      | _ => cases fed
  | variableEqual name =>
      obtain ⟨terminal, lexeme, p⟩ := token
      have has := has_of_getElem? here
      cases terminal with
      | mark m =>
          cases m <;> cases fed
          refine h.goTo ?_
          rintro i ⟨var_, ⟨p, name⟩, rfl⟩
          exact ⟨_, 0, .declare var_ name has, .nil⟩
      | keyword k => cases k <;> cases fed
      | _ => cases fed

end Feeding

/-- What is read behind some tokens makes up an unfinished program with them. -/
theorem Reads.at_length {place : Cursor} {before behind : List Token}
    (h : s.Reads place behind t) (hs : s.At (before ++ behind) before.length) :
    t.At (before ++ behind) (before ++ behind).length := by
  induction h generalizing before with
  | done _ =>
      rw [List.append_nil] at hs ⊢
      exact hs
  | @token _ _ _ _ _ token behind _ fed _ ih =>
      have here : (before ++ token :: behind)[before.length]? = some token := by simp
      have next := at_feed here hs fed
      have same : before ++ token :: behind = before ++ [token] ++ behind := by simp
      rw [same] at next ⊢
      exact ih (by rwa [List.length_append])

theorem At.bodyAt {program : Program} (h : s.At tokens n) (none : s.fault = none)
    (whole : s.program? = some program) : BodyAt tokens 0 n program := by
  obtain ⟨i, j, levels, body, control⟩ := h none
  obtain ⟨statements, _ | ⟨level, outer⟩, control_, fault⟩ := s
  · cases levels
    cases control_ with
    | statement afterBrace =>
        cases whole
        obtain rfl : j = n := control
        exact body
    | afterArm last arms =>
        cases whole
        obtain ⟨k, earlier, last⟩ := control
        rw [List.reverse_cons]
        exact .concat body (.stmt (earlier.stmtAt last .nothing))
    | _ => cases whole
  · cases whole

theorem Reads.bodyAt {place : Cursor} {program : Program} (h : empty.Reads place tokens t)
    (none : t.fault = none) (whole : t.program? = some program) :
    BodyAt tokens 0 tokens.length program := by
  have start : empty.At ([] ++ tokens) ([] : List Token).length :=
    fun _ => ⟨0, 0, .nil, .nil, rfl⟩
  exact (h.at_length start).bodyAt none whole

end Unfinished

end Steps

end Script
