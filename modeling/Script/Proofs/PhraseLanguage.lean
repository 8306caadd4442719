import Script.Program.Expr
import Script.Proofs.Grammar

/-!
# Languages of phrases

What can be derived from the rules of the grammar, in forms that show how a phrase starts. The rules
for expressions are left recursive and have one level for each precedence. As languages they come
down to one form: operands with any binary operators between them, where an operand is a primary
expression with prefix operators before it and indices behind it. So the first terminal of a phrase
decides how it goes on.
-/

namespace Script
open scoped Computability

section Kleene

/-- Iterating two things is iterating the first, and the first behind each of the second. -/
theorem kstar_add {K : Type} [KleeneAlgebra K] (a b : K) : (a + b)∗ = a∗ * (b * a∗)∗ := by
  apply le_antisymm
  · apply kstar_le_of_mul_le_right
    · calc (1 : K) = 1 * 1 := (mul_one 1).symm
        _ ≤ a∗ * (b * a∗)∗ := mul_le_mul' one_le_kstar one_le_kstar
    · rw [add_mul]
      apply add_le
      · rw [← mul_assoc]
        exact mul_le_mul_left mul_kstar_le_kstar _
      · calc b * (a∗ * (b * a∗)∗) = b * a∗ * (b * a∗)∗ := (mul_assoc ..).symm
          _ ≤ (b * a∗)∗ := mul_kstar_le_kstar
          _ = 1 * (b * a∗)∗ := (one_mul _).symm
          _ ≤ a∗ * (b * a∗)∗ := mul_le_mul_left one_le_kstar _
  · have left : a ≤ a + b := by simp
    have right : b ≤ a + b := by simp
    calc a∗ * (b * a∗)∗ ≤ (a + b)∗ * ((a + b) * (a + b)∗)∗ :=
          mul_le_mul' (kstar_mono left) (kstar_mono (mul_le_mul' right (kstar_mono left)))
      _ ≤ (a + b)∗ * (a + b)∗∗ := mul_le_mul_right (kstar_mono mul_kstar_le_kstar) _
      _ = (a + b)∗ := by rw [kstar_idem, kstar_mul_kstar]

end Kleene

def Terminal.alone (t : Terminal) : Language Terminal := {[t]}

def BinaryOp.alone : Language Terminal := { w | ∃ op : BinaryOp, w = [.mark op.mark] }

section Membership
variable {t u : Terminal} {w : List Terminal} {a b c : Language Terminal}

theorem cons_mem_alone_mul : t :: w ∈ u.alone * a ↔ t = u ∧ w ∈ a := by
  rw [Language.mem_mul]
  constructor
  · rintro ⟨_, rfl, v, hv, same⟩
    obtain ⟨rfl, rfl⟩ := List.cons.inj same
    exact ⟨rfl, hv⟩
  · rintro ⟨rfl, hw⟩
    exact ⟨[t], rfl, w, hw, rfl⟩

theorem cons_mem_binary_mul :
    t :: w ∈ BinaryOp.alone * a ↔ (∃ op : BinaryOp, t = .mark op.mark) ∧ w ∈ a := by
  rw [Language.mem_mul]
  constructor
  · rintro ⟨_, ⟨op, rfl⟩, v, hv, same⟩
    obtain ⟨rfl, rfl⟩ := List.cons.inj same
    exact ⟨⟨op, rfl⟩, hv⟩
  · rintro ⟨⟨op, rfl⟩, hw⟩
    exact ⟨_, ⟨op, rfl⟩, w, hw, rfl⟩

theorem mem_alone : w ∈ u.alone ↔ w = [u] := Iff.rfl

theorem nil_notMem_alone : [] ∉ u.alone := by
  intro h
  cases h

theorem nil_mem_mul : [] ∈ a * b ↔ [] ∈ a ∧ [] ∈ b := by
  rw [Language.mem_mul]
  constructor
  · rintro ⟨u, hu, v, hv, same⟩
    obtain ⟨rfl, rfl⟩ := List.append_eq_nil_iff.mp same
    exact ⟨hu, hv⟩
  · rintro ⟨ha, hb⟩
    exact ⟨[], ha, [], hb, rfl⟩

theorem mem_optional_mul : w ∈ (1 + a) * b ↔ w ∈ b ∨ w ∈ a * b := by
  rw [add_mul, one_mul, Language.mem_add]

theorem mem_kstar_mul : w ∈ a∗ * b ↔ w ∈ b ∨ w ∈ a * (a∗ * b) := by
  rw [← one_add_mul_kstar, mem_optional_mul, one_add_mul_kstar, mul_assoc]

/-- A left recursive rule is an iteration. -/
theorem eq_mul_kstar (h : a = b + a * c) (nonempty : [] ∉ c) : a = b * c∗ := by
  apply Language.reverse_injective
  rw [Language.reverse_mul, Language.reverse_kstar]
  apply (Language.self_eq_mul_add_iff (by simpa using nonempty)).mp
  rw [← Language.reverse_mul, ← Language.reverse_add, add_comm, ← h]

end Membership

namespace Nonterminal
open Pattern Terminal

def language (n : Nonterminal) : Language Terminal := (rule n).language

theorem language_eq (n : Nonterminal) : n.language = n.pattern.language :=
  language_rule n

theorem language_nonterminal (n : Nonterminal) : (rule n).language = n.language := rfl

theorem language_mark (m : Mark) : (Pattern.mark m).language = (Terminal.mark m).alone :=
  language_terminal _

theorem language_keyword (k : Keyword) :
    (Pattern.keyword k).language = (Terminal.keyword k).alone :=
  language_terminal _

theorem language_terminal_alone (t : Terminal) : (Pattern.terminal t).language = t.alone :=
  language_terminal t

/-- One level of binary operators over another one. -/
theorem operators {x y u inner outer : Language Terminal} (hx : x = y + x * (outer * y))
    (hy : y = u * (inner * u)∗) (nonempty : [] ∉ outer) : x = u * ((inner + outer) * u)∗ := by
  have iterated : x = y * (outer * y)∗ := eq_mul_kstar hx fun h => nonempty (nil_mem_mul.mp h).1
  rw [iterated, hy, add_mul, kstar_add]
  simp only [mul_assoc]

/-- What may stand between the parts of an expression, at one level of binary operators each. -/
def multiplying : Language Terminal :=
  alone (.mark .star) + alone (.mark .slash) + alone (.mark .percent)

def adding : Language Terminal := alone (.mark .plus) + alone (.mark .minus)

def comparing : Language Terminal :=
  alone (.mark .less) + alone (.mark .lessEqual) + alone (.mark .greater) +
    alone (.mark .greaterEqual)

def equating : Language Terminal := alone (.mark .equalEqual) + alone (.mark .bangEqual)

theorem binary_eq : 0 + multiplying + adding + comparing + equating = BinaryOp.alone := by
  ext w
  constructor
  · rintro ((((⟨⟨⟩⟩ | (rfl | rfl) | rfl) | rfl | rfl) | ((rfl | rfl) | rfl) | rfl) | rfl | rfl)
    exacts [⟨.mul, rfl⟩, ⟨.div, rfl⟩, ⟨.mod, rfl⟩, ⟨.add, rfl⟩, ⟨.sub, rfl⟩, ⟨.less, rfl⟩,
      ⟨.lessEqual, rfl⟩, ⟨.greater, rfl⟩, ⟨.greaterEqual, rfl⟩, ⟨.equal, rfl⟩, ⟨.unequal, rfl⟩]
  · rintro ⟨op, rfl⟩
    cases op <;>
      simp [-add_eq_sup, multiplying, adding, comparing, equating, Language.mem_add, mem_alone,
        BinaryOp.mark]

theorem expression_eq : expression.language =
    unary.language * (BinaryOp.alone * unary.language)∗ := by
  have hproduct : product.language =
      unary.language + product.language * (multiplying * unary.language) := by
    conv_lhs => rw [language_eq]
    simp only [pattern, language_seq, language_alt, language_mark, language_nonterminal,
      multiplying, add_mul,
      mul_add, mul_assoc, add_assoc]
  have hsum : sum.language =
      product.language + sum.language * (adding * product.language) := by
    conv_lhs => rw [language_eq]
    simp only [pattern, language_seq, language_alt, language_mark, language_nonterminal,
      adding, add_mul,
      mul_add, mul_assoc, add_assoc]
  have hcomparison : comparison.language =
      sum.language + comparison.language * (comparing * sum.language) := by
    conv_lhs => rw [language_eq]
    simp only [pattern, language_seq, language_alt, language_mark, language_nonterminal,
      comparing, add_mul,
      mul_add, mul_assoc, add_assoc]
  have hequality : equality.language =
      comparison.language + equality.language * (equating * comparison.language) := by
    conv_lhs => rw [language_eq]
    simp only [pattern, language_seq, language_alt, language_mark, language_nonterminal,
      equating, add_mul,
      mul_add, mul_assoc, add_assoc]
  have none : unary.language = unary.language * (0 * unary.language)∗ := by simp
  rw [language_eq, pattern, ← binary_eq]
  refine operators hequality (operators hcomparison (operators hsum (operators hproduct none
    ?_) ?_) ?_) ?_
  all_goals
    simp [-add_eq_sup, multiplying, adding, comparing, equating, Language.mem_add, mem_alone]

/-- An index behind an operand. -/
def subscript : Language Terminal :=
  alone (.mark .leftBracket) * (expression.language * alone (.mark .rightBracket))

/-- What may stand between the parentheses of a call or the brackets of an array. -/
def listed : Language Terminal := 1 + arguments.language

/-- What may follow the body of a branch. -/
def elsePart : Language Terminal :=
  1 + alone (.keyword .else_) * (block.language + ifStatement.language)

/-- What may follow a name in an operand. -/
def callPart : Language Terminal :=
  1 + alone (.mark .leftParen) * (listed * alone (.mark .rightParen))

theorem postfixed_eq : postfixed.language = primary.language * subscript∗ := by
  have h : postfixed.language = primary.language + postfixed.language * subscript := by
    conv_lhs => rw [language_eq]
    simp only [pattern, language_seq, language_alt, language_mark, language_nonterminal,
      subscript, mul_assoc]
  exact eq_mul_kstar h fun nil => nil_notMem_alone (nil_mem_mul.mp nil).1

theorem arguments_eq : arguments.language =
    expression.language * (alone (.mark .comma) * expression.language)∗ := by
  rw [language_eq]
  simp only [pattern, language_seq, language_star, language_mark, language_nonterminal]

theorem parameters_eq : parameters.language =
    alone .name * (alone (.mark .comma) * alone .name)∗ := by
  rw [language_eq]
  simp only [pattern, language_seq, language_star, language_mark, language_terminal_alone]

theorem block_eq : block.language =
    alone (.mark .leftBrace) * (declaration.language∗ * alone (.mark .rightBrace)) := by
  rw [language_eq]
  simp only [pattern, language_seq, language_star, language_mark, language_nonterminal,
    mul_assoc]

theorem ifStatement_eq : ifStatement.language =
    alone (.keyword .if_) * (expression.language * (block.language * elsePart)) := by
  rw [language_eq]
  simp only [pattern, language_seq, language_alt, language_optional, language_keyword,
    language_nonterminal, elsePart, mul_assoc]

theorem nil_notMem_block : [] ∉ block.language := by
  rw [block_eq]
  exact fun nil => nil_notMem_alone (nil_mem_mul.mp nil).1

theorem nil_notMem_ifStatement : [] ∉ ifStatement.language := by
  rw [ifStatement_eq]
  exact fun nil => nil_notMem_alone (nil_mem_mul.mp nil).1

theorem nil_mem_elsePart : [] ∈ elsePart := .inl rfl

theorem primary_eq : primary.language =
    alone .number + alone .string + alone (.keyword .true_) + alone (.keyword .false_) +
      alone (.keyword .nil_) + alone .name * callPart +
      alone (.mark .leftBracket) * (listed * alone (.mark .rightBracket)) +
      alone (.mark .leftParen) * (expression.language * alone (.mark .rightParen)) := by
  have named : alone .name * callPart = alone .name +
      alone .name * (alone (.mark .leftParen) * (listed * alone (.mark .rightParen))) := by
    rw [callPart, mul_add, mul_one]
  rw [language_eq, named]
  simp only [pattern, language_seq, language_alt, language_optional, language_mark,
    language_keyword, language_terminal_alone, language_nonterminal, listed, mul_assoc]
  ac_rfl

theorem unary_eq : unary.language = postfixed.language +
    alone (.mark .minus) * unary.language + alone (.mark .bang) * unary.language := by
  conv_lhs => rw [language_eq]
  simp only [pattern, language_seq, language_alt, language_mark, language_nonterminal, add_assoc]

theorem nil_notMem_unary : [] ∉ unary.language := by
  rw [unary_eq, postfixed_eq, primary_eq]
  simp [-add_eq_sup, Language.mem_add, nil_mem_mul, nil_notMem_alone]

/-- What may follow the first terminal of an operand, where `rest` may follow the operand. -/
def afterOperandStart (rest : Language Terminal) : Terminal → Language Terminal
  | .number | .string | .keyword .true_ | .keyword .false_ | .keyword .nil_ => subscript∗ * rest
  | .name => callPart * (subscript∗ * rest)
  | .mark .minus | .mark .bang => unary.language * rest
  | .mark .leftParen => expression.language * (alone (.mark .rightParen) * (subscript∗ * rest))
  | .mark .leftBracket => listed * (alone (.mark .rightBracket) * (subscript∗ * rest))
  | _ => 0

theorem cons_mem_unary_mul {t : Terminal} {w : List Terminal} {rest : Language Terminal} :
    t :: w ∈ unary.language * rest ↔ w ∈ afterOperandStart rest t := by
  rw [unary_eq, postfixed_eq, primary_eq]
  simp only [add_mul, mul_assoc, Language.mem_add, cons_mem_alone_mul]
  cases t with
  | keyword k => cases k <;> simp [-add_eq_sup, afterOperandStart]
  | mark m => cases m <;> simp [-add_eq_sup, afterOperandStart]
  | _ => simp [-add_eq_sup, afterOperandStart]

/-- What may follow the first operand of an expression. -/
def operations : Language Terminal := (BinaryOp.alone * unary.language)∗

theorem declaration_eq : declaration.language =
    alone (.keyword .fun_) * (alone .name * (alone (.mark .leftParen) *
      ((1 + parameters.language) * (alone (.mark .rightParen) * block.language)))) +
    block.language +
    alone (.keyword .var_) *
      (alone .name * (alone (.mark .equal) * (expression.language * alone (.mark .semicolon)))) +
    alone .name * (alone (.mark .equal) * (expression.language * alone (.mark .semicolon))) +
    ifStatement.language +
    alone (.keyword .while_) * (expression.language * block.language) +
    alone (.keyword .return_) * ((1 + expression.language) * alone (.mark .semicolon)) +
    expression.language * alone (.mark .semicolon) := by
  have function : funDeclaration.language = _ := language_eq _
  have variable_ : varDeclaration.language = _ := language_eq _
  have assignment : assign.language = _ := language_eq _
  have loop : whileStatement.language = _ := language_eq _
  have return_ : returnStatement.language = _ := language_eq _
  have evaluation : expressionStatement.language = _ := language_eq _
  have statements : statement.language = _ := language_eq _
  rw [language_eq]
  simp only [pattern, language_seq, language_alt, language_optional, language_mark,
    language_keyword, language_terminal_alone, language_nonterminal, mul_assoc, add_assoc] at *
  rw [function, statements, variable_, assignment, loop, return_, evaluation]

/-- What may follow the first terminal of a declaration or a statement. -/
def afterDeclarationStart (rest : Language Terminal) : Terminal → Language Terminal
  | .keyword .fun_ =>
    alone .name * (alone (.mark .leftParen) *
      ((1 + parameters.language) * (alone (.mark .rightParen) * (block.language * rest))))
  | .keyword .var_ =>
    alone .name * (alone (.mark .equal) *
      (expression.language * (alone (.mark .semicolon) * rest)))
  | .keyword .if_ => expression.language * (block.language * (elsePart * rest))
  | .keyword .while_ => expression.language * (block.language * rest)
  | .keyword .return_ => (1 + expression.language) * (alone (.mark .semicolon) * rest)
  | .mark .leftBrace => declaration.language∗ * (alone (.mark .rightBrace) * rest)
  | .name =>
    alone (.mark .equal) * (expression.language * (alone (.mark .semicolon) * rest)) +
      afterOperandStart (operations * (alone (.mark .semicolon) * rest)) .name
  | t => afterOperandStart (operations * (alone (.mark .semicolon) * rest)) t

theorem expression_mul {a : Language Terminal} :
    expression.language * a = unary.language * (operations * a) := by
  rw [expression_eq, mul_assoc, operations]

theorem cons_mem_declaration_mul {t : Terminal} {w : List Terminal} {rest : Language Terminal} :
    t :: w ∈ declaration.language * rest ↔ w ∈ afterDeclarationStart rest t := by
  rw [declaration_eq, block_eq, ifStatement_eq]
  simp only [add_mul, mul_assoc, Language.mem_add, cons_mem_alone_mul, expression_mul,
    cons_mem_unary_mul]
  cases t with
  | keyword k =>
    cases k <;>
      simp [-add_eq_sup, afterDeclarationStart, afterOperandStart, block_eq, expression_mul,
        add_mul,
        Language.mem_add, mul_assoc]
  | mark m => cases m <;> simp [-add_eq_sup, afterDeclarationStart, afterOperandStart]
  | _ =>
    simp [-add_eq_sup, afterDeclarationStart, afterOperandStart, Language.mem_add, expression_mul]

end Nonterminal

end Script
