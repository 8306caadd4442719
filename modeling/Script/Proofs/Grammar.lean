import Mathlib.Computability.Language
import Script.Source.Token

/-!
# The grammar

The grammar of programs as data, rule by rule, and the lists of terminals that can be derived from
it. What is derived from a pattern is a language, and the language of a rule is that of its pattern.
-/

namespace Script
open scoped Computability

inductive Nonterminal where
  | start | program | declaration | funDeclaration | parameters | statement | block
  | varDeclaration | assign | ifStatement | whileStatement | returnStatement
  | expressionStatement | expression | equality | comparison | sum | product | unary | postfixed
  | primary | arguments
  deriving Repr, DecidableEq

inductive Pattern where
  | terminal (t : Terminal)
  | rule (n : Nonterminal)
  | seq (p q : Pattern)
  | alt (p q : Pattern)
  | optional (p : Pattern)
  | star (p : Pattern)
  deriving Repr, DecidableEq

namespace Pattern

instance : Append Pattern := ⟨seq⟩

instance : OrOp Pattern := ⟨alt⟩

def keyword (k : Keyword) : Pattern := terminal (.keyword k)

def mark (m : Mark) : Pattern := terminal (.mark m)

end Pattern

namespace Nonterminal
open Pattern

/-- The rules of the grammar. -/
def pattern : Nonterminal → Pattern
  | start => rule program
  | program => star (rule declaration)
  | declaration => rule funDeclaration ||| rule statement
  | funDeclaration =>
    keyword .fun_ ++ terminal .name ++ mark .leftParen ++ optional (rule parameters) ++
      mark .rightParen ++ rule block
  | parameters => terminal .name ++ star (mark .comma ++ terminal .name)
  | statement =>
    rule block ||| rule varDeclaration ||| rule assign ||| rule ifStatement |||
      rule whileStatement ||| rule returnStatement ||| rule expressionStatement
  | block => mark .leftBrace ++ star (rule declaration) ++ mark .rightBrace
  | varDeclaration =>
    keyword .var_ ++ terminal .name ++ mark .equal ++ rule expression ++ mark .semicolon
  | assign => terminal .name ++ mark .equal ++ rule expression ++ mark .semicolon
  | ifStatement =>
    keyword .if_ ++ rule expression ++ rule block ++
      optional (keyword .else_ ++ (rule block ||| rule ifStatement))
  | whileStatement => keyword .while_ ++ rule expression ++ rule block
  | returnStatement => keyword .return_ ++ optional (rule expression) ++ mark .semicolon
  | expressionStatement => rule expression ++ mark .semicolon
  | expression => rule equality
  | equality =>
    rule comparison ||| rule equality ++ mark .equalEqual ++ rule comparison |||
      rule equality ++ mark .bangEqual ++ rule comparison
  | comparison =>
    rule sum ||| rule comparison ++ mark .less ++ rule sum |||
      rule comparison ++ mark .lessEqual ++ rule sum |||
      rule comparison ++ mark .greater ++ rule sum |||
      rule comparison ++ mark .greaterEqual ++ rule sum
  | sum =>
    rule product ||| rule sum ++ mark .plus ++ rule product |||
      rule sum ++ mark .minus ++ rule product
  | product =>
    rule unary ||| rule product ++ mark .star ++ rule unary |||
      rule product ++ mark .slash ++ rule unary ||| rule product ++ mark .percent ++ rule unary
  | unary => rule postfixed ||| mark .minus ++ rule unary ||| mark .bang ++ rule unary
  | postfixed =>
    rule primary |||
      rule postfixed ++ mark .leftBracket ++ rule expression ++ mark .rightBracket
  | primary =>
    terminal .number ||| terminal .string ||| keyword .true_ ||| keyword .false_ |||
      keyword .nil_ |||
      terminal .name ++ mark .leftParen ++ optional (rule arguments) ++ mark .rightParen |||
      terminal .name ||| mark .leftBracket ++ optional (rule arguments) ++ mark .rightBracket |||
      mark .leftParen ++ rule expression ++ mark .rightParen
  | arguments => rule expression ++ star (mark .comma ++ rule expression)

end Nonterminal

namespace Pattern

/-- The lists of terminals that can be derived from a pattern. -/
inductive Matches : Pattern → List Terminal → Prop
  | terminal (t : Terminal) : Matches (.terminal t) [t]
  | rule {n : Nonterminal} {w : List Terminal} : Matches n.pattern w → Matches (.rule n) w
  | seq {p q : Pattern} {u v : List Terminal} :
      Matches p u → Matches q v → Matches (p ++ q) (u ++ v)
  | left {p q : Pattern} {w : List Terminal} : Matches p w → Matches (p ||| q) w
  | right {p q : Pattern} {w : List Terminal} : Matches q w → Matches (p ||| q) w
  | absent {p : Pattern} : Matches (.optional p) []
  | present {p : Pattern} {w : List Terminal} : Matches p w → Matches (.optional p) w
  | done {p : Pattern} : Matches (.star p) []
  | more {p : Pattern} {u v : List Terminal} :
      Matches p u → Matches (.star p) v → Matches (.star p) (u ++ v)

def language (p : Pattern) : Language Terminal := { w | p.Matches w }

variable (p q : Pattern)

theorem language_terminal (t : Terminal) : (terminal t).language = {[t]} := by
  ext w
  constructor
  · rintro ⟨⟩
    rfl
  · rintro rfl
    exact .terminal t

theorem language_rule (n : Nonterminal) : (rule n).language = n.pattern.language := by
  ext w
  constructor
  · rintro ⟨⟩
    assumption
  · exact .rule

theorem language_seq : (p ++ q).language = p.language * q.language := by
  ext w
  rw [Language.mem_mul]
  constructor
  · generalize same : p ++ q = r
    intro h
    cases h with
    | seq hu hv =>
        cases same
        exact ⟨_, hu, _, hv, rfl⟩
    | _ => cases same
  · rintro ⟨u, hu, v, hv, rfl⟩
    exact .seq hu hv

theorem language_alt : (p ||| q).language = p.language + q.language := by
  ext w
  rw [Language.mem_add]
  constructor
  · generalize same : p ||| q = r
    intro h
    cases h with
    | left h =>
        cases same
        exact .inl h
    | right h =>
        cases same
        exact .inr h
    | _ => cases same
  · rintro (h | h)
    · exact .left h
    · exact .right h

theorem language_optional : (optional p).language = 1 + p.language := by
  ext w
  rw [Language.mem_add, Language.mem_one]
  constructor
  · intro h
    cases h with
    | absent => exact .inl rfl
    | present h => exact .inr h
  · rintro (rfl | h)
    · exact .absent
    · exact .present h

theorem language_star : (star p).language = p.language∗ := by
  apply le_antisymm
  · intro w h
    generalize same : star p = r at h
    induction h with
    | done => exact Language.nil_mem_kstar _
    | more hu _ _ ih =>
        cases same
        have grown : p.language * p.language∗ ≤ p.language∗ := mul_kstar_le_kstar
        exact grown (Language.append_mem_mul hu (ih rfl))
    | _ => cases same
  · apply kstar_le_of_mul_le_right
    · rintro w rfl
      exact .done
    · intro w h
      obtain ⟨u, hu, v, hv, rfl⟩ := Language.mem_mul.mp h
      exact .more hu hv

end Pattern

end Script
