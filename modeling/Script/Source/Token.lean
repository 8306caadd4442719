import Script.Source.Position

/-!
# Tokens

The terminals of the grammar and the tokens of a source. Keywords and marks have one spelling each;
names, numbers and strings have many. Every terminal also has a label, which error reports use.
-/

namespace Script

inductive Keyword where
  | fun_ | var_ | if_ | else_ | while_ | return_ | true_ | false_ | nil_
  deriving Repr, DecidableEq

inductive Mark where
  | equalEqual | bangEqual | lessEqual | greaterEqual
  | leftParen | rightParen | leftBrace | rightBrace | leftBracket | rightBracket
  | comma | semicolon | equal | less | greater | plus | minus | star | slash | percent | bang
  deriving Repr, DecidableEq

inductive Terminal where
  | name
  | number
  | string
  | keyword (word : Keyword)
  | mark (mark : Mark)
  | endOfInput
  deriving Repr, DecidableEq

namespace Keyword

def all : List Keyword :=
  [fun_, var_, if_, else_, while_, return_, true_, false_, nil_]

theorem mem_all (k : Keyword) : k ∈ all := by
  cases k <;> decide

def spelling : Keyword → Text
  | fun_ => text "fun"
  | var_ => text "var"
  | if_ => text "if"
  | else_ => text "else"
  | while_ => text "while"
  | return_ => text "return"
  | true_ => text "true"
  | false_ => text "false"
  | nil_ => text "nil"

def label : Keyword → Text
  | fun_ => text "FUN"
  | var_ => text "VAR"
  | if_ => text "IF"
  | else_ => text "ELSE"
  | while_ => text "WHILE"
  | return_ => text "RETURN"
  | true_ => text "TRUE"
  | false_ => text "FALSE"
  | nil_ => text "NIL"

end Keyword

namespace Mark

/-- All marks, the longer ones first, so that the first that fits is the longest. -/
def all : List Mark :=
  [equalEqual, bangEqual, lessEqual, greaterEqual, leftParen, rightParen, leftBrace, rightBrace,
    leftBracket, rightBracket, comma, semicolon, equal, less, greater, plus, minus, star, slash,
    percent, bang]

theorem mem_all (m : Mark) : m ∈ all := by
  cases m <;> decide

def spelling : Mark → Text
  | equalEqual => text "=="
  | bangEqual => text "!="
  | lessEqual => text "<="
  | greaterEqual => text ">="
  | leftParen => text "("
  | rightParen => text ")"
  | leftBrace => text "\x7b"
  | rightBrace => text "\x7d"
  | leftBracket => text "["
  | rightBracket => text "]"
  | comma => text ","
  | semicolon => text ";"
  | equal => text "="
  | less => text "<"
  | greater => text ">"
  | plus => text "+"
  | minus => text "-"
  | star => text "*"
  | slash => text "/"
  | percent => text "%"
  | bang => text "!"

def label : Mark → Text
  | equalEqual => text "__ANON_0"
  | bangEqual => text "__ANON_1"
  | lessEqual => text "__ANON_2"
  | greaterEqual => text "__ANON_3"
  | leftParen => text "LPAR"
  | rightParen => text "RPAR"
  | leftBrace => text "LBRACE"
  | rightBrace => text "RBRACE"
  | leftBracket => text "LSQB"
  | rightBracket => text "RSQB"
  | comma => text "COMMA"
  | semicolon => text "SEMICOLON"
  | equal => text "EQUAL"
  | less => text "LESSTHAN"
  | greater => text "MORETHAN"
  | plus => text "PLUS"
  | minus => text "MINUS"
  | star => text "STAR"
  | slash => text "SLASH"
  | percent => text "PERCENT"
  | bang => text "BANG"

end Mark

def Terminal.label : Terminal → Text
  | name => text "NAME"
  | number => text "NUMBER"
  | string => text "STRING"
  | keyword k => k.label
  | mark m => m.label
  | endOfInput => text "$END"

structure Token where
  terminal : Terminal
  lexeme : Text
  position : Position
  deriving Repr, DecidableEq

end Script
