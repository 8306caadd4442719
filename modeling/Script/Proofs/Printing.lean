import Script.Program.Stmt
import Script.Proofs.Acceptance
import Script.Proofs.WrittenLiterals

/-!
# Printing programs

The words of a program: an expression stands in parentheses only where it binds more loosely than
its place demands, a string has its special code points escaped, and everything else is written as
it is. A program can be written if its numbers are not negative and not too long and if its names
are names. All of its words are then proper.
-/

namespace Script

namespace Word

def name (n : Name) : Word := ⟨.name, n⟩

def keyword (k : Keyword) : Word := ⟨.keyword k, k.spelling⟩

def mark (m : Mark) : Word := ⟨.mark m, m.spelling⟩

/-- Words in parentheses if they bind too loosely for their place. -/
def guarded (loose : Bool) (words : List Word) : List Word :=
  if loose then mark .leftParen :: (words ++ [mark .rightParen]) else words

def braced (words : List Word) : List Word :=
  mark .leftBrace :: (words ++ [mark .rightBrace])

def names : List Name → List Word
  | [] => []
  | n :: rest => name n :: rest.flatMap fun n => [mark .comma, name n]

end Word

def Literal.word : Literal → Word
  | integer value => ⟨.number, Text.ofNat value.toNat⟩
  | string value => ⟨.string, StringLiteral.written value⟩
  | boolean true => .keyword .true_
  | boolean false => .keyword .false_
  | nil => .keyword .nil_

/-- How tightly an expression holds together: by the level of its operator if that is binary, then
unary operators, then indices, then everything else. -/
def Expr.strength : Expr → Nat
  | binary op _ _ _ => op.level
  | unary _ _ _ => 5
  | index _ _ _ => 6
  | literal _ | name _ _ | call _ _ _ | array _ => 7

mutual

def Expr.words : Expr → List Word
  | .literal value => [value.word]
  | .name name _ => [.name name]
  | .call callee arguments _ =>
    .name callee :: .mark .leftParen :: (listedWords arguments ++ [.mark .rightParen])
  | .array elements => .mark .leftBracket :: (listedWords elements ++ [.mark .rightBracket])
  | .index target index _ =>
    Word.guarded (target.strength < 6) target.words ++
      .mark .leftBracket :: (index.words ++ [.mark .rightBracket])
  | .unary op operand _ =>
    .mark op.mark :: Word.guarded (operand.strength < 5) operand.words
  | .binary op left right _ =>
    -- operators of one level group to the left
    Word.guarded (left.strength < op.level) left.words ++
      .mark op.mark :: Word.guarded (right.strength < op.level + 1) right.words
termination_by structural e => e

def listedWords : List Expr → List Word
  | [] => []
  | e :: rest => e.words ++ furtherWords rest
termination_by structural es => es

def furtherWords : List Expr → List Word
  | [] => []
  | e :: rest => .mark .comma :: (e.words ++ furtherWords rest)
termination_by structural es => es

end

mutual

def Stmt.words : Stmt → List Word
  | .block body => Word.braced (bodyWords body)
  | .declare name value =>
    .keyword .var_ :: .name name :: .mark .equal :: (value.words ++ [.mark .semicolon])
  | .assign name value _ => .name name :: .mark .equal :: (value.words ++ [.mark .semicolon])
  | .eval value => value.words ++ [.mark .semicolon]
  | .branch condition body otherwise =>
    .keyword .if_ :: (condition.words ++ (body.words ++ otherwise.words))
  | .loop condition body => .keyword .while_ :: (condition.words ++ body.words)
  | .return_ none => [.keyword .return_, .mark .semicolon]
  | .return_ (some value) => .keyword .return_ :: (value.words ++ [.mark .semicolon])
termination_by structural s => s

def Otherwise.words : Otherwise → List Word
  | .nothing => []
  | .stmt s => .keyword .else_ :: s.words
termination_by structural o => o

def Decl.words : Decl → List Word
  | .function name parameters body =>
    .keyword .fun_ :: .name name :: .mark .leftParen ::
      (Word.names parameters ++ .mark .rightParen :: Word.braced (bodyWords body))
  | .stmt s => s.words
termination_by structural d => d

def bodyWords : List Decl → List Word
  | [] => []
  | d :: rest => d.words ++ bodyWords rest
termination_by structural body => body

end

/-- The source of a program with one space between words. -/
def Program.written (program : Program) : Text :=
  Word.written (bodyWords program)

/-! What can be written. -/

def Stmt.isBlock : Stmt → Bool
  | .block _ => true
  | _ => false

def Stmt.isBranch : Stmt → Bool
  | .branch _ _ _ => true
  | _ => false

/-- A name that is no reserved word. -/
def Name.isWritable (n : Name) : Bool :=
  Terminal.name.spells n && Keyword.all.all (·.spelling != n)

/-- A number without a sign that is not too long, or any other constant. -/
def Literal.isWritable : Literal → Bool
  | integer value => 0 ≤ value && (Text.ofNat value.toNat).length ≤ maxDigits
  | string _ | boolean _ | nil => true

mutual

def Expr.isWritable : Expr → Bool
  | .literal value => value.isWritable
  | .name name _ => name.isWritable
  | .call callee arguments _ => callee.isWritable && areWritable arguments
  | .array elements => areWritable elements
  | .index target index _ => target.isWritable && index.isWritable
  | .unary _ operand _ => operand.isWritable
  | .binary _ left right _ => left.isWritable && right.isWritable
termination_by structural e => e

def areWritable : List Expr → Bool
  | [] => true
  | e :: rest => e.isWritable && areWritable rest
termination_by structural es => es

end

mutual

def Stmt.isWritable : Stmt → Bool
  | .block body => isWritableBody body
  | .declare name value | .assign name value _ => name.isWritable && value.isWritable
  | .eval value => value.isWritable
  | .branch condition body otherwise =>
    body.isBlock && condition.isWritable && body.isWritable && otherwise.isWritable
  | .loop condition body => body.isBlock && condition.isWritable && body.isWritable
  | .return_ value => value.all Expr.isWritable
termination_by structural s => s

def Otherwise.isWritable : Otherwise → Bool
  | .nothing => true
  | .stmt s => (s.isBlock || s.isBranch) && s.isWritable
termination_by structural o => o

def Decl.isWritable : Decl → Bool
  | .function name parameters body =>
    name.isWritable && parameters.all Name.isWritable && isWritableBody body
  | .stmt s => s.isWritable
termination_by structural d => d

def isWritableBody : List Decl → Bool
  | [] => true
  | d :: rest => d.isWritable && isWritableBody rest
termination_by structural body => body

end

/-- A program of which all numbers and names can be written, where the arms of branches and the
bodies of loops are blocks, and only branches stand in place of a second arm besides. -/
def Program.isWritable (program : Program) : Bool :=
  isWritableBody program

/-! Written words are proper. -/

/-- Every word is proper. -/
def AreProper (words : List Word) : Prop :=
  ∀ word ∈ words, word.IsProper

section Proper
variable {words more : List Word}

@[simp] theorem areProper_nil : AreProper [] :=
  fun _ mem => absurd mem List.not_mem_nil

@[simp] theorem areProper_cons {word : Word} :
    AreProper (word :: words) ↔ word.IsProper ∧ AreProper words :=
  List.forall_mem_cons

@[simp] theorem areProper_append : AreProper (words ++ more) ↔ AreProper words ∧ AreProper more :=
  List.forall_mem_append

@[simp] theorem isProper_keyword (k : Keyword) : (Word.keyword k).IsProper :=
  ⟨by simp [Word.keyword, Terminal.spells], nofun⟩

@[simp] theorem isProper_mark (m : Mark) : (Word.mark m).IsProper :=
  ⟨by simp [Word.mark, Terminal.spells], nofun⟩

theorem isProper_name {n : Name} (h : n.isWritable) : (Word.name n).IsProper := by
  rw [Name.isWritable, Bool.and_eq_true, List.all_eq_true] at h
  exact ⟨h.1, fun _ k mem => bne_iff_ne.mp (h.2 k mem)⟩

theorem isProper_literal (value : Literal) : value.word.IsProper := by
  cases value with
  | integer value => exact ⟨spells_ofNat _, nofun⟩
  | string value => exact ⟨StringLiteral.spells_written value, nofun⟩
  | boolean value => cases value <;> exact isProper_keyword _
  | nil => exact isProper_keyword _

@[simp] theorem areProper_guarded (loose : Bool) :
    AreProper (Word.guarded loose words) ↔ AreProper words := by
  cases loose <;> simp [Word.guarded]

@[simp] theorem areProper_braced : AreProper (Word.braced words) ↔ AreProper words := by
  simp [Word.braced]

theorem areProper_names {names : List Name} (h : names.all Name.isWritable) :
    AreProper (Word.names names) := by
  cases names with
  | nil => exact areProper_nil
  | cons n rest =>
    rw [List.all_cons, Bool.and_eq_true, List.all_eq_true] at h
    refine areProper_cons.mpr ⟨isProper_name h.1, fun word mem => ?_⟩
    obtain ⟨m, hm, mem⟩ := List.mem_flatMap.mp mem
    have pair : AreProper [Word.mark .comma, Word.name m] := by simp [isProper_name (h.2 m hm)]
    exact pair word mem

end Proper

mutual

theorem Expr.areProper_words : ∀ {e : Expr}, e.isWritable → AreProper e.words
  | .literal value, _ => by simp [Expr.words, isProper_literal]
  | .name name _, h => by simp [Expr.words, isProper_name h]
  | .call callee arguments _, h => by
    rw [Expr.isWritable, Bool.and_eq_true] at h
    simp [Expr.words, isProper_name h.1, areProper_listedWords h.2]
  | .array elements, h => by simp [Expr.words, areProper_listedWords h]
  | .index target index _, h => by
    rw [Expr.isWritable, Bool.and_eq_true] at h
    simp [Expr.words, target.areProper_words h.1, index.areProper_words h.2]
  | .unary op operand _, h => by simp [Expr.words, operand.areProper_words h]
  | .binary op left right _, h => by
    rw [Expr.isWritable, Bool.and_eq_true] at h
    simp [Expr.words, left.areProper_words h.1, right.areProper_words h.2]

theorem areProper_listedWords : ∀ {es : List Expr}, areWritable es → AreProper (listedWords es)
  | [], _ => areProper_nil
  | e :: rest, h => by
    rw [areWritable, Bool.and_eq_true] at h
    simp [listedWords, e.areProper_words h.1, areProper_furtherWords h.2]

theorem areProper_furtherWords : ∀ {es : List Expr}, areWritable es → AreProper (furtherWords es)
  | [], _ => areProper_nil
  | e :: rest, h => by
    rw [areWritable, Bool.and_eq_true] at h
    simp [furtherWords, e.areProper_words h.1, areProper_furtherWords h.2]

end

mutual

theorem Stmt.areProper_words : ∀ {statement : Stmt}, statement.isWritable →
    AreProper statement.words
  | .block body, h => by simp [Stmt.words, areProper_bodyWords h]
  | .declare name value, h => by
    rw [Stmt.isWritable, Bool.and_eq_true] at h
    simp [Stmt.words, isProper_name h.1, value.areProper_words h.2]
  | .assign name value _, h => by
    rw [Stmt.isWritable, Bool.and_eq_true] at h
    simp [Stmt.words, isProper_name h.1, value.areProper_words h.2]
  | .eval value, h => by simp [Stmt.words, value.areProper_words h]
  | .branch condition body otherwise, h => by
    rw [Stmt.isWritable, Bool.and_eq_true, Bool.and_eq_true, Bool.and_eq_true] at h
    simp [Stmt.words, condition.areProper_words h.1.1.2, body.areProper_words h.1.2,
      otherwise.areProper_words h.2]
  | .loop condition body, h => by
    rw [Stmt.isWritable, Bool.and_eq_true, Bool.and_eq_true] at h
    simp [Stmt.words, condition.areProper_words h.1.2, body.areProper_words h.2]
  | .return_ none, _ => by simp [Stmt.words]
  | .return_ (some value), h => by simp [Stmt.words, value.areProper_words h]

theorem Otherwise.areProper_words : ∀ {otherwise : Otherwise}, otherwise.isWritable →
    AreProper otherwise.words
  | .nothing, _ => areProper_nil
  | .stmt s, h => by
    rw [Otherwise.isWritable, Bool.and_eq_true] at h
    simp [Otherwise.words, s.areProper_words h.2]

theorem Decl.areProper_words : ∀ {d : Decl}, d.isWritable → AreProper d.words
  | .function name parameters body, h => by
    rw [Decl.isWritable, Bool.and_eq_true, Bool.and_eq_true] at h
    simp [Decl.words, isProper_name h.1.1, areProper_names h.1.2, areProper_bodyWords h.2]
  | .stmt s, h => s.areProper_words h

theorem areProper_bodyWords : ∀ {body : List Decl}, isWritableBody body →
    AreProper (bodyWords body)
  | [], _ => areProper_nil
  | d :: rest, h => by
    rw [isWritableBody, Bool.and_eq_true] at h
    simp [bodyWords, d.areProper_words h.1, areProper_bodyWords h.2]

end

end Script
