import Script.Source.Token

/-!
# Reading tokens from a source

Which token stands at a place depends on the terminals that may come there: a reserved word is a
name wherever the word cannot be used, and of two marks that both fit the longer one is read only
if it may come. Where nothing that may come fits, the token that stands there among all terminals
is read instead, so that it can be reported. White space and comments between tokens are skipped.
-/

namespace Script

structure Cursor where
  rest : Text
  position : Position
  deriving Repr, DecidableEq

/-- The white space of sources: tab, form feed, carriage return, line feed and space. -/
def CodePoint.isSpace (c : CodePoint) : Bool :=
  c = 0x09 || c = 0x0A || c = 0x0C || c = 0x0D || c = 0x20

mutual

def skipGap (p : Position) : Text → Cursor
  | [] => ⟨[], p⟩
  | c :: rest =>
    if c.isSpace then skipGap (p.after c) rest
    else if c = CodePoint.ofChar '/' then
      match rest with
      | [] => ⟨[c], p⟩
      | d :: more =>
        if d = CodePoint.ofChar '/' then skipComment ((p.after c).after d) more
        else ⟨c :: d :: more, p⟩
    else ⟨c :: rest, p⟩

/-- Skips the rest of a comment, which ends with its line, and the gap that follows. -/
def skipComment (p : Position) : Text → Cursor
  | [] => ⟨[], p⟩
  | c :: rest =>
    if c = .lineFeed then skipGap (p.after c) rest else skipComment (p.after c) rest

end

/-- The text up to the quotation mark that closes a string, that mark included, if the string is
closed on its line. A backslash takes the next code point along. -/
def closeString? : Text → Option Text
  | [] => none
  | c :: rest =>
    if c = .quotationMark then some [c]
    else if c = .lineFeed then none
    else if c = .backslash then
      match rest with
      | [] => none
      | d :: more => if d = .lineFeed then none else (closeString? more).map (c :: d :: ·)
    else (closeString? rest).map (c :: ·)

/-- The terminal of a word: a keyword if that may come, and a name otherwise. -/
def wordTerminal (mayCome : Terminal → Bool) (word : Text) : Terminal :=
  match Keyword.all.find? fun k => mayCome (.keyword k) && k.spelling == word with
  | some k => .keyword k
  | none => .name

/-- The terminals of one spelling with that spelling, longer marks first. -/
def fixedTerminals : List (Terminal × Text) :=
  Mark.all.map (fun m => (.mark m, m.spelling)) ++
    Keyword.all.map (fun k => (.keyword k, k.spelling))

/-- The lexeme at the front of a source, for the terminals that may come. -/
def lexeme? (mayCome : Terminal → Bool) : Text → Option (Terminal × Text)
  | [] => none
  | c :: rest =>
    if c.isNameStart && mayCome .name then
      let word := c :: rest.takeWhile CodePoint.isNamePart
      some (wordTerminal mayCome word, word)
    else if c.isDigit && mayCome .number then
      some (.number, c :: rest.takeWhile CodePoint.isDigit)
    else if c == .quotationMark && mayCome .string then
      (closeString? rest).map fun body => (.string, c :: body)
    else
      fixedTerminals.find? fun (t, spelling) => mayCome t && spelling.isPrefixOf (c :: rest)

/-- What stands at a place: nothing more, a token, or a character that starts no token. -/
inductive Lexed where
  | finished
  | token (token : Token) (next : Cursor)
  | stuck (c : CodePoint) (position : Position)
  deriving Repr, DecidableEq

/-- Reads on behind the gap at a place. -/
def Cursor.next (mayCome : Terminal → Bool) (place : Cursor) : Lexed :=
  let here := skipGap place.position place.rest
  match here.rest with
  | [] => .finished
  | c :: _ =>
    match (lexeme? mayCome here.rest).or (lexeme? (fun _ => true) here.rest) with
    | some (terminal, lexeme) =>
      .token ⟨terminal, lexeme, here.position⟩
        ⟨here.rest.drop lexeme.length, here.position.afterText lexeme⟩
    | none => .stuck c here.position

mutual

theorem length_skipGap_le (p : Position) (t : Text) :
    (skipGap p t).rest.length ≤ t.length := by
  match t with
  | [] => simp [skipGap]
  | c :: rest =>
    rw [skipGap.eq_def]; simp only
    split
    · exact Nat.le_succ_of_le (length_skipGap_le _ rest)
    · split
      · match rest with
        | [] => simp
        | d :: more =>
          simp only
          split
          · exact Nat.le_succ_of_le (Nat.le_succ_of_le (length_skipComment_le _ more))
          · simp
      · simp

theorem length_skipComment_le (p : Position) (t : Text) :
    (skipComment p t).rest.length ≤ t.length := by
  match t with
  | [] => simp [skipComment]
  | c :: rest =>
    rw [skipComment]
    split
    · exact Nat.le_succ_of_le (length_skipGap_le _ rest)
    · exact Nat.le_succ_of_le (length_skipComment_le _ rest)

end

theorem fixedTerminals_ne_nil {t : Terminal} {spelling : Text}
    (h : (t, spelling) ∈ fixedTerminals) : spelling ≠ [] := by
  revert h
  revert t spelling
  have : ∀ p ∈ fixedTerminals, p.2 ≠ [] := by decide
  exact fun {t spelling} h => this (t, spelling) h

/-- A lexeme takes at least one code point. -/
theorem lexeme?_ne_nil {mayCome : Terminal → Bool} {source : Text} {t : Terminal} {w : Text}
    (h : lexeme? mayCome source = some (t, w)) : w ≠ [] := by
  unfold lexeme? at h
  split at h
  · simp at h
  · split at h
    · simp at h; simp [← h.2]
    · split at h
      · simp at h; simp [← h.2]
      · split at h
        · obtain ⟨body, _, h⟩ := Option.map_eq_some_iff.1 h
          simp at h; simp [← h.2]
        · exact fixedTerminals_ne_nil (List.mem_of_find?_eq_some h)

/-- A token shortens what is left of the source. -/
theorem Cursor.next_lt {mayCome : Terminal → Bool} {place next : Cursor} {token : Token}
    (h : place.next mayCome = .token token next) : next.rest.length < place.rest.length := by
  unfold Cursor.next at h
  simp only at h
  split at h
  · simp at h
  · rename_i c cs hrest
    split at h
    · rename_i terminal lexeme hlex
      simp only [Lexed.token.injEq] at h
      have hne : lexeme ≠ [] := by
        rcases Option.or_eq_some_iff.1 hlex with h | ⟨_, h⟩
        · exact lexeme?_ne_nil h
        · exact lexeme?_ne_nil h
      have hpos : 0 < lexeme.length := List.length_pos_iff.2 hne
      have hle := length_skipGap_le place.position place.rest
      rw [← h.2, List.length_drop]
      have : 0 < (skipGap place.position place.rest).rest.length := by simp [hrest]
      omega
    · simp at h

end Script
