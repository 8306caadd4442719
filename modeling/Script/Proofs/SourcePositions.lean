import Script.Proofs.Derivations

/-!
# Positions in the source

The tokens that are read of a source stand in it at their positions, where lines are counted by line
feeds and columns by code points. They make up the program that is read, so that every node of the
program has the position of the token that it begins with, up to the parentheses around it.
-/

namespace Script

/-- A token stands in a source at its position, and a name is a whole word there. -/
def Token.StandsIn (source : Text) (token : Token) : Prop :=
  ∃ before behind, source = before ++ (token.lexeme ++ behind) ∧
    token.position =
      ⟨before.count .lineFeed + 1, (before.rtakeWhile (· != .lineFeed)).length + 1⟩ ∧
    token.terminal.spells token.lexeme ∧ (token.terminal = .name → IsWordEnd behind)

namespace Unfinished.Reads
variable [CharacterNames] {s t : Unfinished} {place : Cursor} {tokens : List Token}

theorem laid (h : s.Reads place tokens t) : Laid place.position place.rest tokens := by
  induction h with
  | done finished => exact .done (Cursor.next_finished finished)
  | token found _ _ ih =>
      obtain ⟨spells, gap, form, same, start, behind⟩ := Cursor.next_sound found
      rw [same]
      rw [behind] at ih
      exact .token form spells start ih

theorem standsIn {source : Text} (h : s.Reads ⟨source, .start⟩ tokens t) :
    ∀ token ∈ tokens, token.StandsIn source := by
  intro token mem
  obtain ⟨before, behind, split, stands, mayCome, looked⟩ :=
    h.found (List.nil_append source).symm rfl token mem
  refine ⟨before, behind, split, stands.trans (Position.start_afterText before),
    (spells_of_lookup? looked).1, fun name => ?_⟩
  rw [name] at looked
  exact isWordEnd_of_lookup? looked

end Unfinished.Reads

theorem HeadedAt.isIn [CharacterNames] {source : Text} {tokens : List Token} {node : Node}
    (h : HeadedAt tokens node) (stands : ∀ token ∈ tokens, token.StandsIn source) :
    node.position.IsIn source node.name? := by
  have word {i : Nat} {n : Name} {p : Position} (here : tokens[i]? = some ⟨.name, n, p⟩) :
      p.IsIn source (some n) := by
    obtain ⟨before, behind, split, position, spells, ends⟩ := stands _ (List.mem_of_getElem? here)
    refine ⟨before, _, split, position.trans (Position.start_afterText before).symm, ?_⟩
    rintro _ ⟨⟩
    exact ⟨behind, rfl, spells, ends rfl⟩
  have mark {i : Nat} {p : Position} (start : Starts tokens i p) : p.IsIn source none := by
    obtain ⟨token, here, rfl⟩ := start
    obtain ⟨before, behind, split, position, -⟩ := stands token (List.mem_of_getElem? here)
    exact ⟨before, _, split, position.trans (Position.start_afterText before).symm, nofun⟩
  cases h with
  | name here => exact word here
  | call here _ => exact word here
  | assign here _ => exact word here
  | unary _ start => exact mark start
  | binary _ start _ => exact mark start
  | index _ start _ => exact mark start

namespace Program

section Parsed
variable [CharacterNames] {source : Text} {program : Program}

/-- The tokens of a source that is read make up the program. -/
theorem bodyAt_of_parse (parsed : parse source = .ok program) :
    Laid .start source (tokens source) ∧ (∀ token ∈ tokens source, token.StandsIn source) ∧
      BodyAt (tokens source) 0 (tokens source).length program := by
  obtain ⟨t, reads, whole, none⟩ := Unfinished.exists_reads_of_read parsed
  exact ⟨reads.laid, reads.standsIn, reads.bodyAt none whole⟩

theorem isIn_of_parse (parsed : parse source = .ok program) :
    ∀ node ∈ bodyNodes program, node.position.IsIn source node.name? := by
  obtain ⟨-, stands, body⟩ := bodyAt_of_parse parsed
  exact fun node mem => (body.headed node mem).isIn stands

/-- The tokens of a source that is read stand in it one behind the other, each of them at its
position, and they make up the program. So each of its nodes has the position of the token that it
begins with, which is a place in the source. -/
theorem positions_of_parse (parsed : parse source = .ok program) :
    Laid .start source (tokens source) ∧ (∀ token ∈ tokens source, token.StandsIn source) ∧
      BodyAt (tokens source) 0 (tokens source).length program ∧
      ∀ node ∈ bodyNodes program, HeadedAt (tokens source) node ∧ node.position ≠ .nowhere := by
  obtain ⟨laid, stands, body⟩ := bodyAt_of_parse parsed
  refine ⟨laid, stands, body, fun node mem => ⟨body.headed node mem, fun nowhere => ?_⟩⟩
  have line := (isIn_of_parse parsed node mem).one_le.1
  rw [nowhere] at line
  cases line

end Parsed

/-- The parenthesis belongs to the target of the index, but not to the sum. -/
theorem positions_of_parse_parentheses :
    letI : CharacterNames := .ofList [(text "BULLET", 0x2022)]
    let source := text "\n(a+\"\\N\x7bBULLET\x7d\")[c];"
    let program : Program := [.stmt (.eval (.index
      (.binary .add (.name (text "a") ⟨2, 2⟩) (.literal (.string [0x2022])) ⟨2, 2⟩)
      (.name (text "c") ⟨2, 18⟩) ⟨2, 1⟩))]
    parse source = .ok program ∧ BodyAt (tokens source) 0 (tokens source).length program := by
  intro source program
  let _ : CharacterNames := .ofList [(text "BULLET", 0x2022)]
  have parsed : parse source = .ok program := by
    unfold source program
    cbv
  obtain ⟨-, -, derived, -⟩ := positions_of_parse parsed
  exact ⟨parsed, derived⟩

end Program

end Script
