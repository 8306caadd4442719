import Mathlib.Data.List.Lex
import Mathlib.Data.List.Sort
import Script.Program.Check
import Script.Proofs.Printing

/-!
# Violations of the rules on programs

A function violates the rules if a parameter is repeated, and a return statement if no function
stands around it. A program is checked by going through its statements in the order of the source,
where a function comes before its body, and the first violation is the one that is reported.
-/

namespace Script

/-! ### Repeated names -/

theorem mem_insert {n name : Name} {names : List Name} :
    n ∈ Name.insert name names ↔ n = name ∨ n ∈ names := by
  induction names with
  | nil => simp [Name.insert]
  | cons other rest ih =>
      rw [Name.insert]
      split
      · rename_i same
        simp [same]
      · split
        · exact List.mem_cons
        · rw [List.mem_cons, List.mem_cons, ih, or_left_comm]

theorem pairwise_insert {names : List Name} (sorted : names.Pairwise (· < ·)) (name : Name) :
    (Name.insert name names).Pairwise (· < ·) := by
  induction names with
  | nil => exact List.pairwise_singleton _ name
  | cons other rest ih =>
      obtain ⟨least, sorted'⟩ := List.pairwise_cons.mp sorted
      rw [Name.insert]
      split
      · exact sorted
      · split
        · rename_i less
          refine List.pairwise_cons.mpr ⟨fun n mem => ?_, sorted⟩
          rcases List.mem_cons.mp mem with rfl | mem
          · exact less
          · exact lt_trans less (least n mem)
        · rename_i differs notLess
          have greater : other < name := lt_of_le_of_ne (not_lt.mp notLess) (Ne.symm differs)
          refine List.pairwise_cons.mpr ⟨fun n mem => ?_, ih sorted'⟩
          rcases mem_insert.mp mem with rfl | mem
          · exact greater
          · exact least n mem

theorem mem_repeated {n : Name} {names : List Name} :
    n ∈ repeated names ↔ 2 ≤ names.count n := by
  induction names with
  | nil => simp [repeated]
  | cons name rest ih =>
      rw [repeated, List.count_cons]
      by_cases same : name = n
      · subst same
        by_cases again : name ∈ rest
        · have positive := List.count_pos_iff.mpr again
          simp [again, mem_insert]
        · simp [again, ih, List.count_eq_zero_of_not_mem again]
      · split
        · simp [mem_insert, same, Ne.symm same, ih]
        · simp [same, ih]

theorem pairwise_repeated (names : List Name) : (repeated names).Pairwise (· < ·) := by
  induction names with
  | nil => exact .nil
  | cons name rest ih =>
      rw [repeated]
      split
      · exact pairwise_insert ih name
      · exact ih

theorem repeated_eq_nil_iff {names : List Name} : repeated names = [] ↔ names.Nodup := by
  simp only [List.eq_nil_iff_forall_not_mem, mem_repeated, List.nodup_iff_count_le_one]
  exact forall_congr' fun n => by omega

/-! ### Statements, functions and what stands around them -/

def Decl.isFunction : Decl → Bool
  | .function _ _ _ => true
  | .stmt _ => false

/-- A statement or a function with those that it stands in, the innermost first. -/
structure Place where
  decl : Decl
  around : List Decl

mutual

/-- A statement and everything in it, in the order of the source. -/
def Stmt.places (around : List Decl) : Stmt → List Place
  | .block body => ⟨.stmt (.block body), around⟩ :: bodyPlaces (.stmt (.block body) :: around) body
  | .branch condition body otherwise =>
    ⟨.stmt (.branch condition body otherwise), around⟩ ::
      (body.places (.stmt (.branch condition body otherwise) :: around) ++
        otherwise.places (.stmt (.branch condition body otherwise) :: around))
  | .loop condition body =>
    ⟨.stmt (.loop condition body), around⟩ :: body.places (.stmt (.loop condition body) :: around)
  | .declare name value => [⟨.stmt (.declare name value), around⟩]
  | .assign name value position => [⟨.stmt (.assign name value position), around⟩]
  | .eval value => [⟨.stmt (.eval value), around⟩]
  | .return_ value => [⟨.stmt (.return_ value), around⟩]
termination_by structural s => s

def Otherwise.places (around : List Decl) : Otherwise → List Place
  | .nothing => []
  | .stmt s => s.places around
termination_by structural o => o

def Decl.places (around : List Decl) : Decl → List Place
  | .function name parameters body =>
    ⟨.function name parameters body, around⟩ ::
      bodyPlaces (.function name parameters body :: around) body
  | .stmt s => s.places around
termination_by structural d => d

def bodyPlaces (around : List Decl) : List Decl → List Place
  | [] => []
  | d :: rest => d.places around ++ bodyPlaces around rest
termination_by structural body => body

end

def Program.places (program : Program) : List Place :=
  bodyPlaces [] program

/-- What violates a rule. The repeated parameters of a function are reported in their order,
each of them once. -/
inductive Place.Violates : Place → RuleError → Prop
  | parameters (name : Name) {parameters names : List Name} (body around : List Decl) :
      names ≠ [] → names.Pairwise (· < ·) → (∀ n, n ∈ names ↔ 2 ≤ parameters.count n) →
      Violates ⟨.function name parameters body, around⟩ (.duplicateParameters name names)
  | stray {around : List Decl} (value : Option Expr) : (∀ d ∈ around, ¬d.isFunction) →
      Violates ⟨.stmt (.return_ value), around⟩ .strayReturn

/-! ### Going through the places -/

/-- The rule that is violated at a place, if one is. -/
def Place.violation? : Place → Option RuleError
  | ⟨.function name parameters _, _⟩ =>
    match repeated parameters with
    | [] => none
    | names => some (.duplicateParameters name names)
  | ⟨.stmt (.return_ _), around⟩ =>
    if around.any Decl.isFunction then none else some .strayReturn
  | _ => none

theorem Place.violates_iff {place : Place} {e : RuleError} :
    place.Violates e ↔ place.violation? = some e := by
  constructor
  · rintro (⟨name, body, around, some, sorted, mem⟩ | ⟨value, outside⟩)
    · rename_i parameters names
      have same : repeated parameters = names :=
        (pairwise_repeated parameters).eq_of_mem_iff sorted fun n => by rw [mem_repeated, mem]
      rw [violation?, same]
      split
      · exact absurd rfl some
      · rfl
    · rename_i around
      have none : ¬around.any Decl.isFunction := by simpa using outside
      exact if_neg none
  · intro found
    obtain ⟨d, around⟩ := place
    cases d with
    | function name parameters body =>
        rw [violation?] at found
        split at found
        · cases found
        · rename_i some
          cases found
          exact .parameters name body around some (pairwise_repeated parameters)
            fun _ => mem_repeated
    | stmt s =>
        cases s with
        | return_ value =>
            rw [violation?] at found
            split at found
            · cases found
            · rename_i none
              cases found
              exact .stray value (by simpa using none)
        | _ => cases found

def firstViolation (places : List Place) : Except RuleError Unit :=
  match places.findSome? Place.violation? with
  | none => .ok ()
  | some e => .error e

theorem firstViolation_cons_of_none {place : Place} (orderly : place.violation? = none)
    (places : List Place) : firstViolation (place :: places) = firstViolation places := by
  rw [firstViolation, List.findSome?_cons, orderly]
  rfl

theorem firstViolation_append (places more : List Place) :
    firstViolation (places ++ more) = (do firstViolation places; firstViolation more) := by
  simp only [firstViolation, List.findSome?_append]
  cases places.findSome? Place.violation? <;> rfl

theorem firstViolation_function (name : Name) (parameters : List Name) (body around : List Decl)
    (places : List Place) :
    firstViolation (⟨.function name parameters body, around⟩ :: places) =
      (do checkParameters name parameters; firstViolation places) := by
  rw [← List.singleton_append, firstViolation_append]
  simp only [firstViolation, checkParameters, List.findSome?_singleton, Place.violation?]
  cases repeated parameters <;> rfl

section Checked

mutual

/-- A statement is checked by going through its places, which tell whether it is in a function. -/
theorem Stmt.check_eq (around : List Decl) :
    ∀ s : Stmt, s.check (around.any Decl.isFunction) = firstViolation (s.places around)
  | .block body => by
      rw [Stmt.places, firstViolation_cons_of_none rfl, ← checkBody_eq]
      rfl
  | .declare _ _ => rfl
  | .assign _ _ _ => rfl
  | .eval _ => rfl
  | .branch condition body otherwise => by
      rw [Stmt.places, firstViolation_cons_of_none rfl, firstViolation_append, ← Stmt.check_eq,
        ← Otherwise.check_eq]
      rfl
  | .loop condition body => by
      rw [Stmt.places, firstViolation_cons_of_none rfl, ← Stmt.check_eq]
      rfl
  | .return_ value => by
      rw [Stmt.check, Stmt.places, firstViolation, List.findSome?_singleton, Place.violation?]
      split <;> rfl

theorem Otherwise.check_eq (around : List Decl) :
    ∀ o : Otherwise, o.check (around.any Decl.isFunction) = firstViolation (o.places around)
  | .nothing => rfl
  | .stmt s => s.check_eq around

theorem Decl.check_eq (around : List Decl) :
    ∀ d : Decl, d.check (around.any Decl.isFunction) = firstViolation (d.places around)
  | .function name parameters body => by
      rw [Decl.places, firstViolation_function, ← checkBody_eq]
      rfl
  | .stmt s => s.check_eq around

theorem checkBody_eq (around : List Decl) :
    ∀ body : List Decl,
      checkBody (around.any Decl.isFunction) body = firstViolation (bodyPlaces around body)
  | [] => rfl
  | d :: rest => by
      rw [bodyPlaces, firstViolation_append, ← Decl.check_eq, ← checkBody_eq]
      rfl

end

end Checked

theorem Program.check_eq (program : Program) : program.check = firstViolation program.places :=
  checkBody_eq [] program

/-! ### The order of the source -/

/-- The words at these places start one after the other in a list of words. -/
inductive StartInOrder : List Word → List Place → Prop
  | done (words : List Word) : StartInOrder words []
  | skip (w : Word) {words : List Word} {places : List Place} : StartInOrder words places →
      StartInOrder (w :: words) places
  | start {w : Word} {words : List Word} {place : Place} {places : List Place} :
      place.decl.words <+: w :: words → StartInOrder words places →
      StartInOrder (w :: words) (place :: places)

namespace StartInOrder
variable {words more : List Word} {places others : List Place}

theorem after (h : StartInOrder words places) (front : List Word) :
    StartInOrder (front ++ words) places := by
  induction front with
  | nil => exact h
  | cons w front ih => exact .skip w ih

theorem append (h : StartInOrder words places) (h' : StartInOrder more others) :
    StartInOrder (words ++ more) (places ++ others) := by
  induction h with
  | done words => exact h'.after words
  | skip w _ ih => exact .skip w ih
  | start here _ ih => exact .start (here.trans (List.prefix_append _ more)) ih

theorem before (h : StartInOrder words places) (behind : List Word) :
    StartInOrder (words ++ behind) places := by
  have both := h.append (.done behind)
  rwa [List.append_nil] at both

theorem braced (h : StartInOrder words places) : StartInOrder (Word.braced words) places :=
  .skip _ (h.before _)

/-- Behind the first word of something there is what stands in it. -/
theorem within {d : Decl} {w : Word} {around : List Decl} (same : d.words = w :: words)
    (h : StartInOrder words places) : StartInOrder d.words (⟨d, around⟩ :: places) := by
  rw [same]
  exact .start (same ▸ List.prefix_refl _) h

end StartInOrder

mutual

theorem Stmt.startInOrder (around : List Decl) :
    ∀ s : Stmt, StartInOrder s.words (s.places around)
  | .block body =>
    .within (d := .stmt (.block body)) rfl ((startInOrder_body _ body).before _)
  | .declare name value => .within (d := .stmt (.declare name value)) rfl (.done _)
  | .assign name value position =>
    .within (d := .stmt (.assign name value position)) rfl (.done _)
  | .eval value => by
      have some : value.words ++ [Word.mark .semicolon] ≠ [] := by simp
      obtain ⟨w, words, split⟩ := List.exists_cons_of_ne_nil some
      exact .within (d := .stmt (.eval value)) split (.done _)
  | .branch condition body otherwise => by
      have inner := (body.startInOrder (.stmt (.branch condition body otherwise) :: around)).append
        (otherwise.startInOrder (.stmt (.branch condition body otherwise) :: around))
      exact .within (d := .stmt (.branch condition body otherwise)) rfl (inner.after _)
  | .loop condition body =>
    .within (d := .stmt (.loop condition body)) rfl ((body.startInOrder _).after _)
  | .return_ none => .within (d := .stmt (.return_ none)) rfl (.done _)
  | .return_ (some value) => .within (d := .stmt (.return_ (some value))) rfl (.done _)

theorem Otherwise.startInOrder (around : List Decl) :
    ∀ o : Otherwise, StartInOrder o.words (o.places around)
  | .nothing => .done _
  | .stmt s => .skip _ (s.startInOrder around)

theorem Decl.startInOrder (around : List Decl) :
    ∀ d : Decl, StartInOrder d.words (d.places around)
  | .function name parameters body => by
      have inner := (startInOrder_body (.function name parameters body :: around) body).braced
      exact .within (d := .function name parameters body) rfl
        ((inner.skip _).after _ |>.skip _ |>.skip _)
  | .stmt s => s.startInOrder around

theorem startInOrder_body (around : List Decl) :
    ∀ body : List Decl, StartInOrder (bodyWords body) (bodyPlaces around body)
  | [] => .done _
  | d :: rest => (d.startInOrder around).append (startInOrder_body around rest)

end

/-! ### What a check reports -/

theorem firstViolation_eq_error {places : List Place} {e : RuleError} :
    firstViolation places = .error e ↔ places.findSome? Place.violation? = some e := by
  rw [firstViolation]
  cases places.findSome? Place.violation? <;> simp

theorem firstViolation_eq_error_iff {places : List Place} {e : RuleError} :
    firstViolation places = .error e ↔
      ∃ before place behind, places = before ++ place :: behind ∧ place.Violates e ∧
        ∀ p ∈ before, ∀ other, ¬p.Violates other := by
  simp only [firstViolation_eq_error, List.findSome?_eq_some_iff, Place.violates_iff,
    Option.eq_none_iff_forall_ne_some, ne_eq]

theorem exists_firstViolation_iff {places : List Place} :
    (∃ e, firstViolation places = .error e) ↔ ∃ place ∈ places, ∃ e, place.Violates e := by
  simp only [firstViolation_eq_error, Place.violates_iff, ← Option.isSome_iff_exists,
    List.findSome?_isSome_iff]

theorem Place.violates_function_iff {name : Name} {parameters : List Name}
    {body around : List Decl} :
    (∃ e, Violates ⟨.function name parameters body, around⟩ e) ↔ ¬parameters.Nodup := by
  simp only [Place.violates_iff, Place.violation?, ← repeated_eq_nil_iff]
  cases repeated parameters <;> simp

theorem Place.violates_return_iff {value : Option Expr} {around : List Decl} :
    (∃ e, Violates ⟨.stmt (.return_ value), around⟩ e) ↔ ∀ d ∈ around, ¬d.isFunction := by
  simp [Place.violates_iff, Place.violation?]

/-- A program is rejected if and only if it has, at any depth, a function with a repeated parameter
or a return statement that no function stands around. The violation that is reported is then the
first one in the order of the words of the program. -/
theorem Program.check_reports_first (program : Program) :
    ((∃ e, program.check = .error e) ↔
      (∃ name parameters body around,
        ⟨.function name parameters body, around⟩ ∈ program.places ∧ ¬parameters.Nodup) ∨
      ∃ value around, ⟨.stmt (.return_ value), around⟩ ∈ program.places ∧
        ∀ d ∈ around, ¬d.isFunction) ∧
    (∀ e, program.check = .error e ↔
      ∃ before place behind, program.places = before ++ place :: behind ∧ place.Violates e ∧
        ∀ p ∈ before, ∀ other, ¬p.Violates other) ∧
    StartInOrder (bodyWords program) program.places := by
  refine ⟨?_, fun e => ?_, startInOrder_body [] program⟩
  · rw [Program.check_eq, exists_firstViolation_iff]
    constructor
    · rintro ⟨_, mem, _, ⟨name, body, around, some, sorted, repeats⟩ | ⟨value, outside⟩⟩
      · have violates := Place.Violates.parameters name body around some sorted repeats
        exact .inl ⟨name, _, body, around, mem, Place.violates_function_iff.mp ⟨_, violates⟩⟩
      · exact .inr ⟨value, _, mem, outside⟩
    · rintro (⟨name, parameters, body, around, mem, twice⟩ | ⟨value, around, mem, outside⟩)
      · exact ⟨_, mem, Place.violates_function_iff.mpr twice⟩
      · exact ⟨_, mem, Place.violates_return_iff.mpr outside⟩
  · rw [Program.check_eq, firstViolation_eq_error_iff]

example : Program.check [.stmt (.loop (.literal .nil) (.return_ none))] = .error .strayReturn :=
  rfl

end Script
