import CatalogQuery.Proofs.Sql.Tables
import Mathlib.Data.List.Dedup

/-!
# What predicates mean

A predicate is true, false or, where nothing is compared with something, unknown. It is evaluated on
the rows that the tables in sight show; a subquery adds the rows of its own tables, which hide those of
tables with the same name. What a database computes of its own accord, such as an order of values or an
aggregate of them, is left open. Main statements: when membership in a list is true and when it is
false, and what an existential test asks for.
-/

namespace CatalogQuery.Sql

/-! ## Truth values -/

/-- True, false or unknown. -/
abbrev Truth := Option Bool

namespace Truth

def not (t : Truth) : Truth := t.map (!·)

/-- The conjunction: one that is false decides. -/
def all (ts : List Truth) : Truth :=
  if some false ∈ ts then some false else if none ∈ ts then none else some true

/-- The disjunction: one that is true decides. -/
def any (ts : List Truth) : Truth :=
  if some true ∈ ts then some true else if none ∈ ts then none else some false

def glue : Glue → List Truth → Truth
  | .and => all
  | .or => any

/-- The truth of a test that may be written in the negative. -/
def negated (negative : Bool) (t : Truth) : Truth := if negative then t.not else t

theorem any_eq_true {ts : List Truth} : any ts = some true ↔ some true ∈ ts := by
  unfold any
  by_cases htrue : some true ∈ ts
  · simp [htrue]
  · by_cases hnone : none ∈ ts <;> simp [htrue, hnone]

theorem any_eq_false {ts : List Truth} : any ts = some false ↔ ∀ t ∈ ts, t = some false := by
  unfold any
  by_cases htrue : some true ∈ ts
  · simp only [htrue, if_true, Option.some.injEq, Bool.true_eq_false, false_iff]
    intro hall
    cases hall _ htrue
  by_cases hnone : none ∈ ts
  · simp only [htrue, hnone, if_true, if_false, reduceCtorEq, false_iff]
    intro hall
    cases hall _ hnone
  · simp only [htrue, hnone, if_false, true_iff]
    intro t ht
    cases t with
    | none => exact absurd ht hnone
    | some b =>
      cases b with
      | true => exact absurd ht htrue
      | false => rfl

theorem negated_true_eq_true {t : Truth} : negated true t = some true ↔ t = some false := by
  cases t with
  | none => simp [negated, not]
  | some b => cases b <;> simp [negated, not]

theorem negated_some (negative b : Bool) :
    Truth.negated negative (some b) = some (b != negative) := by
  cases negative <;> cases b <;> rfl

end Truth

/-! ## Evaluation -/

/-- The row that each table in sight shows. -/
abbrev Scene := String → Stored

namespace Scene

/-- No table is in sight. -/
def empty : Scene := fun _ _ => none

/-- Puts a row in sight under a name. -/
def add (scene : Scene) (called : String) (r : Stored) : Scene := Function.update scene called r

def cell (scene : Scene) (c : Column) : Option String := scene c.table c.name

@[simp] theorem add_self (scene : Scene) (called : String) (r : Stored) :
    scene.add called r called = r := Function.update_self ..

theorem add_of_ne (scene : Scene) {called table : String} (h : table ≠ called) (r : Stored) :
    scene.add called r table = scene table := Function.update_of_ne h ..

end Scene

def ColumnPair.holds (p : ColumnPair) (scene : Scene) : Bool :=
  same (scene.cell p.left) (scene.cell p.right)

/-- The scene with each row of a table that joins it, or with an empty row where there is none and the
join keeps what is there. -/
def Joined.scenes (T : Tables) (j : Joined) (scene : Scene) : List Scene :=
  let partners := ((T j.table).map (scene.add j.called)).filter j.on.holds
  if j.outer && partners.isEmpty then [scene.add j.called fun _ => none] else partners

/-- The scene with each row of a source. -/
def Source.scenes (T : Tables) (s : Source) (scene : Scene) : List Scene :=
  s.joins.foldl (fun scenes j => scenes.flatMap (j.scenes T))
    ((T s.table).map (scene.add (s.called.getD s.table)))

/-- What a database makes of the parts of expressions and predicates that are up to it. -/
structure Dialect extends Engine where
  date : String → Option String
  /-- What a translations column says for a column in a language. -/
  translation : (language column text : String) → Option String
  /-- The position of a text in a list. -/
  position : List String → String → Option String
  calculation : List (Char ⊕ Option String) → Option String
  aggregate : Aggregate → List (Option String) → Option String
  /-- How texts compare that are not asked to be equal or different. -/
  order : Comparison → String → String → Bool
  like : (pattern text : String) → Bool
  /-- What an expression gives that is SQL already or has no table. -/
  expr : Expr → Scene → Option String
  /-- What a predicate comes to that is SQL already. -/
  raw : Predicate → Scene → Truth

namespace Dialect

/-- A database that makes nothing of what is up to it. -/
def mute : Dialect :=
  { call := fun _ => none
    operand := fun _ => none
    test := fun _ _ => false
    date := fun _ => none
    translation := fun _ _ _ => none
    position := fun _ _ => none
    calculation := fun _ => none
    aggregate := fun _ _ => none
    order := fun _ _ _ => false
    like := fun _ _ => false
    expr := fun _ _ => none
    raw := fun _ _ => none }

/-- Compares two values; with null the outcome is unknown. -/
def compare (D : Dialect) (c : Comparison) : Option String → Option String → Truth
  | some a, some b =>
    match c with
    | .eq => some (a == b)
    | .ne => some (a != b)
    | c => some (D.order c a b)
  | _, _ => none

/-- Whether a value is one of several. -/
def among (D : Dialect) (v : Option String) (items : List (Option String)) : Truth :=
  Truth.any (items.map (D.compare .eq v))

end Dialect

mutual
/-- The value of an expression; none is null. -/
def Expr.value (D : Dialect) (T : Tables) : Expr → Scene → Option String
  | .column c, scene => scene.cell c
  | .null, _ => none
  | .date e, scene => (e.value D T scene).bind D.date
  | .translation e language column, scene =>
    (e.value D T scene).bind (D.translation language column)
  | .position e items, scene => (e.value D T scene).bind (D.position items)
  | .calculation parts, scene =>
    D.calculation (parts.map fun
      | .char c => .inl c
      | .column c => .inr (scene.cell c))
  | .aggregate f column source on filter, scene =>
    D.aggregate f (((source.scenes T scene).filter fun inner =>
      on.holds inner && filterHolds D T filter inner).map (·.cell column))
  | .raw s, scene => D.expr (.raw s) scene
  | .bare column, scene => D.expr (.bare column) scene
def Predicate.truth (D : Dialect) (T : Tables) : Predicate → Scene → Truth
  | .constant truth, _ => some truth
  | .compare e c o, scene => D.compare c (e.value D T scene) (D.eval o)
  | .isNull e negated, scene => some ((e.value D T scene).isNone != negated)
  | .isEmpty e negated, scene =>
    some (((e.value D T scene).getD "" == "") != negated)
  | .like e pattern negated, scene =>
    Truth.negated negated ((e.value D T scene).map (D.like pattern))
  | .between e low high negated, scene =>
    let v := e.value D T scene
    Truth.negated negated (Truth.all [D.compare .ge v (D.eval low), D.compare .le v (D.eval high)])
  | .oneOf e items negated, scene =>
    Truth.negated negated (D.among (e.value D T scene) (items.map D.eval))
  | .related source on filter negated, scene =>
    -- Whether there is a row is never unknown.
    some (((source.scenes T scene).any fun inner =>
      on.holds inner && filterHolds D T filter inner) != negated)
  | .glued glue parts, scene => Truth.glue glue (truths D T parts scene)
  | .raw s, scene => D.raw (.raw s) scene
  | .inSubquery e subquery negated, scene => D.raw (.inSubquery e subquery negated) scene
  | .existsIn subquery negated, scene => D.raw (.existsIn subquery negated) scene
/-- Whether a filter, if there is one, is true. -/
def filterHolds (D : Dialect) (T : Tables) : Option Predicate → Scene → Bool
  | none, _ => true
  | some p, scene => p.truth D T scene == some true
def truths (D : Dialect) (T : Tables) : List Predicate → Scene → List Truth
  | [], _ => []
  | p :: rest, scene => p.truth D T scene :: truths D T rest scene
end

/-- The rows that a read finds. -/
def Select.scenes (D : Dialect) (T : Tables) (s : Select) : List Scene :=
  (s.source.scenes T Scene.empty).filter (filterHolds D T s.filter)

/-- What a read of one expression gives. -/
def Select.cells (D : Dialect) (T : Tables) (s : Select) (e : Expr) : List (Option String) :=
  let cells := (s.scenes D T).map (e.value D T)
  if s.distinct then cells.dedup else cells

/-- What a read gives is what the expression has in the rows found; whether each value counts once makes
no difference. -/
theorem Select.mem_cells {D : Dialect} {T : Tables} {s : Select} {e : Expr} {v : Option String} :
    v ∈ s.cells D T e ↔ ∃ scene ∈ s.source.scenes T Scene.empty,
      filterHolds D T s.filter scene = true ∧ e.value D T scene = v := by
  have hmem : v ∈ s.cells D T e ↔ v ∈ (s.scenes D T).map (e.value D T) := by
    rw [Select.cells]
    split
    · exact List.mem_dedup
    · exact Iff.rfl
  rw [hmem, Select.scenes, List.mem_map]
  simp only [List.mem_filter, and_assoc]

/-- Whether a row shows one cell and nothing else. -/
def ShowsCell (cell : Option String) (row : Row) : Prop :=
  ∃ called v, row = [(called, v)] ∧ Engine.Shows cell (some v)

/-- Whether rows answer a read of one expression, in any order. -/
def Dialect.AnswersOne (D : Dialect) (T : Tables) (s : Select) (rows : List Row) : Prop :=
  ∀ e, s.columns = [.expr e] →
    ∃ cells, cells.Perm (s.cells D T e) ∧ List.Forall₂ ShowsCell cells rows

/-- The rows that show what a read of one expression gives, one by one. -/
def Dialect.answerOne (D : Dialect) (T : Tables) (s : Select) : List Row :=
  match s.columns with
  | [.expr e] => (s.cells D T e).map fun v => [("value", (v.map Json.str).getD .null)]
  | _ => []

theorem Dialect.answersOne_answerOne (D : Dialect) (T : Tables) (s : Select) :
    D.AnswersOne T s (D.answerOne T s) := by
  intro e he
  refine ⟨s.cells D T e, .refl _, ?_⟩
  rw [answerOne, he, List.forall₂_map_right_iff, List.forall₂_same]
  intro v _
  refine ⟨"value", _, rfl, ?_⟩
  cases v <;> rfl

/-! ## Lists, groups and subqueries -/

section

variable {D : Dialect} {T : Tables} {scene : Scene}

theorem truths_eq (ps : List Predicate) : truths D T ps scene = ps.map (·.truth D T scene) := by
  induction ps with
  | nil => rfl
  | cons p ps ih => rw [truths, ih, List.map_cons]

theorem Truth.glue_singleton (g : Glue) (t : Truth) : Truth.glue g [t] = t := by
  cases g <;> cases t with
  | none => rfl
  | some b => cases b <;> rfl

/-- Several predicates as one come to what their truth values come to together. -/
theorem truth_glue (g : Glue) (ps : List Predicate) :
    (Predicate.glue g ps).map (·.truth D T scene) =
      if ps.isEmpty then none else some (Truth.glue g (ps.map (·.truth D T scene))) := by
  match ps with
  | [] => rfl
  | [p] => exact congrArg some (Truth.glue_singleton g _).symm
  | p :: q :: rest => exact congrArg some (congrArg (Truth.glue g) (truths_eq _))

namespace Dialect

theorem compare_eq_eq_true {a b : Option String} :
    D.compare .eq a b = some true ↔ ∃ s, a = some s ∧ b = some s := by
  cases a with
  | none => simp [compare]
  | some s => cases b with
    | none => simp [compare]
    | some t => simp [compare, @eq_comm _ t]

theorem compare_eq_eq_false {a b : Option String} :
    D.compare .eq a b = some false ↔ ∃ s t, a = some s ∧ b = some t ∧ s ≠ t := by
  cases a with
  | none => simp [compare]
  | some s => cases b with
    | none => simp [compare]
    | some t => simp [compare]

/-- A value is one of several if one of them is the same text. -/
theorem among_eq_true {v : Option String} {items : List (Option String)} :
    D.among v items = some true ↔ ∃ s, v = some s ∧ some s ∈ items := by
  unfold among
  rw [Truth.any_eq_true, List.mem_map]
  constructor
  · rintro ⟨item, hitem, h⟩
    obtain ⟨s, rfl, rfl⟩ := compare_eq_eq_true.1 h
    exact ⟨s, rfl, hitem⟩
  · rintro ⟨s, rfl, hitem⟩
    exact ⟨some s, hitem, compare_eq_eq_true.2 ⟨s, rfl, rfl⟩⟩

/-- A value is none of several if neither it nor any of them is null and all of them differ. -/
theorem among_eq_false {v : Option String} {items : List (Option String)} :
    D.among v items = some false ↔
      items = [] ∨ ∃ s, v = some s ∧ none ∉ items ∧ some s ∉ items := by
  unfold among
  rw [Truth.any_eq_false, List.forall_mem_map]
  constructor
  · intro h
    cases items with
    | nil => exact .inl rfl
    | cons first rest =>
      obtain ⟨s, -, rfl, -, -⟩ := compare_eq_eq_false.1 (h first List.mem_cons_self)
      refine .inr ⟨s, rfl, fun hnone => ?_, fun hsame => ?_⟩
      · obtain ⟨_, _, -, hnull, -⟩ := compare_eq_eq_false.1 (h none hnone)
        cases hnull
      · obtain ⟨s', t, hs, ht, hne⟩ := compare_eq_eq_false.1 (h (some s) hsame)
        exact hne (Option.some.inj (hs.symm.trans ht))
  · intro h item hitem
    rcases h with rfl | ⟨s, rfl, hnone, hsame⟩
    · cases hitem
    · cases item with
      | none => exact absurd hitem hnone
      | some t => exact compare_eq_eq_false.2 ⟨s, t, rfl, rfl, fun h => hsame (h ▸ hitem)⟩

/-- A comparison with several values is unknown if there is something to compare and either the value
is null, or a null is among those that it differs from. -/
theorem among_ne_none {v : Option String} {items : List (Option String)} :
    D.among v items ≠ none ↔
      items = [] ∨ ∃ s, v = some s ∧ (some s ∈ items ∨ none ∉ items) := by
  have hcases : D.among v items ≠ none ↔
      D.among v items = some true ∨ D.among v items = some false := by
    cases D.among v items with
    | none => simp
    | some b => cases b <;> simp
  rw [hcases, among_eq_true, among_eq_false]
  constructor
  · rintro (⟨s, hv, hs⟩ | hempty | ⟨s, hv, hnone, -⟩)
    · exact .inr ⟨s, hv, .inl hs⟩
    · exact .inl hempty
    · exact .inr ⟨s, hv, .inr hnone⟩
  · rintro (hempty | ⟨s, hv, hs⟩)
    · exact .inr (.inl hempty)
    · by_cases hmem : some s ∈ items
      · exact .inl ⟨s, hv, hmem⟩
      · exact .inr (.inr ⟨s, hv, hs.resolve_left hmem, hmem⟩)

end Dialect

/-- Membership in a list, which may be empty. -/
theorem truth_among (e : Expr) (items : List Operand) (negated : Bool) :
    (Predicate.among e items negated).truth D T scene =
      Truth.negated negated (D.among (e.value D T scene) (items.map D.eval)) := by
  cases items with
  | nil => cases negated <;> rfl
  | cons item rest => rfl

/-- A test for related rows is true if one of them is found and false if none is. -/
theorem truth_related (source : Source) (on : ColumnPair) (filter : Option Predicate)
    (negated : Bool) : (Predicate.related source on filter negated).truth D T scene =
      some (((source.scenes T scene).any fun inner =>
        on.holds inner && filterHolds D T filter inner) != negated) := rfl

end

end CatalogQuery.Sql
