import CatalogQuery.Link.Source
import CatalogQuery.Proofs.Sql.Evaluation

/-!
# Rows that links lead to

A link pairs the rows of two tables, whichever of the tables holds it. Main statements: a subquery on
linked rows runs through the rows that a link leads to, and the keys that are read from linked rows
are those of the rows that lead to them.
-/

namespace CatalogQuery.Link

open Sql

/-- The rows that a link leads to from a row; through a junction as often as it pairs them. -/
def rows (l : Link) (T : Tables) (r : Stored) : List Stored :=
  match l.keys with
  | .own foreign target => (T l.targetTable).filter fun r' => same (r' target) (r foreign)
  | .linked foreign source => (T l.targetTable).filter fun r' => same (r' foreign) (r source)
  | .junction table sourceColumn targetColumn source target =>
    (T table).flatMap fun j => (T l.targetTable).filter fun r' =>
      same (r' target) (j targetColumn) && same (j sourceColumn) (r source)

/-- What holds the links of rows says of the rows that it links. -/
def heldKeys (l : Link) (T : Tables) : List (Option String) :=
  match l.keys with
  | .own _ target => (T l.targetTable).map (· target)
  | .linked foreign _ => (T l.targetTable).map (· foreign)
  | .junction table sourceColumn _ _ _ => (T table).map (· sourceColumn)

theorem baseKeys_base (l : Link) (source : Source) (linked : String) :
    (l.baseKeys source linked).2.2 = l.keys.baseColumn := by
  rw [baseKeys, LinkKeys.baseColumn.eq_def]
  cases l.keys <;> rfl

theorem ne_junctionAlias (called : String) : called ≠ junctionAlias called := by
  intro h
  have hlength := congrArg (·.toList.length) h
  simp only [junctionAlias, String.toList_append, List.length_append] at hlength
  have hj : "__j".toList.length = 3 := rfl
  omega

theorem source_scenes_single (T : Tables) (table : String) (called : Option String)
    (scene : Scene) : (Source.mk table called []).scenes T scene =
      (T table).map (scene.add (called.getD table)) := rfl

/-- A source of one more table has a scene for each row that it adds to a scene. -/
theorem source_scenes_concat (T : Tables) (table : String) (called : Option String)
    (joins : List Joined) (j : Joined) (scene : Scene) :
    (Source.mk table called (joins ++ [j])).scenes T scene =
      ((Source.mk table called joins).scenes T scene).flatMap (j.scenes T) := by
  simp only [Source.scenes, List.foldl_append, List.foldl_cons, List.foldl_nil]

theorem joined_scenes_inner (T : Tables) (table called : String) (on : ColumnPair) (scene : Scene) :
    (Joined.mk false table called on).scenes T scene =
      ((T table).map (scene.add called)).filter on.holds := rfl

section

variable {l : Link} {T : Tables} {base called : String}

/-- The scenes of a correlated subquery show the rows that the link leads to. -/
theorem map_correlated (hbase : base ≠ called) (hjunction : base ≠ junctionAlias called)
    (scene : Scene) :
    (((l.correlated base called).1.scenes T scene).filter (l.correlated base called).2.holds).map
      (fun inner => inner called) = l.rows T (scene base) := by
  have hown (r : Stored) (column : String) : (scene.add called r).cell ⟨called, column⟩ = r column := by
    rw [Scene.cell, Scene.add_self]
  have houter (r : Stored) (column : String) :
      (scene.add called r).cell ⟨base, column⟩ = scene base column := by
    rw [Scene.cell, Scene.add_of_ne _ hbase]
  cases hkeys : l.keys with
  | own foreign target | linked foreign source =>
    simp only [correlated, rows, hkeys, source_scenes_single, Option.getD_some,
      List.filter_map, List.map_map, Function.comp_def, ColumnPair.holds, hown, houter, Scene.add_self, List.map_id']
  | junction table sourceColumn targetColumn source target =>
    simp only [correlated, rows, hkeys]
    rw [← List.nil_append [Joined.mk _ _ _ _], source_scenes_concat, source_scenes_single,
      Option.getD_some, List.filter_flatMap, List.map_flatMap, List.flatMap_map]
    refine List.flatMap_congr fun j _ => ?_
    have halias (column : String) (r : Stored) :
        ((scene.add (junctionAlias called) j).add called r).cell ⟨junctionAlias called, column⟩ =
          j column := by
      rw [Scene.cell, Scene.add_of_ne _ (ne_junctionAlias called).symm, Scene.add_self]
    have hlinked (column : String) (r : Stored) :
        ((scene.add (junctionAlias called) j).add called r).cell ⟨called, column⟩ = r column := by
      rw [Scene.cell, Scene.add_self]
    have hbeneath (column : String) (r : Stored) :
        ((scene.add (junctionAlias called) j).add called r).cell ⟨base, column⟩ =
          scene base column := by
      rw [Scene.cell, Scene.add_of_ne _ hbase, Scene.add_of_ne _ hjunction]
    simp only [joined_scenes_inner, List.filter_map, List.filter_filter, List.map_map,
      Function.comp_def, ColumnPair.holds, halias, hlinked, hbeneath, Scene.add_self,
      List.map_id', Bool.and_comm]

variable {D : Dialect} {filter : Option Predicate} {φ : Stored → Bool}

/-- A test for linked rows asks whether a row that the link leads to passes the filter. -/
theorem truth_related (hbase : base ≠ called) (hjunction : base ≠ junctionAlias called)
    (hfilter : ∀ inner, filterHolds D T filter inner = φ (inner called)) (negated : Bool)
    (scene : Scene) :
    (Predicate.related (l.correlated base called).1 (l.correlated base called).2 filter
      negated).truth D T scene = some ((l.rows T (scene base)).any φ != negated) := by
  rw [Sql.truth_related, ← map_correlated hbase hjunction scene, List.any_map, List.any_filter]
  simp only [hfilter, Function.comp_def]

/-- An aggregate over linked rows is one over the rows that the link leads to and that pass the
filter. -/
theorem value_aggregate (hbase : base ≠ called) (hjunction : base ≠ junctionAlias called)
    (hfilter : ∀ inner, filterHolds D T filter inner = φ (inner called)) (f : Aggregate)
    (column : String) (scene : Scene) :
    (Expr.aggregate f ⟨called, column⟩ (l.correlated base called).1 (l.correlated base called).2
      filter).value D T scene =
      D.aggregate f (((l.rows T (scene base)).filter φ).map (· column)) := by
  rw [Expr.value, ← map_correlated hbase hjunction scene, List.filter_map, List.map_map,
    List.filter_filter]
  simp only [hfilter, Function.comp_def, Scene.cell, Bool.and_comm]

/-- Of the linked rows that pass a test, those that a row leads to are those with a key that it
holds. -/
theorem exists_baseKeys (l : Link) (T : Tables) (φ : Stored → Bool) (r : Stored)
    (hjunction : l.targetTable ≠ "__junction") :
    let found := l.baseKeys ⟨l.targetTable, none, []⟩ l.targetTable
    (∃ scene ∈ found.2.1.scenes T Scene.empty, φ (scene l.targetTable) = true ∧
      same (scene.cell found.1) (r l.keys.baseColumn) = true) ↔
      ∃ r' ∈ l.rows T r, φ r' = true := by
  intro found
  cases hkeys : l.keys with
  | own foreign target | linked foreign source =>
    simp only [found, baseKeys, rows, hkeys, LinkKeys.baseColumn, source_scenes_single,
      Option.getD_none, List.mem_map, List.mem_filter, exists_exists_and_eq_and, Scene.cell,
      Scene.add_self]
    exact exists_congr fun r' => by rw [and_assoc, and_comm (a := φ r' = true)]
  | junction table sourceColumn targetColumn source target =>
    have hlinked (r' j : Stored) :
        ((Scene.empty.add l.targetTable r').add "__junction" j) l.targetTable = r' := by
      rw [Scene.add_of_ne _ hjunction, Scene.add_self]
    simp only [found, baseKeys, rows, hkeys, LinkKeys.baseColumn, source_scenes_concat,
      source_scenes_single, Option.getD_none, joined_scenes_inner, List.mem_flatMap, List.mem_map,
      exists_exists_and_eq_and, List.mem_filter, ColumnPair.holds, Bool.and_eq_true]
    constructor
    · rintro ⟨scene, ⟨r', hr', ⟨j, hj, rfl⟩, hon⟩, hφ, hkey⟩
      rw [hlinked] at hφ
      simp only [Scene.cell, Scene.add_self, hlinked] at hon hkey
      exact ⟨r', ⟨j, hj, hr', by rwa [same_comm], hkey⟩, hφ⟩
    · rintro ⟨r', ⟨j, hj, hr', hon, hkey⟩, hφ⟩
      refine ⟨_, ⟨r', hr', ⟨j, hj, rfl⟩, ?_⟩, ?_, ?_⟩
      · simpa only [Scene.cell, Scene.add_self, hlinked, same_comm] using hon
      · rwa [hlinked]
      · simpa only [Scene.cell, Scene.add_self] using hkey

theorem cell_baseKeys_mem (l : Link) (T : Tables) {scene : Scene} :
    let found := l.baseKeys ⟨l.targetTable, none, []⟩ l.targetTable
    scene ∈ found.2.1.scenes T Scene.empty → scene.cell found.1 ∈ l.heldKeys T := by
  intro found hscene
  cases hkeys : l.keys with
  | own foreign target | linked foreign source =>
    simp only [found, baseKeys, hkeys, source_scenes_single, Option.getD_none] at hscene
    obtain ⟨r', hr', rfl⟩ := List.mem_map.1 hscene
    simp only [found, baseKeys, heldKeys, hkeys, Scene.cell, Scene.add_self]
    exact List.mem_map_of_mem hr'
  | junction table sourceColumn targetColumn source target =>
    simp only [found, baseKeys, hkeys, source_scenes_concat] at hscene
    obtain ⟨outer, -, hscene⟩ := List.mem_flatMap.1 hscene
    obtain ⟨j, hj, rfl⟩ := List.mem_map.1 (List.mem_filter.1 hscene).1
    simp only [found, baseKeys, heldKeys, hkeys, Scene.cell, Scene.add_self]
    exact List.mem_map_of_mem hj

end

end CatalogQuery.Link
