import CatalogQuery.Proofs.Save.Statements
import CatalogQuery.Proofs.Sql.Clauses
import CatalogQuery.Proofs.Sql.Evaluation

/-!
# Counts and finds

A find and a count with the same options and the same reduced condition. Main statement: they select
from the same rows, in the text of their statements too, and a count fails just where the tables or
the condition of the find do.
-/

namespace CatalogQuery

open Sql

namespace Sql

theorem toText_append (a b : Sql) : (a ++ b).toText = a.toText ++ b.toText := by
  simp [toText, chars_append, String.ofList_append]

theorem toText_word (s : String) : (word s).toText = s := by
  simp [toText, chars, word, Piece.chars]

end Sql

variable {env : Compile.Env} {e : Entity} {o : FindOptions} {c : Condition} {f k : Select}

/-- What a find and a count have in common. -/
theorem findSelect_ok (h : (findSelect env e o c).result = .ok f) :
    ∃ frame, (findSource env e o.joins).result = .ok (f.source, frame) ∧
      (Compile.condition env frame c).result = .ok f.filter ∧ ∃ n, f.limit = some n := by
  obtain ⟨⟨source, frame⟩, hsource, h⟩ := Traced.result_bind_ok.1 h
  obtain ⟨computed, hcomputed, h⟩ := Traced.result_bind_ok.1 h
  obtain ⟨filter, hfilter, h⟩ := Traced.result_bind_ok.1 h
  obtain ⟨order, horder, h⟩ := Traced.result_bind_ok.1 h
  cases h
  exact ⟨frame, hsource, hfilter, _, rfl⟩

theorem countSelect_eq {source : Source} {frame : Compile.Frame} {filter : Option Predicate}
    (hsource : (findSource env e o.joins).result = .ok (source, frame))
    (hfilter : (Compile.condition env frame c).result = .ok filter) :
    (countSelect env e o c).result =
      .ok (.plain false [.countDistinct ⟨e.table, e.keyColumn⟩ "count"] source filter) := by
  rw [countSelect, Traced.result_bind_ok]
  refine ⟨_, hsource, ?_⟩
  rw [Traced.result_bind_ok]
  exact ⟨_, hfilter, rfl⟩

/-- A count fails where the tables or the condition do. -/
theorem result_countSelect_error {err : QueryError} :
    (countSelect env e o c).result = .error err ↔
      (findSource env e o.joins).result = .error err ∨
      ∃ found, (findSource env e o.joins).result = .ok found ∧
        (Compile.condition env found.2 c).result = .error err := by
  rw [countSelect, Traced.result_bind_error]
  refine or_congr_right (exists_congr fun found => and_congr_right fun _ => ?_)
  rw [Traced.result_bind_error]
  constructor
  · rintro (h | ⟨filter, -, h⟩)
    · exact h
    · cases h
  · exact .inl

/-- A find compiles its computed columns before its condition, so their error may come first. -/
theorem findSelect_fails {found : Source × Compile.Frame} {err : QueryError}
    (hsource : (findSource env e o.joins).result = .ok found)
    (hfilter : (Compile.condition env found.2 c).result = .error err) :
    ∃ err', (findSelect env e o c).result = .error err' ∧
      ∀ columns, (Compile.virtualColumns env found.2).result = .ok columns → err' = err := by
  cases hcolumns : (Compile.virtualColumns env found.2).result with
  | error err' =>
    refine ⟨err', ?_, fun columns h => by cases h⟩
    exact Traced.result_bind_error.2 (.inr ⟨found, hsource,
      Traced.result_bind_error.2 (.inl hcolumns)⟩)
  | ok columns =>
    refine ⟨err, ?_, fun _ _ => rfl⟩
    exact Traced.result_bind_error.2 (.inr ⟨found, hsource, Traced.result_bind_error.2
      (.inr ⟨columns, hcolumns, Traced.result_bind_error.2 (.inl hfilter)⟩)⟩)

/-- The bound on the number of rows is always there. -/
theorem toText_tailSql {n : Int} (hlimit : f.limit = some n) :
    ∃ rest, f.tailSql.toText = " ORDER BY " ++ rest ∨ f.tailSql.toText = " LIMIT " ++ rest := by
  rw [Select.tailSql, hlimit]
  cases f.order with
  | nil =>
    dsimp only
    rw [List.nil_append, List.append_assoc, toText_append, toText_word]
    exact ⟨_, .inr rfl⟩
  | cons t order =>
    dsimp only
    rw [List.append_assoc, toText_append, toText_word]
    exact ⟨_, .inl rfl⟩

/-- How the statement of a count stands to that of a find: over any tables it has the same rows, and
its text is, from " FROM " on, what stands in the other one between the columns and the clauses that
order the rows and bound their number. -/
structure CountsRowsOf (e : Entity) (k f : Select) : Prop where
  scenes : ∀ D T, k.scenes D T = f.scenes D T
  text : ∃ rows clauses rest,
    f.sql.toText = (if f.distinct then "SELECT DISTINCT " else "SELECT ") ++
      (sepBy ", " (f.columns.map Selected.sql)).toText ++ " FROM " ++ rows ++ clauses ∧
    k.sql.toText = "SELECT " ++
      (Selected.countDistinct ⟨e.table, e.keyColumn⟩ "count").sql.toText ++ " FROM " ++ rows ∧
    (clauses = " ORDER BY " ++ rest ∨ clauses = " LIMIT " ++ rest)

theorem countsRowsOf_plain (e : Entity) {n : Int} (hlimit : f.limit = some n) :
    CountsRowsOf e (.plain false [.countDistinct ⟨e.table, e.keyColumn⟩ "count"] f.source f.filter)
      f where
  scenes _ _ := rfl
  text := by
    obtain ⟨rest, hrest⟩ := toText_tailSql hlimit
    obtain ⟨rows, hrows⟩ : ∃ rows, f.rowsSql = word " FROM " ++ rows :=
      ⟨_, List.append_assoc _ _ _⟩
    refine ⟨rows.toText, f.tailSql.toText, rest, ?_, ?_, hrest⟩
    · rw [Select.sql_eq, Select.headSql, hrows]
      simp only [toText_append, toText_word, String.append_assoc]
    · have hcount (columns : List Selected) : (Select.plain false columns f.source f.filter).sql =
          word "SELECT " ++ sepBy ", " (columns.map Selected.sql) ++ (f.rowsSql ++ []) :=
        Select.sql_eq _
      rw [hcount, hrows]
      simp only [toText_append, toText_word, String.append_assoc, List.append_nil, List.map_cons,
        List.map_nil, sepBy]

/-- As the database reads them, a count is from its "from" on what a find is from there up to what
orders its rows or bounds their number. -/
theorem readItems_count (hf : f.Composed) (hk : k.Composed) (hrows : k.rowsSql = f.rowsSql)
    (htail : k.tailSql = []) {n : Int} (hlimit : f.limit = some n) :
    ∃ found counted, readItems f.sql.toText = some found ∧ readItems k.sql.toText = some counted ∧
      upToOrder (fromOn found) = fromOn counted ∧
      (fromOn counted).head? = some (.word "FROM".toList) := by
  obtain ⟨is, his, hlevel⟩ := f.level_rows hf
  obtain ⟨ts, hts, hclean, i, rest, hrest, hi⟩ := f.builds_tail hf hlimit
  have hfound := Select.fromOn_readItems hf his hts hclean
  have hnothing : Builds k.tailSql [] := by
    rw [htail]
    exact fun _ _ _ => rfl
  have hcounted := Select.fromOn_readItems hk (hrows ▸ his) hnothing trivial
  obtain ⟨found, hread, hfrom⟩ := Option.map_eq_some_iff.1 hfound
  obtain ⟨counted, hread', hfrom'⟩ := Option.map_eq_some_iff.1 hcounted
  refine ⟨found, counted, hread, hread', ?_, by rw [hfrom']; rfl⟩
  rw [hfrom, hfrom', upToOrder, List.filter_nil, List.append_nil, hrest,
    List.takeWhile_append_of_pos, List.takeWhile_cons_of_neg (by simp [hi]), List.append_nil]
  -- The first "order" or "limit" outside of parentheses is that of the find itself.
  intro j hj
  rcases List.mem_cons.1 hj with rfl | hj
  · rfl
  · obtain ⟨-, horder, hlimit⟩ := hlevel.not_clause hj
    rw [horder, hlimit]
    rfl

/-- Whenever a find has a statement, a count with the same options and reduced condition has one
that selects from the same rows, as written and as read. When the tables or the condition of a find
are in error, the count fails with that error, and it fails with no other. -/
theorem count_selects_found_rows (env : Compile.Env) (e : Entity) (o : FindOptions)
    (c : Condition) :
    (∀ f, (findSelect env e o c).result = .ok f → ∃ k, (countSelect env e o c).result = .ok k ∧
      CountsRowsOf e k f ∧
      (env.catalog.Uncalculated → e.Uncalculated →
        ∃ found counted, readItems f.sql.toText = some found ∧
          readItems k.sql.toText = some counted ∧ upToOrder (fromOn found) = fromOn counted ∧
          (fromOn counted).head? = some (.word "FROM".toList))) ∧
    (∀ err, (findSource env e o.joins).result = .error err →
      (findSelect env e o c).result = .error err ∧ (countSelect env e o c).result = .error err) ∧
    (∀ found err, (findSource env e o.joins).result = .ok found →
      (Compile.condition env found.2 c).result = .error err →
      (countSelect env e o c).result = .error err ∧
      ∃ err', (findSelect env e o c).result = .error err' ∧
        ∀ columns, (Compile.virtualColumns env found.2).result = .ok columns → err' = err) ∧
    ∀ err, (countSelect env e o c).result = .error err →
      (findSource env e o.joins).result = .error err ∨
      ∃ found, (findSource env e o.joins).result = .ok found ∧
        (Compile.condition env found.2 c).result = .error err := by
  refine ⟨fun f hf => ?_, fun err h => ?_, fun found err hsource hfilter => ?_,
    fun err => result_countSelect_error.1⟩
  · obtain ⟨frame, hsource, hfilter, n, hlimit⟩ := findSelect_ok hf
    have hcount := countSelect_eq hsource hfilter
    refine ⟨_, hcount, countsRowsOf_plain e hlimit, fun hc he => ?_⟩
    exact readItems_count (ensures_findSelect hc he o c f hf)
      (ensures_countSelect hc he o c _ hcount) rfl rfl hlimit
  · exact ⟨Traced.result_bind_error.2 (.inl h), result_countSelect_error.2 (.inl h)⟩
  · exact ⟨result_countSelect_error.2 (.inr ⟨found, hsource, hfilter⟩),
      findSelect_fails hsource hfilter⟩

end CatalogQuery
