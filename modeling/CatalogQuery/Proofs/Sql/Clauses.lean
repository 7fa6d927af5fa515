import CatalogQuery.Proofs.Sql.Tests

/-!
# The clauses of a read

The database finds the clauses of a read by the words that begin them, outside of quotes and
parentheses. Main statement: between its own "from" and what orders or bounds it, a composed read is
read as its tables and its restriction, whatever its columns are.
-/

namespace CatalogQuery.Sql

/-- The items of a text as the database reads it, less the blanks. -/
def readItems (s : String) : Option (List Item) :=
  match scan .normal s.toList with
  | (ts, .normal) => (nest ts).map (·.filter fun i => !i.isBlank)
  | _ => none

/-- The items of a read from the first "from" on. -/
def fromOn (items : List Item) : List Item := items.dropWhile fun i => !i.isKeyword "FROM"

/-- Items up to those that order rows or bound their number. -/
def upToOrder (items : List Item) : List Item :=
  items.takeWhile fun i => !i.isKeyword "ORDER" && !i.isKeyword "LIMIT"

theorem readItems_toText {sql : Sql} (hs : Sealed sql) {is : List Item} (h : Builds sql is) :
    readItems sql.toText = some (is.filter fun i => !i.isBlank) := by
  rw [readItems, toText, String.toList_ofList, hs.scan_chars]
  show (nest (tokens sql)).map _ = _
  rw [h.nest, Option.map_some]

theorem Level.not_clause {is : List Item} (h : Level is) {i : Item}
    (hi : i ∈ is.filter fun i => !i.isBlank) :
    i.isKeyword "FROM" = false ∧ i.isKeyword "ORDER" = false ∧ i.isKeyword "LIMIT" = false := by
  have hclause := List.all_eq_true.mp h i ((List.mem_filter.mp hi).1)
  simpa [Item.isClause, and_assoc] using hclause

theorem Predicate.level (p : Predicate) (h : p.Composed) : ∃ is, Builds p.sql is ∧ Level is := by
  have htest {p : Predicate} (ht : p.IsTest) : ∃ is, Builds p.sql is ∧ Level is := by
    obtain ⟨is, hb, -, hlevel, -⟩ := ht
    exact ⟨is, hb, hlevel⟩
  cases p with
  | raw s => exact h.elim
  | constant truth => exact htest (isTest_constant truth)
  | compare e c o =>
    obtain ⟨es, he, hes, hlevel⟩ := e.builds h.1
    exact htest (isTest_compare he hes hlevel c h.2)
  | isNull e negated =>
    obtain ⟨es, he, hes, hlevel⟩ := e.builds h
    exact htest (isTest_isNull he hes hlevel negated)
  | isEmpty e negated =>
    obtain ⟨es, he, -⟩ := e.builds h
    exact htest (isTest_isEmpty he negated)
  | like e pattern negated =>
    obtain ⟨es, he, hes, hlevel⟩ := e.builds h
    exact htest (isTest_like he hes hlevel pattern negated)
  | between e low high negated =>
    obtain ⟨es, he, -, hes⟩ := e.builds h.1
    obtain ⟨os, hos, -, hlow⟩ := low.builds h.2.1
    obtain ⟨os', hos', -, hhigh⟩ := high.builds h.2.2
    obtain ⟨-, hnot⟩ := plain_notItems negated
    exact ⟨_, builds_between he hos hos' negated, hes.append (.append rfl (hnot.append
      (.append rfl (hlow.append (.append rfl hhigh)))))⟩
  | oneOf e items negated =>
    obtain ⟨es, he, hes, hlevel⟩ := e.builds h.1
    exact htest (isTest_oneOf he hes hlevel h.2 negated)
  | inSubquery e subquery negated => exact h.elim
  | existsIn subquery negated => exact h.elim
  | related source on filter negated =>
    obtain ⟨fs, hfs⟩ := filter_builds filter h
    exact htest (isTest_related source on hfs negated)
  | glued g parts =>
    have hne : parts ≠ [] := List.ne_nil_of_length_pos (Nat.lt_of_lt_of_le (by decide) h.1)
    obtain ⟨is, his, -⟩ := parts_builds g parts h.2 hne
    exact ⟨_, (adds_group his).builds, rfl⟩

theorem Selected.level {c : Selected} (h : c.Composed) : ∃ is, Builds c.sql is ∧ Level is := by
  have has (called : String) : Adds (word " AS " ++ name called)
      [.blank, .word "AS".toList, .blank, .quoted (.name called.toList)] := fun _ _ => rfl
  cases c with
  | all table => exact ⟨[.quoted (.name table.toList), .mark '.', .mark '*'], fun _ _ _ => rfl, rfl⟩
  | expr e =>
    obtain ⟨is, he, -, hlevel⟩ := e.builds h
    exact ⟨is, he, hlevel⟩
  | named e called =>
    obtain ⟨is, he, -, hlevel⟩ := e.builds h
    have hall := he.append (has called).builds trivial
    rw [← List.append_assoc] at hall
    exact ⟨_, hall, hlevel.append rfl⟩
  | countDistinct column called =>
    exact ⟨[.function "COUNT".toList, .group ([.word "DISTINCT".toList, .blank] ++
      [.quoted (.name column.table.toList), .mark '.', .quoted (.name column.name.toList)]),
      .blank, .word "AS".toList, .blank, .quoted (.name called.toList)], fun _ _ _ => rfl, rfl⟩

theorem builds_direction (descending : Bool) :
    Builds (word (if descending then " DESC" else " ASC"))
      [.blank, .word (if descending then "DESC" else "ASC").toList] := by
  intro items outer h
  cases descending with
  | true =>
    show (.blank :: front 'D' (front 'E' (front 'S' (front 'C' items)))) :: outer = _
    rw [front_of_clean h]
    rfl
  | false =>
    show (.blank :: front 'A' (front 'S' (front 'C' items))) :: outer = _
    rw [front_of_clean h]
    rfl

theorem SortTerm.level {o : SortTerm} (h : o.expr.Composed) :
    ∃ is, Builds o.sql is ∧ Level is := by
  obtain ⟨is, he, -, hlevel⟩ := o.expr.builds h
  refine ⟨_, he.append (builds_direction o.descending) trivial, hlevel.append ?_⟩
  cases o.descending <;> rfl

namespace Select

/-- What stands in front of the tables of a read. -/
def headSql (s : Select) : Sql :=
  word (if s.distinct then "SELECT DISTINCT " else "SELECT ") ++
    sepBy ", " (s.columns.map Selected.sql)

/-- What orders the rows of a read and bounds their number. -/
def tailSql (s : Select) : Sql :=
  (match s.order with
    | [] => []
    | order => word " ORDER BY " ++ orderSql order) ++
    ((match s.limit with
      | none => []
      | some n => word " LIMIT " ++ [.number (.int n)]) ++
    match s.offset with
    | none => []
    | some n => word " OFFSET " ++ [.number (.int n)])

theorem sql_eq (s : Select) : s.sql = s.headSql ++ (s.rowsSql ++ s.tailSql) := by
  have hassoc (a b c d e g : Sql) :
      a ++ b ++ c ++ d ++ e ++ g = a ++ b ++ (c ++ (d ++ (e ++ g))) := by
    simp only [List.append_assoc]
  exact hassoc _ _ _ _ _ _

theorem level_head {s : Select} (h : s.Composed) : ∃ is, Builds s.headSql is ∧ Level is := by
  obtain ⟨cs, hcs, hlevel⟩ : ∃ is, Builds (sepBy ", " (s.columns.map Selected.sql)) is ∧
      Level is := by
    refine builds_sepBy fun a ha => ?_
    obtain ⟨c, hc, rfl⟩ := List.mem_map.1 ha
    exact Selected.level (h.columns c hc)
  rw [headSql]
  cases s.distinct with
  | true =>
    have hword : Adds (word "SELECT DISTINCT ")
        [.word "SELECT".toList, .blank, .word "DISTINCT".toList, .blank] := fun _ _ => rfl
    exact ⟨_, hword.append_builds hcs, .append (by rfl) hlevel⟩
  | false =>
    have hword : Adds (word "SELECT ") [.word "SELECT".toList, .blank] := fun _ _ => rfl
    exact ⟨_, hword.append_builds hcs, .append (by rfl) hlevel⟩

/-- The tables of a read and the restriction on their rows. -/
theorem level_rows {s : Select} (h : s.Composed) :
    ∃ is, Builds s.rowsSql ([.blank, .word "FROM".toList, .blank] ++ is) ∧ Level is := by
  obtain ⟨ss, hs, hlevel⟩ := s.source.adds
  have hfilter := h.filter
  rw [rowsSql]
  cases hp : s.filter with
  | none =>
    have hrows := (adds_from.append hs).builds
    rw [← List.append_nil (word " FROM " ++ s.source.sql)] at hrows
    exact ⟨ss, hrows, hlevel⟩
  | some p =>
    rw [hp] at hfilter
    obtain ⟨ps, hps, hlevel'⟩ := p.level hfilter
    have hrows := (adds_from.append hs).append_builds (adds_where.append_builds hps)
    have hwhere : Level [.blank, .word "WHERE".toList, .blank] := rfl
    refine ⟨ss ++ ([.blank, .word "WHERE".toList, .blank] ++ ps), ?_,
      hlevel.append (hwhere.append hlevel')⟩
    rwa [List.append_assoc] at hrows

/-- What bounds the rows of a read. -/
theorem builds_bound {w : String} {is : List Item} (hw : Adds (word w) (.blank :: is))
    (n : Option Int) : ∃ js, Builds (match n with
      | none => []
      | some n => word w ++ [.number (.int n)]) js ∧ Clean js ∧
      ∀ m, n = some m → ∃ rest, js = .blank :: is ++ rest := by
  cases n with
  | none => exact ⟨[], fun _ _ _ => rfl, trivial, fun m hm => by cases hm⟩
  | some n =>
    obtain ⟨ns, hn, -⟩ := builds_number (.int n)
    exact ⟨_, hw.append_builds hn, trivial, fun m hm => ⟨ns, rfl⟩⟩

theorem builds_tail {s : Select} (h : s.Composed) {n : Int} (hlimit : s.limit = some n) :
    ∃ is, Builds s.tailSql is ∧ Clean is ∧ ∃ i rest, is.filter (fun i => !i.isBlank) = i :: rest ∧
      (!i.isKeyword "ORDER" && !i.isKeyword "LIMIT") = false := by
  have hl : Adds (word " LIMIT ") [.blank, .word "LIMIT".toList, .blank] := fun _ _ => rfl
  have ho : Adds (word " OFFSET ") [.blank, .word "OFFSET".toList, .blank] := fun _ _ => rfl
  obtain ⟨ls, hls, hclean, hlimits⟩ := builds_bound hl s.limit
  obtain ⟨os, hos, hclean', -⟩ := builds_bound ho s.offset
  obtain ⟨rest, rfl⟩ := hlimits n hlimit
  have hbounds := hls.append hos hclean'
  rw [tailSql]
  cases hs : s.order with
  | nil => exact ⟨_, hbounds, trivial, .word "LIMIT".toList, _, rfl, rfl⟩
  | cons o order =>
    have hterms : ∃ is, Builds (orderSql (o :: order)) is ∧ Level is := by
      refine builds_sepBy fun a ha => ?_
      obtain ⟨t, ht, rfl⟩ := List.mem_map.1 ha
      exact SortTerm.level (h.order t (hs ▸ ht))
    obtain ⟨ts, hts, -⟩ := hterms
    have hword : Adds (word " ORDER BY ")
        [.blank, .word "ORDER".toList, .blank, .word "BY".toList, .blank] := fun _ _ => rfl
    exact ⟨_, (hword.append_builds hts).append hbounds trivial, trivial, .word "ORDER".toList, _,
      rfl, rfl⟩

/-- From its first "from" on a read is read as its tables and their restriction, then as what
follows these. -/
theorem fromOn_readItems {s : Select} (h : s.Composed) {is ts : List Item}
    (hrows : Builds s.rowsSql ([.blank, .word "FROM".toList, .blank] ++ is))
    (htail : Builds s.tailSql ts) (hclean : Clean ts) :
    (readItems s.sql.toText).map fromOn = some (.word "FROM".toList ::
      is.filter (fun i => !i.isBlank) ++ ts.filter fun i => !i.isBlank) := by
  obtain ⟨hs, hhead, hlevel⟩ := level_head h
  have hall := hhead.append (hrows.append htail hclean) trivial
  rw [← sql_eq] at hall
  rw [readItems_toText (Select.sealed h) hall, Option.map_some, List.filter_append, fromOn,
    List.dropWhile_append_of_pos fun i hi => by simp [(hlevel.not_clause hi).1],
    List.filter_append]
  rfl

/-- What stands in parentheses is no clause of the read around it. -/
example : (readItems "SELECT (SELECT a FROM b LIMIT 1) FROM c WHERE d ORDER BY e LIMIT 2").map
    (fun is => upToOrder (fromOn is)) = some [.word "FROM".toList, .word ['c'],
      .word "WHERE".toList, .word ['d']] := by rfl

end Select

end CatalogQuery.Sql
