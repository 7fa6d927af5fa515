import CatalogQuery.Proofs.Sql.Sealed

/-!
# Composed statements

An expression or predicate is composed when none of its parts is text that is SQL already, and
every group has at least two parts. Main statements: reads and writes made of composed parts are
sealed.
-/

namespace CatalogQuery.Sql

def Operand.Composed : Operand → Prop
  | .raw _ => False
  | _ => True

mutual
def Expr.Composed : Expr → Prop
  | .raw _ => False
  | .column _ => True
  | .bare _ => True
  | .null => True
  | .date e => e.Composed
  | .translation e _ _ => e.Composed
  | .position e _ => e.Composed
  -- The characters of a calculation are those of the metadata.
  | .calculation _ => False
  | .aggregate _ _ _ _ filter => FilterComposed filter
def Predicate.Composed : Predicate → Prop
  | .raw _ => False
  | .constant _ => True
  | .compare e _ o => e.Composed ∧ o.Composed
  | .isNull e _ => e.Composed
  | .isEmpty e _ => e.Composed
  | .like e _ _ => e.Composed
  | .between e low high _ => e.Composed ∧ low.Composed ∧ high.Composed
  | .oneOf e items _ => e.Composed ∧ ∀ o ∈ items, o.Composed
  | .inSubquery _ _ _ => False
  | .existsIn _ _ => False
  | .related _ _ filter _ => FilterComposed filter
  | .glued _ parts => 2 ≤ parts.length ∧ PartsComposed parts
def FilterComposed : Option Predicate → Prop
  | none => True
  | some p => p.Composed
def PartsComposed : List Predicate → Prop
  | [] => True
  | p :: rest => p.Composed ∧ PartsComposed rest
end

theorem partsComposed_iff {parts : List Predicate} :
    PartsComposed parts ↔ ∀ p ∈ parts, p.Composed := by
  induction parts with
  | nil => simp [PartsComposed]
  | cons p rest ih => simp [PartsComposed, ih]

/-! ## Rendering -/

theorem sealed_ofValue (v : Json) : Sealed (ofValue v) := by
  -- A text may be a call; all other values are numbers, words or quoted.
  cases v with
  | null => simp +decide [ofValue, word]
  | bool b => cases b <;> simp +decide [ofValue, word]
  | num n => simp [ofValue]
  | str s =>
    rw [ofValue]
    split
    · rename_i h
      simpa [Piece.Fits] using ⟨s.toList, h, rfl⟩
    · simp
  | arr items => simp [ofValue]
  | obj members => simp [ofValue]

theorem Operand.sealed {o : Operand} (h : o.Composed) : Sealed o.sql := by
  cases o with
  | value v => exact sealed_ofValue v
  | day v =>
    have hv := sealed_ofValue v
    simp +decide [sql, word, hv]
  | today => simp +decide [sql, word]
  | now => simp +decide [sql, word]
  | text s => simp [sql]
  | raw s => exact h.elim

/-- Sealed parts with a word of the vocabulary between them. -/
theorem sealed_sepBy {separator : String} (hs : separator ∈ vocabulary) {parts : List Sql}
    (h : ∀ a ∈ parts, Sealed a) : Sealed (sepBy separator parts) := by
  induction parts with
  | nil => simp [sepBy]
  | cons a rest ih =>
    have ha := h a (by simp)
    cases rest with
    | nil => exact ha
    | cons b rest =>
      have hrest := ih fun c hc => h c (List.mem_cons_of_mem _ hc)
      simp [sepBy, word, ha, hs, hrest]

theorem Column.sealed (c : Column) : Sealed c.sql := by
  simp +decide [Column.sql]

theorem ColumnPair.sealed (p : ColumnPair) : Sealed p.sql := by
  simp +decide [ColumnPair.sql, word, p.left.sealed, p.right.sealed]

theorem Joined.sealed_append {a : Sql} (h : Sealed a) (j : Joined) : Sealed (a ++ j.sql) := by
  have hw : (if j.outer then " LEFT JOIN " else " INNER JOIN ") ∈ vocabulary := by
    split <;> decide
  simp +decide [Joined.sql, aliased, word, h, hw, j.on.sealed]

theorem Source.sealed (s : Source) : Sealed s.sql := by
  have hjoins (joins : List Joined) {a : Sql} (h : Sealed a) :
      Sealed (a ++ joins.flatMap Joined.sql) := by
    induction joins generalizing a with
    | nil => simpa using h
    | cons j joins ih =>
      rw [List.flatMap_cons, ← List.append_assoc]
      exact ih (j.sealed_append h)
  rw [Source.sql]
  apply hjoins
  cases s.called with
  | none => simp [name]
  | some called => simp +decide [aliased]

theorem sealed_aggregate (f : Aggregate) (c : Column) : Sealed (aggregateSql f c) := by
  cases f <;> simp +decide [aggregateSql, word, c.sealed]

theorem symbol_mem (c : Comparison) : c.symbol ∈ vocabulary := by
  cases c <;> decide

theorem glueWord_mem (g : Glue) : glueWord g ∈ vocabulary := by
  cases g <;> decide

theorem sealed_close {a b : Sql} (h : Sealed (a ++ b)) : Sealed (a ++ (b ++ [Piece.raw ")"])) := by
  rw [← List.append_assoc, sealed_append_raw]
  exact ⟨h, by decide, trivial⟩

mutual
theorem Expr.sealed : (e : Expr) → e.Composed → Sealed e.sql
  | .raw _, h => h.elim
  | .column c, _ => c.sealed
  | .bare c, _ => by simp [Expr.sql, name]
  | .null, _ => by simp +decide [Expr.sql, word]
  | .date e, h => by
    have he := Expr.sealed e h
    simp +decide [Expr.sql, word, he]
  | .translation e language column, h => by
    have he := Expr.sealed e h
    simp +decide [Expr.sql, word, he]
  | .position e items, h => by
    have he := Expr.sealed e h
    simp +decide [Expr.sql, word, he]
  | .calculation _, h => h.elim
  | .aggregate f column source on filter, h => by
    have ha := sealed_aggregate f column
    have hf := sealed_close (filter_sealed filter h on.sealed)
    simp +decide [Expr.sql, word, ha, source.sealed, hf]
theorem Predicate.sealed : (p : Predicate) → p.Composed → Sealed p.sql
  | .raw _, h => h.elim
  | .constant truth, _ => by cases truth <;> simp +decide [Predicate.sql, word]
  | .compare e c o, h => by
    have he := Expr.sealed e h.1
    have ho := o.sealed h.2
    have hc := symbol_mem c
    simp +decide [Predicate.sql, word, he, ho, hc]
  | .isNull e negated, h => by
    have he := Expr.sealed e h
    cases negated <;> simp +decide [Predicate.sql, word, notWord, he]
  | .isEmpty e negated, h => by
    have he := Expr.sealed e h
    cases negated <;> simp +decide [Predicate.sql, word, notWord, he]
  | .like e pattern negated, h => by
    have he := Expr.sealed e h
    cases negated <;> simp +decide [Predicate.sql, word, notWord, he]
  | .between e low high negated, h => by
    have he := Expr.sealed e h.1
    have hl := low.sealed h.2.1
    have hh := high.sealed h.2.2
    cases negated <;> simp +decide [Predicate.sql, word, notWord, he, hl, hh]
  | .oneOf e items negated, h => by
    have he := Expr.sealed e h.1
    have hitems : Sealed (sepBy ", " (items.map Operand.sql)) := by
      refine sealed_sepBy (by decide) fun a ha => ?_
      obtain ⟨o, ho, rfl⟩ := List.mem_map.1 ha
      exact o.sealed (h.2 o ho)
    cases negated <;> simp +decide [Predicate.sql, word, notWord, he, hitems]
  | .inSubquery _ _ _, h => h.elim
  | .existsIn _ _, h => h.elim
  | .related source on filter negated, h => by
    have hf := sealed_close (filter_sealed filter h on.sealed)
    cases negated <;> simp +decide [Predicate.sql, word, notWord, source.sealed, hf]
  | .glued glue parts, h => by
    have hp := parts_sealed glue parts h.2
    simp +decide [Predicate.sql, word, hp]
theorem filter_sealed : (filter : Option Predicate) → FilterComposed filter → {a : Sql} → Sealed a →
    Sealed (a ++ filterSql filter)
  | none, _, a, ha => by simpa [filterSql] using ha
  | some p, h, a, ha => by
    have hp := Predicate.sealed p h
    simp +decide [filterSql, word, ha, hp]
theorem parts_sealed (glue : Glue) : (parts : List Predicate) → PartsComposed parts →
    Sealed (partsSql glue parts)
  | [], _ => by simp [partsSql]
  | [p], h => by simpa [partsSql] using Predicate.sealed p h.1
  | p :: q :: rest, h => by
    have hp := Predicate.sealed p h.1
    have hrest := parts_sealed glue (q :: rest) h.2
    have hg := glueWord_mem glue
    simp [partsSql, word, hp, hrest, hg]
end

/-! ## Reads and writes -/

def Selected.Composed : Selected → Prop
  | .all _ => True
  | .expr e => e.Composed
  | .named e _ => e.Composed
  | .countDistinct _ _ => True

structure Select.Composed (s : Select) : Prop where
  columns : ∀ c ∈ s.columns, c.Composed
  filter : FilterComposed s.filter
  order : ∀ o ∈ s.order, o.expr.Composed

/-- A read without an order is composed when its columns and its filter are. -/
theorem Select.composed_plain {distinct : Bool} {columns : List Selected} {source : Source}
    {filter : Option Predicate} (hc : ∀ c ∈ columns, c.Composed) (hf : FilterComposed filter) :
    (Select.plain distinct columns source filter).Composed :=
  ⟨hc, hf, by simp [Select.plain]⟩

def Write.Composed : Write → Prop
  | .insert _ row => ∀ a ∈ row, a.value.Composed
  | .insertPair _ left right => left.value.Composed ∧ right.value.Composed
  | .update _ row tests => (∀ a ∈ row, a.value.Composed) ∧ ∀ p ∈ tests, p.Composed
  | .delete _ tests => ∀ p ∈ tests, p.Composed

theorem Selected.sealed {c : Selected} (h : c.Composed) : Sealed c.sql := by
  cases c with
  | all table => simp +decide [Selected.sql, name, word]
  | expr e => exact e.sealed h
  | named e called =>
    have he := e.sealed h
    simp +decide [Selected.sql, name, word, he]
  | countDistinct column called => simp +decide [Selected.sql, name, word, column.sealed]

theorem SortTerm.sealed {o : SortTerm} (h : o.expr.Composed) : Sealed o.sql := by
  have he := o.expr.sealed h
  have hw : (if o.descending then " DESC" else " ASC") ∈ vocabulary := by
    split <;> decide
  simp [SortTerm.sql, word, he, hw]

/-- The tables and the filter of a read, behind its columns. -/
theorem Select.sealed_rows {s : Select} (h : s.Composed) {a : Sql} (ha : Sealed a) :
    Sealed (a ++ s.rowsSql) := by
  have hs := s.source.sealed
  have hf := h.filter
  rw [Select.rowsSql]
  cases hp : s.filter with
  | none => simp +decide [word, ha, hs]
  | some p =>
    rw [hp] at hf
    have hp := p.sealed hf
    simp +decide [word, ha, hs, hp]

/-- What follows the rows of a read. -/
theorem Select.sealed_bounds {a : Sql} (ha : Sealed a) (w : String) (hw : w ∈ vocabulary)
    (n : Option Int) :
    Sealed (a ++ match n with
      | none => []
      | some n => word w ++ [Piece.number (.int n)]) := by
  cases n with
  | none => simpa using ha
  | some n => simp [word, ha, hw]

theorem Select.sealed_order {a : Sql} (ha : Sealed a) (order : List SortTerm) :
    (∀ o ∈ order, o.expr.Composed) →
    Sealed (a ++ match order with
      | [] => []
      | order => word " ORDER BY " ++ orderSql order) := by
  intro h
  have horder : Sealed (orderSql order) := by
    refine sealed_sepBy (by decide) fun b hb => ?_
    obtain ⟨o, ho, rfl⟩ := List.mem_map.1 hb
    exact SortTerm.sealed (h o ho)
  cases order with
  | nil => simpa using ha
  | cons o order => simp +decide [word, ha, horder]

/-- What a read made of composed parts is written as. -/
theorem Select.sealed {s : Select} (h : s.Composed) : Sealed s.sql := by
  have hcolumns : Sealed (sepBy ", " (s.columns.map Selected.sql)) := by
    refine sealed_sepBy (by decide) fun a ha => ?_
    obtain ⟨c, hc, rfl⟩ := List.mem_map.1 ha
    exact Selected.sealed (h.columns c hc)
  have hhead : Sealed (word (if s.distinct then "SELECT DISTINCT " else "SELECT ") ++
      sepBy ", " (s.columns.map Selected.sql)) := by
    cases s.distinct <;> simp +decide [word, hcolumns]
  rw [Select.sql]
  apply sealed_bounds _ _ (by decide)
  apply sealed_bounds _ _ (by decide)
  apply sealed_order _ _ h.order
  exact sealed_rows h hhead

theorem Assignment.sealed {a : Assignment} (h : a.value.Composed) : Sealed a.sql := by
  have hv := a.value.sealed h
  simp +decide [Assignment.sql, word, name, hv]

theorem sealed_allSql {tests : List Predicate} (h : ∀ p ∈ tests, p.Composed) :
    Sealed (allSql tests) := by
  refine sealed_sepBy (by decide) fun a ha => ?_
  obtain ⟨p, hp, rfl⟩ := List.mem_map.1 ha
  exact p.sealed (h p hp)

/-- What a write made of composed parts is written as. -/
theorem Write.sealed {w : Write} (h : w.Composed) : Sealed w.sql := by
  cases w with
  | insert table row =>
    have hnames : Sealed (sepBy ", " (row.map fun a => [.name a.column])) := by
      refine sealed_sepBy (by decide) fun a ha => ?_
      obtain ⟨b, -, rfl⟩ := List.mem_map.1 ha
      simp
    have hvalues : Sealed (sepBy ", " (row.map fun a => a.value.sql)) := by
      refine sealed_sepBy (by decide) fun a ha => ?_
      obtain ⟨b, hb, rfl⟩ := List.mem_map.1 ha
      exact b.value.sealed (h b hb)
    simp +decide [Write.sql, word, name, hnames, hvalues]
  | insertPair table left right =>
    have hl := left.value.sealed h.1
    have hr := right.value.sealed h.2
    have hla := Assignment.sealed h.1
    have hra := Assignment.sealed h.2
    simp +decide [Write.sql, word, name, hl, hr, hla, hra]
  | update table row tests =>
    have hrow : Sealed (sepBy ", " (row.map Assignment.sql)) := by
      refine sealed_sepBy (by decide) fun a ha => ?_
      obtain ⟨b, hb, rfl⟩ := List.mem_map.1 ha
      exact Assignment.sealed (h.1 b hb)
    have htests := sealed_allSql h.2
    simp +decide [Write.sql, word, name, hrow, htests]
  | delete table tests =>
    have htests := sealed_allSql h
    simp +decide [Write.sql, word, name, htests]

end CatalogQuery.Sql
