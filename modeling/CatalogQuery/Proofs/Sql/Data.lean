import CatalogQuery.Proofs.Sql.Sealed

/-!
# The data in a statement

What stands in a statement for data, from left to right: texts, numbers and calls of functions. Main
statements: which data the parts of a statement hold, and that a text that is quoted is read as that
text.
-/

namespace CatalogQuery.Sql

def Piece.isData : Piece → Bool
  | text _ | number _ | call _ => true
  | raw _ | name _ => false

/-- The data in a part of a statement. -/
def data (sql : Sql) : List Piece := sql.filter Piece.isData

/-- What a value is in a statement, if it is data there. -/
def dataOf (v : Json) : List Piece := data (ofValue v)

/-- A text is quoted unless it is the call of a function. -/
theorem dataOf_str_iff (s : String) : dataOf (.str s) = [.text s] ↔ isCall s.toList = false := by
  rw [dataOf, ofValue]
  cases isCall s.toList <;> simp [data, Piece.isData, List.filter_cons]

/-- Of a statement in which a text is quoted, the database reads that text. -/
theorem tokens_text (a b : Sql) (s : String) :
    tokens (a ++ .text s :: b) = tokens a ++ .text s.toList :: tokens b := by
  rw [tokens, List.flatMap_append, List.flatMap_cons]
  rfl

/-! ## Parts of statements -/

@[simp]
theorem data_nil : data [] = [] := rfl

@[simp]
theorem data_append (a b : Sql) : data (a ++ b) = data a ++ data b := List.filter_append ..

@[simp]
theorem data_word (w : String) : data (word w) = [] := rfl

@[simp]
theorem data_name (s : String) : data (name s) = [] := rfl

@[simp]
theorem data_text (s : String) : data [.text s] = [.text s] := rfl

@[simp]
theorem data_number (n : Number) : data [.number n] = [.number n] := rfl

@[simp]
theorem data_column (c : Column) : data c.sql = [] := rfl

@[simp]
theorem data_columnPair (p : ColumnPair) : data p.sql = [] := rfl

theorem data_flatMap {α : Type} (f : α → Sql) (as : List α) :
    data (as.flatMap f) = as.flatMap fun a => data (f a) := List.filter_flatMap ..

theorem data_sepBy (separator : String) (parts : List Sql) :
    data (sepBy separator parts) = parts.flatMap data := by
  induction parts with
  | nil => rfl
  | cons a rest ih =>
    cases rest with
    | nil => exact (List.append_nil _).symm
    | cons b rest =>
      rw [sepBy, data_append, data_append, data_word, List.append_nil, ih]
      · rfl
      · exact List.cons_ne_nil b rest

@[simp]
theorem data_source (s : Source) : data s.sql = [] := by
  have hjoined (j : Joined) : data j.sql = [] := by
    simp only [Joined.sql, aliased, data_append, data_word, data_columnPair]
    rfl
  have hjoins : (s.joins.flatMap fun j => data j.sql) = [] :=
    List.flatMap_eq_nil_iff.2 fun j _ => hjoined j
  rw [Source.sql, data_append, data_flatMap, hjoins, List.append_nil]
  cases s.called <;> rfl

@[simp]
theorem data_notWord (negated : Bool) : data (notWord negated) = [] := by
  cases negated <;> rfl

@[simp]
theorem data_value (v : Json) : data (Operand.value v).sql = dataOf v := rfl

@[simp]
theorem data_day (v : Json) : data (Operand.day v).sql = dataOf v := by
  simp [Operand.sql, dataOf]

@[simp]
theorem data_operandText (s : String) : data (Operand.text s).sql = [.text s] := rfl

@[simp]
theorem dataOf_null : dataOf .null = [] := rfl

/-! ## Predicates -/

section

variable (e : Expr) (negated : Bool)

@[simp]
theorem data_date : data (Expr.date e).sql = data e.sql := by
  simp [Expr.sql]

@[simp]
theorem data_columnExpr (c : Column) : data (Expr.column c).sql = [] := by
  simp [Expr.sql]

@[simp]
theorem data_bare (column : String) : data (Expr.bare column).sql = [] := by
  simp [Expr.sql]

@[simp]
theorem data_compare (c : Comparison) (o : Operand) :
    data (Predicate.compare e c o).sql = data e.sql ++ data o.sql := by
  simp [Predicate.sql]

@[simp]
theorem data_isNull : data (Predicate.isNull e negated).sql = data e.sql := by
  simp [Predicate.sql]

@[simp]
theorem data_like (pattern : String) :
    data (Predicate.like e pattern negated).sql = data e.sql ++ [.text pattern] := by
  simp [Predicate.sql]

@[simp]
theorem data_oneOf (items : List Operand) :
    data (Predicate.oneOf e items negated).sql = data e.sql ++ items.flatMap (data ·.sql) := by
  simp [Predicate.sql, data_sepBy, List.flatMap_map]

theorem data_among {items : List Operand} (h : items ≠ []) :
    data (Predicate.among e items negated).sql = data e.sql ++ items.flatMap (data ·.sql) := by
  rw [Predicate.among, if_neg (by simpa using h), data_oneOf]

@[simp]
theorem data_constant (truth : Bool) : data (Predicate.constant truth).sql = [] := by
  simp [Predicate.sql]

theorem data_parts (g : Glue) (ps : List Predicate) :
    data (partsSql g ps) = ps.flatMap (data ·.sql) := by
  induction ps with
  | nil => rfl
  | cons p rest ih =>
    cases rest with
    | nil => exact (List.append_nil _).symm
    | cons q rest =>
      rw [partsSql, data_append, data_append, data_word, List.append_nil, ih]
      · rfl
      · exact List.cons_ne_nil q rest

@[simp]
theorem data_glued (g : Glue) (ps : List Predicate) :
    data (Predicate.glued g ps).sql = ps.flatMap (data ·.sql) := by
  simp [Predicate.sql, data_parts]

theorem data_glue {g : Glue} {ps : List Predicate} {p : Predicate}
    (h : Predicate.glue g ps = some p) : data p.sql = ps.flatMap (data ·.sql) := by
  match ps with
  | [] => cases h
  | [q] =>
    cases h
    exact (List.append_nil _).symm
  | q :: q' :: rest =>
    cases h
    exact data_glued g _

/-- A text that is looked for between quotes stands inside a pattern. -/
theorem data_member (item : String) :
    data (Predicate.member e item negated).sql =
      (if negated then data e.sql else []) ++ data e.sql ++ [.text ("%\"" ++ item ++ "\"%")] := by
  cases negated <;> simp [Predicate.member]

theorem data_related (source : Source) (on : ColumnPair) (filter : Option Predicate) :
    data (Predicate.related source on filter negated).sql =
      filter.elim [] fun p => data p.sql := by
  cases filter <;> simp [Predicate.sql, filterSql]

end

/-! ## Statements -/

@[simp]
theorem data_columnIs (column : String) (v : Json) : data (columnIs column v).sql = dataOf v := by
  simp [columnIs]

@[simp]
theorem data_columnAmong (column : String) (vs : List Json) :
    data (columnAmong column vs).sql = vs.flatMap dataOf := by
  simp [columnAmong, List.flatMap_map]

@[simp]
theorem data_assignment (a : Assignment) : data a.sql = data a.value.sql := by
  simp [Assignment.sql]

theorem data_allSql (tests : List Predicate) :
    data (allSql tests) = tests.flatMap (data ·.sql) := by
  rw [allSql, data_sepBy, List.flatMap_map]

/-- A new row holds the data that its columns are set to. -/
theorem data_insert (table : String) (row : List Assignment) :
    data (Write.insert table row).sql = row.flatMap (data ·.value.sql) := by
  simp [Write.sql, data_sepBy, List.flatMap_map]

theorem data_insertPair (table : String) (left right : Assignment) :
    data (Write.insertPair table left right).sql =
      [left, right, left, right].flatMap (data ·.value.sql) := by
  simp [Write.sql]

theorem data_update (table : String) (row : List Assignment) (tests : List Predicate) :
    data (Write.update table row tests).sql =
      row.flatMap (data ·.value.sql) ++ tests.flatMap (data ·.sql) := by
  simp [Write.sql, data_sepBy, data_allSql, List.flatMap_map]

theorem data_delete (table : String) (tests : List Predicate) :
    data (Write.delete table tests).sql = tests.flatMap (data ·.sql) := by
  simp [Write.sql, data_allSql]

end CatalogQuery.Sql
