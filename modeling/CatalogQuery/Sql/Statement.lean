import CatalogQuery.Sql.Predicate

/-!
# Statements

Reads and writes as the database gets them. A read is a `Select`; a write changes the rows of one
table.
-/

namespace CatalogQuery.Sql

/-- What a read returns of each row. -/
inductive Selected where
  /-- Every column of a table. -/
  | all (table : String)
  | expr (e : Expr)
  | named (e : Expr) (called : String)
  /-- How many different values a column has, as a column of its own. -/
  | countDistinct (c : Column) (called : String)

def Selected.sql : Selected → Sql
  | all table => name table ++ word ".*"
  | expr e => e.sql
  | named e called => e.sql ++ word " AS " ++ name called
  | countDistinct c called => word "COUNT(DISTINCT " ++ c.sql ++ word ") AS " ++ name called

/-- An expression that rows are ordered by. -/
structure SortTerm where
  expr : Expr
  descending : Bool

def SortTerm.sql (o : SortTerm) : Sql := o.expr.sql ++ word (if o.descending then " DESC" else " ASC")

def orderSql (order : List SortTerm) : Sql := sepBy ", " (order.map SortTerm.sql)

structure Select where
  distinct : Bool
  columns : List Selected
  source : Source
  filter : Option Predicate
  order : List SortTerm
  limit : Option Int
  offset : Option Int

namespace Select

/-- The columns of a source's rows that satisfy a filter. -/
def plain (distinct : Bool) (columns : List Selected) (source : Source)
    (filter : Option Predicate) : Select :=
  ⟨distinct, columns, source, filter, [], none, none⟩

/-- The tables and the restriction on their rows. -/
def rowsSql (s : Select) : Sql :=
  word " FROM " ++ s.source.sql ++
    match s.filter with
    | none => []
    | some p => word " WHERE " ++ p.sql

def sql (s : Select) : Sql :=
  word (if s.distinct then "SELECT DISTINCT " else "SELECT ") ++
    sepBy ", " (s.columns.map Selected.sql) ++ s.rowsSql ++
    (match s.order with
      | [] => []
      | order => word " ORDER BY " ++ orderSql order) ++
    (match s.limit with
      | none => []
      | some n => word " LIMIT " ++ [.number (.int n)]) ++
    match s.offset with
    | none => []
    | some n => word " OFFSET " ++ [.number (.int n)]

end Select

/-- A column and what it is set to. -/
structure Assignment where
  column : String
  value : Operand

def Assignment.sql (a : Assignment) : Sql := name a.column ++ word " = " ++ a.value.sql

/-- The test of a column for one value. -/
def columnIs (column : String) (v : Json) : Predicate := .compare (.bare column) .eq (.value v)

/-- The test of a column for one of several values. -/
def columnAmong (column : String) (vs : List Json) : Predicate :=
  .oneOf (.bare column) (vs.map .value) false

/-- All of several tests; a write has at least one. -/
def allSql (tests : List Predicate) : Sql := sepBy " AND " (tests.map Predicate.sql)

inductive Write where
  | insert (table : String) (row : List Assignment)
  /-- Adds a row of two columns unless there is one already. -/
  | insertPair (table : String) (left right : Assignment)
  | update (table : String) (row : List Assignment) (tests : List Predicate)
  | delete (table : String) (tests : List Predicate)

def Write.sql : Write → Sql
  | insert table row =>
    word "INSERT INTO " ++ name table ++ word " (" ++
      sepBy ", " (row.map fun a => name a.column) ++ word ") VALUES (" ++
      sepBy ", " (row.map fun a => a.value.sql) ++ word ")"
  | insertPair table left right =>
    word "INSERT INTO " ++ name table ++ word " (" ++ name left.column ++ word ", " ++
      name right.column ++ word ") SELECT " ++ left.value.sql ++ word ", " ++ right.value.sql ++
      word " FROM DUAL WHERE NOT EXISTS (SELECT 1 FROM " ++ name table ++ word " WHERE " ++
      left.sql ++ word " AND " ++ right.sql ++ word ")"
  | update table row tests =>
    word "UPDATE " ++ name table ++ word " SET " ++ sepBy ", " (row.map Assignment.sql) ++
      word " WHERE " ++ allSql tests
  | delete table tests => word "DELETE FROM " ++ name table ++ word " WHERE " ++ allSql tests

end CatalogQuery.Sql
