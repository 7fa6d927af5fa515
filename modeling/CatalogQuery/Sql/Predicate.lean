import CatalogQuery.Field.Basic
import CatalogQuery.Sql.Quote

/-!
# Expressions and predicates

What a statement computes and tests, and how it is written. A predicate is written so that it can
stand beside others: several joined by "or" or "and" are in parentheses, one is not.
-/

namespace CatalogQuery.Sql

/-- A column of a table, which goes by its own name or an alias. -/
structure Column where
  table : String
  name : String
deriving DecidableEq, Repr

def Column.sql (c : Column) : Sql := [.name c.table, .raw ".", .name c.name]

/-- A pair of columns that are equal. -/
structure ColumnPair where
  left : Column
  right : Column
deriving DecidableEq, Repr

def ColumnPair.sql (p : ColumnPair) : Sql := p.left.sql ++ word " = " ++ p.right.sql

/-- A table that joins the ones before it where two columns are equal. -/
structure Joined where
  /-- Whether rows without a partner stay. -/
  outer : Bool
  table : String
  called : String
  on : ColumnPair
deriving DecidableEq, Repr

/-- A table under its name. -/
def aliased (table called : String) : Sql := [.name table, .raw " AS ", .name called]

def Joined.sql (j : Joined) : Sql :=
  word (if j.outer then " LEFT JOIN " else " INNER JOIN ") ++ aliased j.table j.called ++
    word " ON " ++ j.on.sql

/-- The tables that rows are taken from. -/
structure Source where
  table : String
  called : Option String
  joins : List Joined
deriving DecidableEq, Repr

def Source.sql (s : Source) : Sql :=
  (match s.called with
    | none => name s.table
    | some called => aliased s.table called) ++ s.joins.flatMap Joined.sql

inductive Comparison where
  | eq | ne | lt | gt | le | ge
deriving DecidableEq, Repr

def Comparison.symbol : Comparison → String
  | eq => "="
  | ne => "<>"
  | lt => "<"
  | gt => ">"
  | le => "<="
  | ge => ">="

/-- What a column is compared with or set to. -/
inductive Operand where
  | value (v : Json)
  /-- The day of a value. -/
  | day (v : Json)
  | today
  | now
  /-- A text, whatever it looks like. -/
  | text (s : String)
  /-- Text that is SQL already. -/
  | raw (s : String)

def Operand.sql : Operand → Sql
  | value v => ofValue v
  | day v => word "DATE(" ++ ofValue v ++ word ")"
  | today => word "CURDATE()"
  | now => word "NOW()"
  | text s => [.text s]
  | raw s => word s

/-- A character of a calculation, or a column that stands in it. -/
inductive CalculationPart where
  | char (c : Char)
  | column (c : Column)
deriving DecidableEq, Repr

def CalculationPart.sql : CalculationPart → Sql
  | char c => word (String.singleton c)
  | column c => c.sql

/-- How an aggregate of a column is written; sums and counts of nothing are zero. -/
def aggregateSql (f : Aggregate) (column : Column) : Sql :=
  match f with
  | .sum => word "COALESCE(SUM(" ++ column.sql ++ word "), 0)"
  | .count => word "COALESCE(COUNT(" ++ column.sql ++ word "), 0)"
  | .average => word "AVG(" ++ column.sql ++ word ")"
  | .max => word "MAX(" ++ column.sql ++ word ")"
  | .min => word "MIN(" ++ column.sql ++ word ")"

def glueWord : Glue → String
  | .and => " AND "
  | .or => " OR "

mutual
inductive Expr where
  /-- Text that is SQL already. -/
  | raw (s : String)
  | column (c : Column)
  /-- A column of the only table there is. -/
  | bare (name : String)
  | null
  | date (e : Expr)
  /-- What a translations column holds for a column in a language. -/
  | translation (e : Expr) (language column : String)
  /-- The position of a value in a list of texts. -/
  | position (e : Expr) (items : List String)
  | calculation (parts : List CalculationPart)
  /-- An aggregate over the rows of a source that belong to the outer row. -/
  | aggregate (f : Aggregate) (column : Column) (source : Source) (on : ColumnPair)
    (filter : Option Predicate)
inductive Predicate where
  /-- Text that is SQL already. -/
  | raw (s : String)
  | constant (truth : Bool)
  | compare (e : Expr) (c : Comparison) (o : Operand)
  | isNull (e : Expr) (negated : Bool)
  /-- Null or the empty text. -/
  | isEmpty (e : Expr) (negated : Bool)
  | like (e : Expr) (pattern : String) (negated : Bool)
  | between (e : Expr) (low high : Operand) (negated : Bool)
  | oneOf (e : Expr) (items : List Operand) (negated : Bool)
  | inSubquery (e : Expr) (subquery : String) (negated : Bool)
  | existsIn (subquery : String) (negated : Bool)
  /-- Whether a source has rows that belong to the outer row. -/
  | related (source : Source) (on : ColumnPair) (filter : Option Predicate) (negated : Bool)
  | glued (glue : Glue) (parts : List Predicate)
end

/-- The place of a column in a translation. -/
def translationPath (column : String) : String :=
  ".\"" ++ String.ofList (column.toList.filter (· ≠ '"')) ++ "\""

def notWord (negated : Bool) : Sql := if negated then word "NOT " else []

mutual
def Expr.sql : Expr → Sql
  | .raw s => word s
  | .column c => c.sql
  | .bare column => name column
  | .null => word "NULL"
  | .date e => word "DATE(" ++ e.sql ++ word ")"
  | .translation e language column =>
    let e := e.sql
    word "JSON_UNQUOTE(JSON_EXTRACT(" ++ e ++
      word ", CONCAT(SUBSTRING_INDEX(JSON_UNQUOTE(JSON_SEARCH(" ++ e ++ word ", 'one', " ++
      [.text language] ++ word ")), '.', 1), " ++ [.text (translationPath column)] ++ word ")))"
  | .position e items =>
    word "FIND_IN_SET(" ++ e.sql ++ word ", " ++ [.text (",".intercalate items)] ++ word ")"
  | .calculation parts => word "(" ++ parts.flatMap CalculationPart.sql ++ word ")"
  | .aggregate f column source on filter =>
    word "(SELECT " ++ aggregateSql f column ++ word " FROM " ++ source.sql ++ word " WHERE " ++
      on.sql ++ filterSql filter ++ word ")"
def Predicate.sql : Predicate → Sql
  | .raw s => word s
  | .constant truth => word (if truth then "1 = 1" else "1 = 0")
  | .compare e c o => e.sql ++ word " " ++ word c.symbol ++ word " " ++ o.sql
  | .isNull e negated => e.sql ++ word " IS " ++ notWord negated ++ word "NULL"
  | .isEmpty e negated =>
    word "NULLIF(" ++ e.sql ++ word ", '') IS " ++ notWord negated ++ word "NULL"
  | .like e pattern negated =>
    e.sql ++ word " " ++ notWord negated ++ word "LIKE " ++ [.text pattern]
  | .between e low high negated =>
    e.sql ++ word " " ++ notWord negated ++ word "BETWEEN " ++ low.sql ++ word " AND " ++ high.sql
  | .oneOf e items negated =>
    e.sql ++ word " " ++ notWord negated ++ word "IN (" ++
      sepBy ", " (items.map Operand.sql) ++ word ")"
  | .inSubquery e subquery negated =>
    e.sql ++ word " " ++ notWord negated ++ word "IN (" ++ word subquery ++ word ")"
  | .existsIn subquery negated =>
    notWord negated ++ word "EXISTS (" ++ word subquery ++ word ")"
  | .related source on filter negated =>
    notWord negated ++ word "EXISTS (SELECT 1 FROM " ++ source.sql ++ word " WHERE " ++ on.sql ++
      filterSql filter ++ word ")"
  | .glued glue parts => word "(" ++ partsSql glue parts ++ word ")"
/-- A further restriction of the rows of a subquery. -/
def filterSql : Option Predicate → Sql
  | none => []
  | some p => word " AND " ++ p.sql
def partsSql (glue : Glue) : List Predicate → Sql
  | [] => []
  | [p] => p.sql
  | p :: rest => p.sql ++ word (glueWord glue) ++ partsSql glue rest
end

/-- Where the text of a pattern stands. -/
inductive Pattern where
  | contains | beginsWith | endsWith
deriving DecidableEq, Repr

def Pattern.around (p : Pattern) (s : String) : String :=
  match p with
  | contains => "%" ++ s ++ "%"
  | beginsWith => s ++ "%"
  | endsWith => "%" ++ s

namespace Predicate

/-- Compares with a value; anything but "not equal" to null asks for null. -/
def compareValue (e : Expr) (c : Comparison) (v : Json) : Predicate :=
  if v.isNull then isNull e (c == .ne) else compare e c (.value v)

def likeValue (e : Expr) (p : Pattern) (v : Json) (negated : Bool) : Predicate :=
  like e (p.around v.plain) negated

/-- Whether a column that holds a JSON array of texts holds one of them. -/
def member (e : Expr) (item : String) (negated : Bool) : Predicate :=
  let pattern := "%\"" ++ item ++ "\"%"
  -- A column without a value holds no text at all.
  if negated then glued .or [isNull e false, like e pattern true] else like e pattern false

/-- Whether a value is in a list; it is in the empty list never. -/
def among (e : Expr) (items : List Operand) (negated : Bool) : Predicate :=
  if items.isEmpty then constant negated else oneOf e items negated

/-- Several predicates as one; none when there are none. -/
def glue (g : Glue) : List Predicate → Option Predicate
  | [] => none
  | [p] => some p
  | ps => some (glued g ps)

end Predicate

end CatalogQuery.Sql
