import CatalogQuery.Catalog.Basic
import CatalogQuery.Settings
import CatalogQuery.Sql.Name

/-!
# Links

Where the link that a connection field describes is held: in a column of the object's own table, in
a column of the linked table, or in the rows of a junction table between them.
-/

namespace CatalogQuery

/-- The columns through which rows reach the linked rows. -/
inductive LinkKeys where
  /-- The own column `foreign` holds the linked column `target`. -/
  | own (foreign target : String)
  /-- The linked column `foreign` holds the own column `source`. -/
  | linked (foreign source : String)
  /-- A row of `table` pairs the own column `source` with the linked column `target`. -/
  | junction (table sourceColumn targetColumn source target : String)
deriving DecidableEq, Repr

namespace LinkKeys

/-- The column of the object that its links are known by. -/
def baseColumn : LinkKeys → String
  | own foreign _ => foreign
  | linked _ source => source
  | junction _ _ _ source _ => source

/-- The column of the linked object that a linked record is known by. -/
def linkedColumn (keys : LinkKeys) (target : Entity) : String :=
  match keys with
  | own _ key => key
  | linked _ _ => target.keyColumn
  | junction _ _ _ _ key => key

end LinkKeys

/-- A connection field whose link is resolved. -/
structure Link where
  /-- Id of the field. -/
  field : String
  column : String
  /-- The name under which linked records are attached to a record. -/
  relation : String
  shape : Shape
  /-- Id of the linked object. -/
  target : String
  targetTable : String
  /-- Whether a record leads to many linked records. -/
  many : Bool
  keys : LinkKeys
deriving DecidableEq, Repr

/-- The resolved connection fields of an object. -/
structure LinkMap where
  /-- Id of the object. -/
  entity : String
  links : List Link
deriving DecidableEq, Repr

namespace LinkMap

/-- The link of a field, by its id or else its column. -/
def get (m : LinkMap) (key : String) : Option Link :=
  match m.links.find? (·.field == key) with
  | some l => some l
  | none => m.links.find? (·.column == key)

def byRelation (m : LinkMap) (name : String) : Option Link :=
  m.links.find? (·.relation == name)

/-- Whether any link leads to an object. -/
def leadsTo (m : LinkMap) (entity : String) : Bool := m.links.any (·.target == entity)

end LinkMap

/-- Gives the resolved links of an object by its id. -/
abbrev Links := String → Result LinkMap

/-- The name of a junction table. Both tables and the column get the same share of the limit that
the head and the three separators leave. -/
def junctionName (head source target column : String) (limit : Nat) : String :=
  let share := (limit - (head.toList.length + 3)) / 3
  head ++ "_" ++ Sql.cut source share ++ "_" ++ Sql.cut target share ++ "_" ++
    Sql.cut column share

theorem length_junctionName (head source target column : String) (limit : Nat)
    (h : head.toList.length + 3 ≤ limit) :
    (junctionName head source target column limit).toList.length ≤ limit := by
  have hs := Nat.div_mul_le_self (limit - (head.toList.length + 3)) 3
  have cut_le (s : String) (n : Nat) : (Sql.cut s n).toList.length ≤ n := by
    rw [Sql.length_cut]; exact Nat.min_le_left _ _
  have h1 := cut_le source ((limit - (head.toList.length + 3)) / 3)
  have h2 := cut_le target ((limit - (head.toList.length + 3)) / 3)
  have h3 := cut_le column ((limit - (head.toList.length + 3)) / 3)
  simp only [junctionName, String.toList_append, List.length_append]
  have u : "_".toList.length = 1 := rfl
  omega

end CatalogQuery
