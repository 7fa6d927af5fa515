import CatalogQuery.Sql.Statement
import CatalogQuery.Write.Values

/-!
# Writing links

The statements that link a record to another one and that take such a link away, for each place
where a link may be held.
-/

namespace CatalogQuery.Write

open Sql

/-- The row that a link is written for. -/
structure Base where
  entity : Entity
  row : Row
  /-- The value of its primary key. -/
  key : Json

namespace Base

/-- The value of a column of the row, or its key where that is blank. -/
def valueOf (b : Base) (column : String) : Json :=
  match Json.find column b.row with
  | some v => if lacksValue v then b.key else v
  | none => b.key

def isRow (b : Base) : Predicate := columnIs b.entity.keyColumn b.key

end Base

/-- Whether a link is one to one within one object, so that both ends are in the same column. -/
def isSelfPair (e : Entity) (l : Link) : Bool := l.shape == .oneToOne && l.target == e.id

def setTo (column : String) (v : Json) : Assignment := ⟨column, .value v⟩

def setNull (column : String) : Assignment := ⟨column, .value .null⟩

/-- Links a row to the linked record with a key. -/
def relate (b : Base) (l : Link) (keyColumn : String) (target : Json) : List Sql.Write :=
  let table := b.entity.table
  match l.keys with
  | .own foreign targetKey =>
    if isSelfPair b.entity l then
      -- Both records lose their partners before they become each other's.
      let own := b.valueOf targetKey
      [.update table [setNull foreign] [columnAmong foreign [own, target]],
        .update table [setTo foreign target] [b.isRow],
        .update table [setTo foreign own] [columnIs targetKey target]]
    else [.update table [setTo foreign target] [b.isRow]]
  | .linked foreign source =>
    let base := b.valueOf source
    -- Of a one to one link the linked record so far gives way.
    (if l.shape == .oneToOne then
        [.update l.targetTable [setNull foreign] [columnIs foreign base]]
      else []) ++
      [.update l.targetTable [setTo foreign base] [columnIs keyColumn target]]
  | .junction junction sourceColumn targetColumn source _ =>
    [.insertPair junction (setTo sourceColumn (b.valueOf source)) (setTo targetColumn target)]

/-- Takes away the link of a row to the linked record with a key. -/
def unrelate (b : Base) (l : Link) (keyColumn : String) (target : Json) : List Sql.Write :=
  let table := b.entity.table
  match l.keys with
  | .own foreign targetKey =>
    if isSelfPair b.entity l then
      -- Either end is let go only if it holds this link.
      [.update table [setNull foreign] [b.isRow, columnIs foreign target],
        .update table [setNull foreign]
          [columnIs targetKey target, columnIs foreign (b.valueOf targetKey)]]
    else [.update table [setNull foreign] [b.isRow, columnIs foreign target]]
  | .linked foreign source =>
    [.update l.targetTable [setNull foreign]
      [columnIs keyColumn target, columnIs foreign (b.valueOf source)]]
  | .junction junction sourceColumn targetColumn source _ =>
    [.delete junction [columnIs sourceColumn (b.valueOf source), columnIs targetColumn target]]

/-- The column that the current keys of a link are read under. -/
def keyAlias : String := "__key"

/-- The statement that reads the keys that a row is linked to now; none when the row has them
itself. -/
def currentSelect (b : Base) (v : LinkValues) : Option Select :=
  match v.link.keys with
  | .own _ _ => none
  | .linked foreign source =>
    some (.plain false [.named (.bare v.keyColumn) keyAlias] ⟨v.link.targetTable, none, []⟩
      (some (columnIs foreign (b.valueOf source))))
  | .junction junction sourceColumn targetColumn source _ =>
    some (.plain false [.named (.bare targetColumn) keyAlias] ⟨junction, none, []⟩
      (some (columnIs sourceColumn (b.valueOf source))))

/-- The keys in the rows of that statement. -/
def currentOf (rows : List Row) : List Json :=
  Json.distinct [] ((rows.filterMap fun row => Json.find keyAlias row).filter (!lacksValue ·))

/-- The keys that are in the first list and, as text, not in the second. -/
def without (keys others : List Json) : List Json :=
  let texts := others.map Json.plain
  keys.filter fun k => !texts.contains k.plain

/-- The statements that change the links of a row from the current keys to the wanted ones. -/
def relink (b : Base) (v : LinkValues) (current : List Json) : List Sql.Write :=
  (without current v.keys).flatMap (unrelate b v.link v.keyColumn) ++
    (without v.keys current).flatMap (relate b v.link v.keyColumn)

/-- The statements that remove a row from the junctions that its object's links go through. -/
def leaveJunctions (b : Base) (links : LinkMap) : List Sql.Write :=
  links.links.filterMap fun l =>
    match l.keys with
    | .junction junction sourceColumn _ source _ =>
      some (.delete junction [columnIs sourceColumn (b.valueOf source)])
    | _ => none

end CatalogQuery.Write
