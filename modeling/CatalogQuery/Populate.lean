import CatalogQuery.Access.Names
import CatalogQuery.Link.Source
import CatalogQuery.Options
import CatalogQuery.Reduce.Scopes

/-!
# Attaching linked records

Each connection asked for is read with one statement for all rows. The linked records come back with
the key of the row they belong to, and every row gets those that carry its own key.
-/

namespace CatalogQuery.Linked

open Sql

/-- The column that carries the key of the owning row when a junction was read. -/
def ownerColumn : String := "__parent"

/-- The different keys that the rows have in a column, blank ones apart. -/
def ownerKeys (rows : List Row) (column : String) : List Json :=
  Json.distinct [] ((rows.filterMap fun row => Json.find column row).filter (!·.isBlank))

/-- The statement that reads the records linked to rows with the given keys, and the column that
tells their owner. -/
def select (l : Link) (keys : List Json) : Select × String :=
  let called := "__linked"
  let values := keys.map Operand.value
  match l.keys with
  | .own _ target =>
    (.plain false [.all called] ⟨l.targetTable, some called, []⟩
      (some (.oneOf (.column ⟨called, target⟩) values false)), target)
  | .linked foreign _ =>
    (.plain false [.all called] ⟨l.targetTable, some called, []⟩
      (some (.oneOf (.column ⟨called, foreign⟩) values false)), foreign)
  | .junction table sourceColumn targetColumn _ target =>
    let j := "__j"
    (.plain false [.all called, .named (.column ⟨j, sourceColumn⟩) ownerColumn]
      ⟨l.targetTable, some called,
        [⟨false, table, j, ⟨⟨j, targetColumn⟩, ⟨called, target⟩⟩⟩]⟩
      (some (.oneOf (.column ⟨j, sourceColumn⟩) values false)), ownerColumn)

/-- The columns that a linked record keeps when it is cut down: its keys and what shows it. -/
def minimalColumns (settings : Settings) (target : Entity) (l : Link) : List String :=
  let labels := target.labelFields
  [target.keyColumn, l.keys.linkedColumn target] ++ labels.map (·.column) ++
    if labels.any (·.multilingual) then [settings.translationsColumn] else []

/-- A linked record as it is attached. A number that the database counts up is of no use to a
caller and left out. -/
def shape (settings : Settings) (target : Entity) (l : Link) (minimal : Bool) (row : Row) : Row :=
  let row :=
    if minimal then
      let keep := minimalColumns settings target l
      row.filter fun m => keep.contains m.1
    else row
  if target.key = .id then Json.erase "id" row else row

/-- A linked record with the key of its owner; none when it has no owner. -/
def owned (settings : Settings) (target : Entity) (l : Link) (minimal : Bool) (column : String)
    (row : Row) : Option (String × Row) :=
  match Json.find column row with
  | none => none
  | some v =>
    if v.isBlank then none
    else some (v.plain, shape settings target l minimal (Json.erase ownerColumn row))

/-- The usernames in some columns of some records, each once. -/
def usernamesIn (columns : List String) (rows : List Row) : List String :=
  let all := rows.flatMap fun row => columns.flatMap fun c =>
    match Json.find c row with
    | some v => Users.usernames v
    | none => []
  all.foldl (fun names n => if names.contains n then names else names ++ [n]) []

/-- A record with the users in some of its columns shown by name. -/
def withNames (names : List (String × String)) (columns : List String) (row : Row) : Row :=
  columns.foldl
    (fun row c =>
      match (Json.find c row).bind (Users.merged names) with
      | some v => Json.insert c v row
      | none => row)
    row

/-- Shows the users in linked records by name. -/
def mergeNames (s : Session) (target : Entity) (found : List (String × Row)) :
    Program (List (String × Row)) := do
  let columns := target.userFields.map (·.column)
  if columns.isEmpty ∨ found.isEmpty then pure found
  else
    let usernames := usernamesIn columns (found.map (·.2))
    if usernames.isEmpty then pure found
    else
      let names ← s.directory.displayNames s.channel usernames
      pure (found.map fun (owner, row) => (owner, withNames names columns row))

/-- The records linked to rows with the given keys, each with the key of its owner. -/
def read (s : Session) (target : Entity) (l : Link) (keys : List Json) (minimal : Bool) :
    Program (List (String × Row)) := do
  if keys.isEmpty then pure []
  else
    let (statement, column) := select l keys
    let rows ← s.fetch statement
    mergeNames s target (rows.filterMap (owned s.settings target l minimal column))

/-- The linked records of each link, read in order. -/
def readAll (s : Session) (catalog : Catalog) (rows : List Row) (minimal : Bool) :
    List Link → Program (List (Link × List (String × Row)))
  | [] => pure []
  | l :: rest => do
    let found ←
      match catalog.entity? l.target with
      | some target => read s target l (ownerKeys rows l.keys.baseColumn) minimal
      | none => pure []
    let others ← readAll s catalog rows minimal rest
    pure ((l, found) :: others)

/-- What is attached to a row for a link: all the records that are its own, or the first. -/
def attached (l : Link) (found : List (String × Row)) (row : Row) : Json :=
  let own :=
    match Json.find l.keys.baseColumn row with
    | none => []
    | some v => if v.isBlank then [] else (found.filter (·.1 == v.plain)).map (·.2)
  if l.many then .arr (own.map .obj)
  else
    match own with
    | [] => .null
    | first :: _ => .obj first

def attach (rows : List Row) (l : Link) (found : List (String × Row)) : List Row :=
  rows.map fun row => Json.insert l.relation (attached l found row) row

/-- Rows with the linked records of the connections that are asked for. -/
def populate (s : Session) (e : Entity) (rows : List Row) (p : Populate) (minimal : Bool) :
    Program (List Row) := do
  if rows.isEmpty ∨ p = .none then pure rows
  else
    let catalog ← Program.catalog
    let links ← Program.linksOf e.id
    let wanted := links.links.filter fun l => p.includes l.field l.column
    -- Everything is read before anything is attached.
    let found ← readAll s catalog rows minimal wanted
    pure (found.foldl (fun rows (l, found) => attach rows l found) rows)

end CatalogQuery.Linked
