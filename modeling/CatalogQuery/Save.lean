import CatalogQuery.Find
import CatalogQuery.Write.Links

/-!
# Changing records

Creating, updating and deleting records and linking them. An existing record is changed only under
its lock and after it was found among the records that the caller may see; statements that write are
sent once and in order.
-/

namespace CatalogQuery.Session

open Sql Write

/-- Sends statements one after another. -/
def executeAll (s : Session) : List Sql.Write → Program Unit
  | [] => pure ()
  | w :: rest => do
    let _ ← s.execute w
    executeAll s rest

/-- How an error names a record. -/
def recordName (e : Entity) (key : Json) : String := e.name ++ " '" ++ key.plain ++ "'"

def orNotFound {α : Type} (e : Entity) (key : Json) : Option α → Program α
  | some a => pure a
  | none => Program.ofResult (.error (.recordNotFound (recordName e key)))

/-- The record as it is after a write. -/
def saved (s : Session) (e : Entity) (key : Json) (caller : Caller) : Program SaveOutcome := do
  let row ← s.readRow e key caller
  SaveOutcome.saved <$> orNotFound e key row

/-- The key of a new row: the one that was given, or a new one. -/
def keyFor (e : Entity) (input : Json.Members) : Program Json :=
  match Json.find e.keyColumn input with
  | some v => if lacksValue v then Json.str <$> Program.newKey else pure v
  | none => Json.str <$> Program.newKey

/-- The times that a new row notes. -/
def newTimes (settings : Settings) : List Assignment :=
  (if settings.createdAt then [⟨"created_at", .now⟩] else []) ++
    if settings.updatedAt then [⟨"updated_at", .now⟩] else []

def assignments (columns : List (String × Json)) : List Assignment :=
  columns.map fun (c, v) => setTo c v

def rowOf (columns : List (String × Json)) : Row := Json.sorted columns

/-- Inserts a row, and gives it back with its key. -/
def insertRow (s : Session) (e : Entity) (input : Json.Members) (p : Prepared) :
    Program Base := do
  let own ← match e.key with
    | .uuid => do
      let key ← keyFor e input
      pure [(e.keyColumn, key)]
    -- A key that the database counts up is not written.
    | .id => pure []
  let columns := own ++ p.columns
  let number ← s.execute (.insert e.table (assignments columns ++ newTimes s.settings))
  let row := rowOf columns
  let key := match e.key with
    | .uuid => (Json.find e.keyColumn row).getD .null
    | .id => Json.ofNat number
  pure ⟨e, Json.insert e.keyColumn key row, key⟩

/-- Creates a record and its links, unless a value is refused. -/
def create (s : Session) (entity : String) (values : Json) (caller : Caller) :
    Program SaveOutcome := do
  let catalog ← Program.catalog
  let e ← Program.ofResult (catalog.entity entity)
  let links ← Program.linksOf entity
  let input ← Program.ofResult (inputMembers values)
  let p ← Program.ofResult (prepare s.settings catalog e links input true)
  if !p.errors.isEmpty then pure (.invalid p.errors)
  else
    -- Nothing was sent so far, so a refused value leaves no trace.
    let base ← s.insertRow e input p
    s.executeAll (p.links.flatMap fun v => v.keys.flatMap (relate base v.link v.keyColumn))
    s.saved e base.key caller

/-- The record to be changed, found under its lock. -/
def lockedRow (s : Session) (e : Entity) (key : Json) (caller : Caller) (entity : String) :
    Program Base := do
  Program.lock entity key.plain
  let found ← s.findOne entity key .none caller
  let row ← orNotFound e key found
  -- The key as the database holds it is preferred to the one that was asked for.
  let own := (Json.find e.keyColumn row).filter (!lacksValue ·)
  pure ⟨e, row, own.getD key⟩

/-- The keys that a row is linked to now. -/
def currentKeys (s : Session) (b : Base) (v : LinkValues) : Program (List Json) :=
  match currentSelect b v with
  | none => pure (((Json.find v.link.keys.baseColumn b.row).filter (!lacksValue ·)).toList)
  | some statement => do
    let rows ← s.fetch statement
    pure (currentOf rows)

/-- Changes a record and those of its links that differ, unless a value is refused. -/
def update (s : Session) (entity : String) (key values : Json) (caller : Caller) :
    Program SaveOutcome := do
  let catalog ← Program.catalog
  let e ← Program.ofResult (catalog.entity entity)
  let links ← Program.linksOf entity
  let input ← Program.ofResult (inputMembers values)
  let p ← Program.ofResult (prepare s.settings catalog e links input false)
  if !p.errors.isEmpty then pure (.invalid p.errors)
  else
    let base ← s.lockedRow e key caller entity
    -- The links are compared with the record as it was found, before any column changes.
    let current ← p.links.mapM (s.currentKeys base)
    let row := assignments p.columns ++
      if s.settings.updatedAt then [⟨"updated_at", .now⟩] else []
    if !row.isEmpty then
      let _ ← s.execute (.update e.table row [base.isRow])
    s.executeAll ((p.links.zip current).flatMap fun (v, current) => relink base v current)
    s.saved e base.key caller

/-- Deletes a record and takes it out of junctions first. -/
def delete (s : Session) (entity : String) (key : Json) (caller : Caller) : Program Unit := do
  let catalog ← Program.catalog
  let e ← Program.ofResult (catalog.entity entity)
  let links ← Program.linksOf entity
  let base ← s.lockedRow e key caller entity
  -- Pairs go before the record that they name.
  s.executeAll (leaveJunctions base links ++ [.delete e.table [base.isRow]])

/-- Adds or takes away links of a record through one connection. -/
def changeLinks (s : Session) (entity : String) (key : Json) (field : String) (linked : Json)
    (caller : Caller) (add : Bool) : Program Unit := do
  let catalog ← Program.catalog
  let e ← Program.ofResult (catalog.entity entity)
  let links ← Program.linksOf entity
  match links.get field with
  | none => Program.ofResult (.error (.invalidInput (.notConnection field e.name)))
  | some l => do
    let target ← Program.ofResult (catalog.entity l.target)
    let keyColumn := l.keys.linkedColumn target
    let base ← s.lockedRow e key caller entity
    let keys := Json.distinct [] (Compile.linkedKeys linked keyColumn)
    let statements := if add then relate base l keyColumn else unrelate base l keyColumn
    s.executeAll (keys.flatMap statements)

def relate (s : Session) (entity : String) (key : Json) (field : String) (linked : Json)
    (caller : Caller) : Program Unit :=
  s.changeLinks entity key field linked caller true

def unrelate (s : Session) (entity : String) (key : Json) (field : String) (linked : Json)
    (caller : Caller) : Program Unit :=
  s.changeLinks entity key field linked caller false

end CatalogQuery.Session
