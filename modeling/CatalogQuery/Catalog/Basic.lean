import CatalogQuery.Error
import CatalogQuery.Field.Basic
import CatalogQuery.Text.Template

/-!
# The catalog

Objects are described by metadata: the table that holds their records, its fields and indexes.
Beside objects a catalog holds stored queries and data collections, which name sets of records. Of
two definitions of one kind with the same id the later one counts.
-/

namespace CatalogQuery

/-- What the primary key of a table is. -/
inductive PrimaryKey where
  /-- A text that the writer chooses. -/
  | uuid
  /-- A number that the database counts up. -/
  | id
deriving DecidableEq, Repr

def PrimaryKey.column : PrimaryKey → String
  | uuid => "uuid"
  | id => "id"

structure Index where
  id : String
  name : String
  /-- Ids of the fields. -/
  fields : List String
  unique : Bool
deriving DecidableEq, Repr

structure Entity where
  id : String
  name : String
  table : String
  key : PrimaryKey
  isExternal : Bool
  isImported : Bool
  connectionName : Option String
  fields : List Field
  indexes : List Index
  /-- A template over the fields that shows a record. -/
  labelFormat : Option String

namespace Entity

def new (id name table : String) (fields : List Field) : Entity :=
  ⟨id, name, table, .uuid, false, false, none, fields, [], none⟩

def keyColumn (e : Entity) : String := e.key.column

def fieldById (e : Entity) (id : String) : Option Field := e.fields.find? (·.id == id)

/-- The field that a key names by id or else by column. -/
def field (e : Entity) (key : String) : Option Field :=
  match e.fieldById key with
  | some f => some f
  | none => e.fields.find? (·.column == key)

def connections (e : Entity) : List Field := e.fields.filter (·.isConnection)

def userFields (e : Entity) : List Field := e.fields.filter (·.isUser)

def hasMultilingual (e : Entity) : Bool := e.fields.any (·.multilingual)

/-- Whether a unique index covers the field alone. -/
def isUniqueKey (e : Entity) (field : String) : Bool :=
  e.indexes.any fun i => i.unique && i.fields == [field]

/-- The fields that the label shows, by label, column or id. -/
def labelFields (e : Entity) : List Field :=
  match e.labelFormat with
  | none => []
  | some format =>
    (Text.slotNames format).filterMap fun name =>
      e.fields.find? fun f => f.label == name || f.column == name || f.id == name

end Entity

/-- A stored condition on one object. -/
structure StoredQuery where
  id : String
  name : String
  /-- Id of the object. -/
  entity : String
  condition : Condition
  /-- Connections that are joined, each under its column as alias. -/
  joins : List String

inductive DataSource where
  | object (id : String)
  | query (id : String)
deriving DecidableEq, Repr

/-- The records of an object or of a stored query that satisfy one more condition. -/
structure DataCollection where
  id : String
  name : String
  source : DataSource
  filter : Condition

structure Catalog where
  entities : List Entity
  queries : List StoredQuery
  collections : List DataCollection

namespace Catalog

def empty : Catalog := ⟨[], [], []⟩

/-- Puts a definition in the place of the one with its id, or at the end. -/
def put {α : Type} (id : α → String) (a : α) : List α → List α
  | [] => [a]
  | b :: rest => if id b = id a then a :: rest else b :: put id a rest

theorem find_put_self {α : Type} (id : α → String) (a : α) (as : List α) :
    (put id a as).find? (fun b => id b == id a) = some a := by
  induction as with
  | nil => simp [put]
  | cons b rest ih =>
    unfold put
    split
    · simp
    · rename_i h
      simp [h, ih]

def withEntity (c : Catalog) (e : Entity) : Catalog :=
  { c with entities := put Entity.id e c.entities }

def withQuery (c : Catalog) (q : StoredQuery) : Catalog :=
  { c with queries := put StoredQuery.id q c.queries }

def withCollection (c : Catalog) (d : DataCollection) : Catalog :=
  { c with collections := put DataCollection.id d c.collections }

def ofLists (entities : List Entity) (queries : List StoredQuery)
    (collections : List DataCollection) : Catalog :=
  let c := entities.foldl withEntity empty
  let c := queries.foldl withQuery c
  collections.foldl withCollection c

def entity? (c : Catalog) (id : String) : Option Entity := c.entities.find? (·.id == id)

def entity (c : Catalog) (id : String) : Result Entity :=
  match c.entity? id with
  | some e => .ok e
  | none => .error (.objectNotFound id)

def entityByTable (c : Catalog) (table : String) : Option Entity :=
  c.entities.find? (·.table == table)

def query? (c : Catalog) (id : String) : Option StoredQuery := c.queries.find? (·.id == id)

def collection? (c : Catalog) (id : String) : Option DataCollection :=
  c.collections.find? (·.id == id)

/-- How many stored filters there are. -/
def storedFilters (c : Catalog) : Nat := c.queries.length + c.collections.length

end Catalog

end CatalogQuery
