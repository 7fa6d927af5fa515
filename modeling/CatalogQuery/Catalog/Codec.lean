import CatalogQuery.Catalog.Basic
import CatalogQuery.Field.Codec

/-!
# Definitions as JSON

Objects, stored queries and data collections as metadata writes them.
-/

namespace CatalogQuery

def PrimaryKey.ofName : String → Option PrimaryKey
  | "uuid" => some uuid
  | "id" => some id
  | _ => none

def PrimaryKey.ofJson : Json → Option PrimaryKey := Decode.word PrimaryKey.ofName

def Index.reader : MemberReader Index := do
  let id ← Decode.required "id" Decode.string
  let name ← Decode.required "name" Decode.string
  let fields ← Decode.required "fields" (Decode.list Decode.string)
  let unique ← Decode.defaulted ["unique"] false Decode.bool
  pure ⟨id, name, fields, unique⟩

def Index.ofJson : Json → Option Index := Decode.structured Index.reader

def Index.toJson (i : Index) : Json :=
  Json.object
    [("id", .str i.id), ("name", .str i.name), ("fields", Json.strings i.fields),
      ("unique", .bool i.unique)]

def Entity.reader : MemberReader Entity := do
  let id ← Decode.required "id" Decode.string
  let name ← Decode.required "name" Decode.string
  let table ← Decode.required "tableName" Decode.string
  let key ← Decode.defaulted ["primaryKey"] .uuid PrimaryKey.ofJson
  let isExternal ← Decode.defaulted ["isExternal"] false Decode.bool
  let isImported ← Decode.defaulted ["isImported"] false Decode.bool
  let connectionName ← Decode.optional "connName" Decode.string
  let fields ← Decode.required "fields" (Decode.list Field.ofJson)
  let indexes ← Decode.defaulted ["indexes"] [] (Decode.list Index.ofJson)
  let labelFormat ← Decode.optional "labelFormat" Decode.string
  pure ⟨id, name, table, key, isExternal, isImported, connectionName, fields, indexes, labelFormat⟩

def Entity.ofJson : Json → Option Entity := Decode.structured Entity.reader

def Entity.toJson (e : Entity) : Json :=
  Json.object
    ([("id", .str e.id), ("name", .str e.name), ("tableName", .str e.table),
      ("primaryKey", .str e.key.column), ("isExternal", .bool e.isExternal),
      ("isImported", .bool e.isImported), ("fields", .arr (e.fields.map Field.toJson)),
      ("indexes", .arr (e.indexes.map Index.toJson))] ++
      Json.optional "connName" (e.connectionName.map .str) ++
      Json.optional "labelFormat" (e.labelFormat.map .str))

def StoredQuery.reader : MemberReader StoredQuery := do
  let id ← Decode.required "id" Decode.string
  let name ← Decode.required "name" Decode.string
  let entity ← Decode.required "objectId" Decode.string
  let condition ← Decode.defaulted ["where"] Condition.empty fun v => some (Condition.ofJson v)
  let joins ← Decode.defaulted ["joins"] [] (Decode.list Decode.string)
  pure ⟨id, name, entity, condition, joins⟩

def StoredQuery.ofJson : Json → Option StoredQuery := Decode.structured StoredQuery.reader

def StoredQuery.toJson (q : StoredQuery) : Json :=
  Json.object
    [("id", .str q.id), ("name", .str q.name), ("objectId", .str q.entity),
      ("where", q.condition.toJson), ("joins", Json.strings q.joins)]

namespace DataSource

def ofName : String → Option (String → DataSource)
  | "object" => some object
  | "query" => some query
  | _ => none

def reader (kind : Json → Option (String → DataSource)) : MemberReader DataSource := do
  let make ← Decode.required "type" kind
  let id ← Decode.required "id" Decode.string
  pure (make id)

/-- Among members the kind is a word in either form; at the start of an array it is a text. -/
def ofJson : Json → Option DataSource
  | .obj members => Decode.fromSource (reader (Decode.word ofName)) (.named members)
  | .arr items => Decode.fromSource (reader fun v => v.text?.bind ofName) (.ordered items)
  | _ => none

def toJson : DataSource → Json
  | object id => Json.object [("type", .str "object"), ("id", .str id)]
  | query id => Json.object [("type", .str "query"), ("id", .str id)]

end DataSource

def DataCollection.reader : MemberReader DataCollection := do
  let id ← Decode.required "id" Decode.string
  let name ← Decode.required "name" Decode.string
  let source ← Decode.required "datasource" DataSource.ofJson
  let filter ← Decode.defaulted ["filter"] Condition.empty fun v => some (Condition.ofJson v)
  pure ⟨id, name, source, filter⟩

def DataCollection.ofJson : Json → Option DataCollection := Decode.structured DataCollection.reader

def DataCollection.toJson (d : DataCollection) : Json :=
  Json.object
    [("id", .str d.id), ("name", .str d.name), ("datasource", d.source.toJson),
      ("filter", d.filter.toJson)]

/-- The definitions of a catalog, each kind as a list; a missing or null list is empty. -/
def Catalog.ofJson (v : Json) : Option Catalog := do
  let entities ← definitions "objects" Entity.ofJson
  let queries ← definitions "queries" StoredQuery.ofJson
  let collections ← definitions "collections" DataCollection.ofJson
  pure (Catalog.ofLists entities queries collections)
where
  definitions {α : Type} (name : String) (decode : Json → Option α) : Option (List α) :=
    match v.get? name with
    | none | some .null => some []
    | some v => Decode.list decode v

end CatalogQuery
