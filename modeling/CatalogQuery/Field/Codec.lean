import CatalogQuery.Condition.Codec
import CatalogQuery.Field.Basic

/-!
# Fields as JSON

The type of a field is written beside its other members: a member names the type, and the members
that the type has stand next to it.
-/

namespace CatalogQuery

def Multiplicity.name : Multiplicity → String
  | one => "one"
  | many => "many"

def Multiplicity.ofName : String → Option Multiplicity
  | "one" => some one
  | "many" => some many
  | _ => none

def Aggregate.name : Aggregate → String
  | sum => "sum"
  | average => "average"
  | max => "max"
  | min => "min"
  | count => "count"

def Aggregate.ofName : String → Option Aggregate
  | "sum" => some sum
  | "average" => some average
  | "max" => some max
  | "min" => some min
  | "count" => some count
  | _ => none

def Shape.name : Shape → String
  | oneToOne => "one:one"
  | oneToMany => "one:many"
  | manyToOne => "many:one"
  | manyToMany => "many:many"

namespace FieldType

/-- Inside a type, a word may also be the key of an object that holds null or nothing. -/
def innerWord {α : Type} (names : String → Option α) : Json → Option α :=
  Decode.word names fun v =>
    match v with
    | .null => true
    | .obj [] => true
    | _ => false

end FieldType

def Connection.reader : MemberReader Connection := do
  let target ← Decode.required "linkObject" Decode.string
  let reverse ← Decode.optional "linkColumn" Decode.string
  let here ← Decode.required "linkType" (FieldType.innerWord Multiplicity.ofName)
  let there ← Decode.required "linkViaType" (FieldType.innerWord Multiplicity.ofName)
  let isSource ← Decode.defaulted ["isSource"] false Decode.bool
  let index ← Decode.optional "indexField" Decode.string
  let index2 ← Decode.optional "indexField2" Decode.string
  pure ⟨target, reverse, here, there, isSource, index, index2⟩

def Connection.members (c : Connection) : Json.Members :=
  [("linkObject", .str c.target), ("linkType", .str c.here.name),
    ("linkViaType", .str c.there.name), ("isSource", .bool c.isSource)] ++
    Json.optional "linkColumn" (c.reverse.map .str) ++
    Json.optional "indexField" (c.index.map .str) ++
    Json.optional "indexField2" (c.index2.map .str)

def ListOption.reader : MemberReader ListOption := do
  let id ← Decode.required "id" Decode.string
  let label ← Decode.required "text" Decode.string
  pure ⟨id, label⟩

def ListOption.ofJson : Json → Option ListOption := Decode.structured ListOption.reader

def ListOption.toJson (o : ListOption) : Json :=
  Json.object [("id", .str o.id), ("text", .str o.label)]

def Formula.reader : MemberReader Formula := do
  let field ← Decode.required "field" Decode.string
  let target ← Decode.required "fieldLink" Decode.string
  let aggregate ← Decode.required "aggregate" (FieldType.innerWord Aggregate.ofName)
  let filter ← Decode.optional "where" fun v => some (Condition.ofJson v)
  pure ⟨field, target, aggregate, filter⟩

def Formula.members (f : Formula) : Json.Members :=
  [("field", .str f.field), ("fieldLink", .str f.target), ("aggregate", .str f.aggregate.name)] ++
    Json.optional "where" (f.filter.map Condition.toJson)

namespace FieldType

/-- The names of the types, in the order in which they are numbered. -/
def names : List String :=
  ["string", "longtext", "number", "date", "datetime", "boolean", "list", "user", "formula",
    "calculate", "connectObject", "json", "uuid", "autoindex"]

/-- What is read after the name of a type. A type without members takes any named ones. -/
def reader : String → Option (MemberReader FieldType)
  | "string" => some (pure text)
  | "longtext" => some (pure longText)
  | "number" => some (pure number)
  | "date" => some (pure date)
  | "datetime" => some (pure dateTime)
  | "boolean" => some (pure boolean)
  | "list" => some do
    let options ← Decode.required "options" (Decode.list ListOption.ofJson)
    let multiple ← Decode.defaulted ["isMultiple"] false Decode.bool
    pure (list options multiple)
  | "user" => some do
    let multiple ← Decode.defaulted ["isMultiple"] false Decode.bool
    pure (user multiple)
  | "formula" => some (formula <$> Formula.reader)
  | "calculate" => some (calculate <$> Decode.required "formula" Decode.string)
  | "connectObject" => some (connection <$> Connection.reader)
  | "json" => some (pure json)
  | "uuid" => some (pure uuid)
  | "autoindex" => some (pure autoIndex)
  | _ => none

/-- The type of the given name with the given members. -/
def ofSource (name : String) (source : MemberSource) : Option FieldType :=
  (reader name).bind fun r => Decode.fromSource r source

/-- A type on its own: an object with its name among its members, or an array that the name
starts. -/
def ofJson : Json → Option FieldType
  | .obj members =>
    match Json.find "type" members with
    | some (.str name) => ofSource name (.named (Json.erase "type" members))
    | _ => none
  | .arr (.str name :: items) => ofSource name (.ordered items)
  | _ => none

/-- The name of a type beside the other members of a field, where its number will do too. -/
def memberName : Json → Option String
  | .str name => some name
  | .num (.int n) => if 0 ≤ n then names[n.toNat]? else none
  | _ => none

def members : FieldType → Json.Members
  | list options multiple =>
    [("options", .arr (options.map ListOption.toJson)), ("isMultiple", .bool multiple)]
  | user multiple => [("isMultiple", .bool multiple)]
  | formula settings => settings.members
  | calculate expression => [("formula", .str expression)]
  | connection settings => settings.members
  | _ => []

def toJson (t : FieldType) : Json := Json.object (("type", .str t.name) :: t.members)

end FieldType

namespace Field

/-- The members that belong to the field and not to its type. -/
def ownMembers : List String := ["id", "columnName", "label", "isMultilingual", "required", "default"]

def ofMembers (members : Json.Members) : Option Field := do
  -- A type does not see the members of the field.
  let rest := members.filter fun m => !ownMembers.contains m.1
  let type ← match Json.find "type" rest with
    | some v => do
      let name ← FieldType.memberName v
      FieldType.ofSource name (.named (Json.erase "type" rest))
    | none => none
  let reader : MemberReader Field := do
    let id ← Decode.required "id" Decode.string
    let column ← Decode.required "columnName" Decode.string
    let label ← Decode.defaulted ["label"] "" Decode.string
    let multilingual ← Decode.defaulted ["isMultilingual"] false Decode.bool
    let required ← Decode.defaulted ["required"] false Decode.bool
    let default ← Decode.optional "default" some
    pure ⟨id, column, label, type, multilingual, required, default⟩
  Decode.fromSource reader (.named members)

/-- Fields are written as objects only. -/
def ofJson : Json → Option Field
  | .obj members => ofMembers members
  | _ => none

def toJson (f : Field) : Json :=
  Json.object
    ([("type", .str f.type.name)] ++ f.type.members ++
      [("id", .str f.id), ("columnName", .str f.column), ("label", .str f.label),
        ("isMultilingual", .bool f.multilingual), ("required", .bool f.required)] ++
      Json.optional "default" f.default)

end Field

end CatalogQuery
