import CatalogQuery.Condition.Codec
import CatalogQuery.Error
import CatalogQuery.Text.Numeral

/-!
# Options of a find

Which records are asked for, in which order, how many of them, and which linked records come along.
Callers write options in full or, as a shorthand, as the values that some columns have to have.
-/

namespace CatalogQuery

inductive Direction where
  | ascending
  | descending
deriving DecidableEq, Repr

def Direction.name : Direction → String
  | ascending => "asc"
  | descending => "desc"

def Direction.ofName : String → Option Direction
  | "asc" => some ascending
  | "desc" => some descending
  | _ => none

structure SortKey where
  key : String
  direction : Direction
  /-- Options of a list field in the order that they sort by. -/
  order : List String
deriving DecidableEq, Repr

namespace SortKey

def reader : MemberReader SortKey := do
  let key ← Decode.required "key" Decode.string
  let direction ← Decode.defaulted ["direction", "dir"] .ascending (Decode.word Direction.ofName)
  let order ← Decode.defaulted ["order"] [] (Decode.list Decode.string)
  pure ⟨key, direction, order⟩

def ofJson : Json → Option SortKey := Decode.structured reader

def toJson (s : SortKey) : Json :=
  Json.object
    ([("key", .str s.key), ("direction", .str s.direction.name)] ++
      if s.order.isEmpty then [] else [("order", Json.strings s.order)])

end SortKey

/-- Which connections come with the linked records. -/
inductive Populate where
  | none
  | all
  /-- Fields by id or column. -/
  | fields (names : List String)
deriving DecidableEq, Repr

namespace Populate

def includes (p : Populate) (field column : String) : Bool :=
  match p with
  | none => false
  | all => true
  | fields names => names.any fun n => n == field || n == column

def entryName : Json → Result String
  | .str s => .ok s
  | v => .error (.invalidInput (.populateEntry v))

def ofJson : Json → Result Populate
  | .null => .ok none
  | .bool false => .ok none
  | .bool true => .ok all
  | .arr items => (items.mapM entryName).map fields
  | v => .error (.invalidInput (.populateValue v))

end Populate

/-- A linked object that rules can refer to by an alias. -/
structure JoinRequest where
  /-- A connection of the object. -/
  field : String
  called : String
deriving DecidableEq, Repr

namespace JoinRequest

def reader : MemberReader JoinRequest := do
  let field ← Decode.required "field" Decode.string
  let called ← Decode.required "alias" Decode.string
  pure ⟨field, called⟩

def ofJson : Json → Option JoinRequest := Decode.structured reader

def toJson (j : JoinRequest) : Json :=
  Json.object [("field", .str j.field), ("alias", .str j.called)]

end JoinRequest

structure FindOptions where
  condition : Condition := Condition.empty
  sort : List SortKey := []
  offset : Option Int := none
  limit : Option Int := none
  populate : Populate := .none
  /-- Whether linked records are cut down to their keys and labels. -/
  minimal : Bool := false
  joins : List JoinRequest := []

namespace FindOptions

/-- The members that options in full are known by. -/
def keywords : List String := ["where", "sort", "offset", "limit", "populate", "minimal", "joins"]

/-- Equality with each value; with a list, membership in it. -/
def shorthand (members : Json.Members) : Condition :=
  .group .and (members.map fun (key, v) => .ofRule key (if v.isArr then .in else .equals) v)

def decoded {α : Type} : Option α → Result α
  | some a => .ok a
  | none => .error .undecodable

/-- A member that is a whole number or the text of one, and not negative. -/
def count (members : Json.Members) (key : String) : Result (Option Int) :=
  match Json.find key members with
  | none | some .null => .ok none
  | some v =>
    let number := match v.int? with
      | some n => some n
      | none => v.text?.bind Text.Numeral.wholeNumber?
    match number with
    | some n => if 0 ≤ n then .ok (some n) else .error (.invalidInput (.notCount key))
    | none => .error (.invalidInput (.notCount key))

def member {α : Type} (members : Json.Members) (key : String) (default : α)
    (decode : Json → Result α) : Result α :=
  match Json.find key members with
  | none => .ok default
  | some v => decode v

def inFull (members : Json.Members) : Result FindOptions := do
  let condition ← member members "where" Condition.empty fun v => .ok (Condition.ofJson v)
  let sort ← member members "sort" [] fun v => decoded (Decode.list SortKey.ofJson v)
  let offset ← count members "offset"
  let limit ← count members "limit"
  let populate ← member members "populate" .none Populate.ofJson
  let minimal := ((Json.find "minimal" members).bind Json.bool?).getD false
  let joins ← member members "joins" [] fun v => decoded (Decode.list JoinRequest.ofJson v)
  pure { condition, sort, offset, limit, populate, minimal, joins }

def ofJson : Json → Result FindOptions
  | .null => .ok {}
  | .obj members =>
    -- With one keyword the options are in full, and what is no keyword is left out.
    if members.any fun m => keywords.contains m.1 then inFull members
    else .ok { condition := shorthand members }
  | v => .error (.invalidInput (.optionsNotObject v))

/-- A page of the result; a negative limit stands for no limit of its own. -/
def paginate (o : FindOptions) (offset limit : Int) : FindOptions :=
  { o with offset := some (max offset 0), limit := if 0 ≤ limit then some limit else none }

end FindOptions

/-- What became of a create or update. -/
inductive SaveOutcome where
  /-- The record as it is stored now. -/
  | saved (row : Row)
  /-- Nothing was written. -/
  | invalid (errors : List FieldError)

end CatalogQuery
