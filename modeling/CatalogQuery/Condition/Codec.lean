import CatalogQuery.Condition.Basic
import CatalogQuery.Decode

/-!
# Conditions as JSON

Reading a condition never fails: a node is a group if it reads as one, else a rule if it reads as
one, else it is kept as it is.
-/

namespace CatalogQuery

def Glue.name : Glue → String
  | .and => "and"
  | .or => "or"

def Glue.ofName : String → Option Glue
  | "and" => some .and
  | "or" => some .or
  | _ => none

def Glue.ofJson : Json → Option Glue := Decode.word Glue.ofName

def RuleOp.ofJson : Json → Option RuleOp := Decode.word RuleOp.ofName

/-- The members of a rule in their order. -/
def Rule.reader : MemberReader Rule := do
  let key ← Decode.required "key" Decode.string
  let op ← Decode.required "rule" RuleOp.ofJson
  let value ← Decode.defaulted ["value"] .null some
  let joined ← Decode.optional "alias" Decode.string
  pure ⟨key, op, value, joined⟩

def Rule.ofJson : Json → Option Rule := Decode.structured Rule.reader

def Rule.members (r : Rule) : Json.Members :=
  [("key", .str r.key), ("rule", .str r.op.name), ("value", r.value)] ++
    Json.optional "alias" (r.joined.map .str)

namespace Condition

/-- A node that does not read as a group. -/
def ungrouped (v : Json) : Condition :=
  match Rule.ofJson v with
  | some r => rule r
  | none => malformed v

/-- The glue of a group given by members; "and" when it is missing. -/
def memberGlue (members : Json.Members) : Option Glue :=
  match Json.find "glue" members with
  | none => some .and
  | some v => Glue.ofJson v

mutual
def ofJson : Json → Condition
  | .obj members =>
    -- A group may carry the members of a rule too.
    match memberGlue members, memberNodes members with
    | some glue, some nodes => group glue nodes
    | _, _ => ungrouped (.obj members)
  | .arr [g, .arr items] =>
    match Glue.ofJson g with
    | some glue => group glue (nodesOf items)
    | none => ungrouped (.arr [g, .arr items])
  | v => ungrouped v
/-- The nodes of a group given by members. -/
def memberNodes : List (String × Json) → Option (List Condition)
  | [] => none
  | (k, v) :: rest =>
    if k = "rules" then
      match v with
      | .arr items => some (nodesOf items)
      | _ => none
    else memberNodes rest
def nodesOf : List Json → List Condition
  | [] => []
  | v :: rest => ofJson v :: nodesOf rest
end

mutual
def toJson : Condition → Json
  | group glue nodes => Json.object [("glue", .str glue.name), ("rules", .arr (nodesToJson nodes))]
  | rule r => Json.object r.members
  | malformed node => node
def nodesToJson : List Condition → List Json
  | [] => []
  | c :: rest => c.toJson :: nodesToJson rest
end

end Condition

end CatalogQuery
