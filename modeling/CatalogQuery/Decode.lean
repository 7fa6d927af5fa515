import CatalogQuery.Json.Basic

/-!
# Decoding structures from JSON

A structure is written as an object with named members or as an array of the same members in their
order. One reader serves both: it takes each member by its name, or takes the next item.
-/

namespace CatalogQuery

/-- Where the members of a structure are read from. -/
inductive MemberSource where
  | named (members : Json.Members)
  | ordered (items : List Json)

abbrev MemberReader := StateT MemberSource Option

namespace Decode

def string : Json → Option String := Json.text?

def bool : Json → Option Bool := Json.bool?

def list {α : Type} (item : Json → Option α) : Json → Option (List α)
  | .arr items => items.mapM item
  | _ => none

/-- A word, alone or as the one member of an object whose value `payload` accepts. -/
def word {α : Type} (names : String → Option α) (payload : Json → Bool := Json.isNull) :
    Json → Option α
  | .str s => names s
  | .obj [(s, v)] => if payload v then names s else none
  | _ => none

/-- The value of the next member, when there is one. A member has one of several names, and only
one of them may be given. -/
def next (names : List String) : MemberReader (Option Json) := fun source =>
  match source with
  | .named members =>
    -- Names are spellings of one member, not alternatives to choose from.
    match names.filterMap fun name => Json.find name members with
    | [] => some (none, source)
    | [v] => some (some v, source)
    | _ => none
  | .ordered [] => some (none, source)
  | .ordered (v :: rest) => some (some v, .ordered rest)

/-- A member that has to be there. -/
def required {α : Type} (name : String) (decode : Json → Option α) : MemberReader α := do
  let v ← next [name]
  StateT.lift (v.bind decode)

/-- A member that stands for `default` when it is missing. -/
def defaulted {α : Type} (names : List String) (default : α) (decode : Json → Option α) :
    MemberReader α := do
  match ← next names with
  | none => pure default
  | some v => StateT.lift (decode v)

/-- A member that may be missing or null. -/
def optional {α : Type} (name : String) (decode : Json → Option α) : MemberReader (Option α) := do
  match ← next [name] with
  | none => pure none
  | some .null => pure none
  | some v => StateT.lift ((decode v).map some)

/-- Runs a reader on a source; no items may be left over. -/
def fromSource {α : Type} (reader : MemberReader α) (source : MemberSource) : Option α :=
  match reader.run source with
  | some (a, .named _) => some a
  | some (a, .ordered []) => some a
  | _ => none

/-- A structure in either form. -/
def structured {α : Type} (reader : MemberReader α) : Json → Option α
  | .obj members => fromSource reader (.named members)
  | .arr items => fromSource reader (.ordered items)
  | _ => none

end Decode

end CatalogQuery
