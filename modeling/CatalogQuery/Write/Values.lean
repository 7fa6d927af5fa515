import CatalogQuery.Access.Names
import CatalogQuery.Compile.Scalar
import CatalogQuery.Field.Check
import CatalogQuery.Link.Basic
import CatalogQuery.Options
import CatalogQuery.Reduce.Scopes

/-!
# What a caller's values become

Before anything is written, the values of a record are checked field by field and divided into
columns of the record's own row and links to other records.
-/

namespace CatalogQuery.Write

/-- Whether a value is none at all: null, the empty text or the empty list. -/
def lacksValue : Json → Bool
  | .null => true
  | .str s => s.isEmpty
  | .arr items => items.isEmpty
  | _ => false

def arrayText (items : List String) : Json := .str (Json.strings items).text

/-- Arrays and objects as their text. -/
def asText : Json → Json
  | .arr items => .str (Json.arr items).text
  | .obj members => .str (Json.obj members).text
  | v => v

/-- The id of the option that a value names, or its text when it names none. -/
def optionId (options : List ListOption) : Json → String
  | .str s => (ListOption.idOf options s).getD s
  | v => v.plain

/-- A value as the column of a field holds it. -/
def columnValue (f : Field) (v : Json) : Json :=
  match f.type with
  | .user true => arrayText (Users.usernames v)
  | .user false =>
    match v with
    | .obj members => (Json.find "id" members).getD .null
    | v => v
  | .list options multiple =>
    match v with
    | .null => .null
    | .arr items =>
      if multiple then arrayText (items.map (optionId options))
      -- Where one option is expected, a list counts as its text.
      else .str (optionId options (.arr items))
    | v => .str (optionId options v)
  | .boolean => if v.isNull then v else Json.ofInt (if v.isTruthy then 1 else 0)
  | .json => asText v
  | _ => v

/-- The records that a record is to be linked to through one connection. -/
structure LinkValues where
  link : Link
  /-- The column of the linked table that the keys are of. -/
  keyColumn : String
  keys : List Json

/-- What the value of a field comes to. -/
inductive FieldInput where
  | nothing
  | refused (error : FieldError)
  | column (name : String) (value : Json)
  | links (values : LinkValues)

/-- The values of a record divided by where they are stored. -/
structure Prepared where
  columns : List (String × Json)
  links : List LinkValues
  errors : List FieldError

def Prepared.empty : Prepared := ⟨[], [], []⟩

def Prepared.add (p : Prepared) : FieldInput → Prepared
  | .nothing => p
  | .refused error => { p with errors := p.errors ++ [error] }
  | .column name value => { p with columns := p.columns ++ [(name, value)] }
  | .links values => { p with links := p.links ++ [values] }

/-- The value given for a field, by column or else by id. -/
def supplied (input : Json.Members) (f : Field) : Option Json :=
  match Json.find f.column input with
  | some v => some v
  | none => Json.find f.id input

def required (f : Field) : FieldInput := .refused ⟨f.column, "Value is required"⟩

/-- What a value that is there comes to. A connection that leads nowhere takes none. -/
def accept (catalog : Catalog) (links : LinkMap) (f : Field) (v : Json) : Result FieldInput :=
  if f.required && lacksValue v then .ok (required f)
  else
    -- A value that is missing is not also of the wrong type.
    match f.type.check v with
    | some fault => .ok (.refused ⟨f.column, fault.message⟩)
    | none =>
      if f.isConnection then
        match links.get f.id with
        | none => .ok .nothing
        | some l =>
          match catalog.entity l.target with
          | .error e => .error e
          | .ok target =>
            let keyColumn := l.keys.linkedColumn target
            .ok (.links ⟨l, keyColumn, Json.distinct [] (Compile.linkedKeys v keyColumn)⟩)
      else .ok (.column f.column (columnValue f v))

/-- What the input comes to for one field. A new record takes the default of a field that is
missing. -/
def fieldInput (catalog : Catalog) (links : LinkMap) (input : Json.Members) (creating : Bool)
    (f : Field) : Result FieldInput :=
  if f.isVirtual then
    match supplied input f with
    | some .null | none => .ok .nothing
    | some _ => .ok (.refused ⟨f.column, ValueFault.computed.message⟩)
  -- The translations of all such fields come together in one column.
  else if f.multilingual then .ok .nothing
  else
    match supplied input f with
    | some v => accept catalog links f v
    | none =>
      if creating then
        match f.default with
        | some v => accept catalog links f v
        | none => .ok (if f.required then required f else .nothing)
      else .ok .nothing

/-- Checks and divides the values of a record. -/
def prepare (settings : Settings) (catalog : Catalog) (e : Entity) (links : LinkMap)
    (input : Json.Members) (creating : Bool) : Result Prepared :=
  match e.fields.mapM (fieldInput catalog links input creating) with
  | .error e => .error e
  | .ok inputs =>
    let p := inputs.foldl Prepared.add Prepared.empty
    let column := settings.translationsColumn
    .ok <|
      if e.hasMultilingual then
        match Json.find column input with
        | some v => p.add (.column column (asText v))
        | none => p
      else p

def inputMembers : Json → Result Json.Members
  | .obj members => .ok members
  | v => .error (.invalidInput (.valuesNotObject v))

end CatalogQuery.Write
