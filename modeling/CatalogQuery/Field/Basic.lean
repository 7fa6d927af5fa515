import CatalogQuery.Condition.Basic
import CatalogQuery.Text.Blank

/-!
# Fields

What a field of an object is: the type of its values, where they are stored and, for a connection
to another object, which side of the link the field is.
-/

namespace CatalogQuery

/-- How many records one side of a connection links to. -/
inductive Multiplicity where
  | one
  | many
deriving DecidableEq, Repr

/-- A link to another object as one of its two ends describes it. -/
structure Connection where
  /-- Id of the linked object. -/
  target : String
  /-- Id of the field on the linked object that is the other end. -/
  reverse : Option String
  /-- How many linked records a record points at. -/
  here : Multiplicity
  /-- How many records a linked record points back at. -/
  there : Multiplicity
  /-- Of a one to one link, whether this end holds the foreign key. -/
  isSource : Bool
  /-- Fields that take the place of a primary key, on either object. -/
  index : Option String
  index2 : Option String
deriving DecidableEq, Repr

namespace Connection

def between (target : String) (here there : Multiplicity) : Connection :=
  ⟨target, none, here, there, false, none, none⟩

/-- Adds a field that takes the place of a primary key. -/
def withIndex (c : Connection) (field : String) : Connection :=
  match c.index with
  | none => { c with index := some field }
  | some _ => { c with index2 := some field }

end Connection

/-- One of the values a list field may have. -/
structure ListOption where
  id : String
  label : String
deriving DecidableEq, Repr

/-- The id of the option that a text names by id or else, in any case, by label. -/
def ListOption.idOf (options : List ListOption) (s : String) : Option String :=
  match options.find? (·.id == s) with
  | some o => some o.id
  | none => (options.find? fun o => Text.sameWord o.label s).map (·.id)

inductive Aggregate where
  | sum | average | max | min | count
deriving DecidableEq, Repr

/-- An aggregate over the records that a connection leads to. -/
structure Formula where
  /-- The connection. -/
  field : String
  /-- The field of the linked object that is aggregated. -/
  target : String
  aggregate : Aggregate
  /-- Which linked records count. -/
  filter : Option Condition

inductive FieldType where
  | text
  | longText
  | number
  /-- A day; a time of day that comes with it does not count. -/
  | date
  | dateTime
  | boolean
  | list (options : List ListOption) (multiple : Bool)
  | user (multiple : Bool)
  | formula (settings : Formula)
  /-- Arithmetic on columns of the same row, which stand in braces. -/
  | calculate (expression : String)
  | connection (settings : Connection)
  | json
  | uuid
  | autoIndex

/-- The name of a type in metadata. -/
def FieldType.name : FieldType → String
  | text => "string"
  | longText => "longtext"
  | number => "number"
  | date => "date"
  | dateTime => "datetime"
  | boolean => "boolean"
  | list _ _ => "list"
  | user _ => "user"
  | formula _ => "formula"
  | calculate _ => "calculate"
  | connection _ => "connectObject"
  | json => "json"
  | uuid => "uuid"
  | autoIndex => "autoindex"

structure Field where
  id : String
  column : String
  label : String
  type : FieldType
  /-- Whether the values are kept per language, apart from the other columns. -/
  multilingual : Bool
  required : Bool
  /-- The value of a new record when none is given. -/
  default : Option Json

namespace Field

def new (id column : String) (type : FieldType) : Field :=
  ⟨id, column, column, type, false, false, none⟩

def connection? (f : Field) : Option Connection :=
  match f.type with
  | .connection settings => some settings
  | _ => none

def isConnection (f : Field) : Bool := f.connection?.isSome

def isUser (f : Field) : Bool :=
  match f.type with
  | .user _ => true
  | _ => false

/-- Whether the values are computed and no column holds them. -/
def isVirtual (f : Field) : Bool :=
  match f.type with
  | .formula _ | .calculate _ => true
  | _ => false

/-- Whether a column holds a JSON array of values. -/
def isMultiValued (f : Field) : Bool :=
  match f.type with
  | .list _ multiple => multiple
  | .user multiple => multiple
  | _ => false

end Field

/-- The shape of a link, from a record to the linked one. -/
inductive Shape where
  | oneToOne | oneToMany | manyToOne | manyToMany
deriving DecidableEq, Repr

def Connection.shape (c : Connection) : Shape :=
  match c.here, c.there with
  | .one, .one => .oneToOne
  | .one, .many => .oneToMany
  | .many, .one => .manyToOne
  | .many, .many => .manyToMany

end CatalogQuery
