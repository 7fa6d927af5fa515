import CatalogQuery.Link.Source
import CatalogQuery.Session.Traced
import CatalogQuery.Compile.Scalar

/-!
# Where a key leads

Compiling goes on inside frames: the object whose rows are tested, the name its table goes by and
the objects joined to it. A linked object gets a frame of its own, one level deeper.
-/

namespace CatalogQuery.Compile

open Sql

/-- What is the same throughout a statement. -/
structure Env where
  settings : Settings
  catalog : Catalog
  links : Links
  /-- The language of multilingual fields. -/
  language : String
  /-- Filters that stand in for those of formula fields, by id of the field. -/
  filters : List (String × Condition)

/-- The filter in force for a formula field. -/
def Env.filterOf (env : Env) (f : Field) (formula : Formula) : Option Condition :=
  match env.filters.find? (·.1 == f.id) with
  | some (_, c) => some c
  | none => formula.filter

structure Frame where
  entity : Entity
  /-- The name that its table goes by. -/
  table : String
  /-- Joined objects; of two with one alias the later one counts. -/
  aliases : List (String × Entity)
  /-- How many objects lie between this one and the outermost. -/
  depth : Nat

namespace Frame

def base (e : Entity) : Frame := ⟨e, e.table, [], 0⟩

def withAlias (f : Frame) (name : String) (e : Entity) : Frame :=
  { f with aliases := (name, e) :: f.aliases }

def aliased? (f : Frame) (name : String) : Option Entity :=
  (f.aliases.find? (·.1 == name)).map (·.2)

/-- The frame of a linked object, whose table goes by a name that tells how deep it lies. -/
def inner (f : Frame) (e : Entity) (head : String) : Frame :=
  let depth := f.depth + 1
  ⟨e, head ++ String.ofList (Nat.toDigits 10 depth), [], depth⟩

end Frame

/-- What a key stands for. -/
inductive Subject where
  /-- A column that no field describes. -/
  | column (c : Column)
  | field (entity : Entity) (table : String) (f : Field)

/-- Columns that every table may have. -/
def timeColumns : List String := ["created_at", "updated_at"]

/-- The object that a key belongs to, and the name its table goes by. -/
def owner (frame : Frame) : Option String → Result (Entity × String)
  | none => .ok (frame.entity, frame.table)
  | some name =>
    match frame.aliased? name with
    | some e => .ok (e, name)
    | none => .error (.invalidCondition (.unknownAlias name))

/-- What a key of an object stands for: its primary key, one of its fields, or a time column. -/
def subjectOf (e : Entity) (table key : String) : Result Subject :=
  -- The primary key is meant even where a field has its name.
  if key = Rule.selfKey ∨ key = e.keyColumn then .ok (.column ⟨table, e.keyColumn⟩)
  else
    match e.field key with
    | some f => .ok (.field e table f)
    | none =>
      if timeColumns.contains key then .ok (.column ⟨table, key⟩)
      else .error (.fieldNotFound e.name key)

def subject (frame : Frame) (key : String) (joined : Option String) : Result Subject :=
  match owner frame joined with
  | .ok (e, table) => subjectOf e table key
  | .error e => .error e

/-- The notice and the error of a connection that leads nowhere. -/
def unresolved {α : Type} (e : Entity) (field : String) : Traced α := do
  Traced.notice (.unresolvedConnection e.id e.name field)
  Traced.fail (.configuration (.unresolvedConnection field e.name))

/-- The link of a connection that has to be resolved. -/
def link (env : Env) (e : Entity) (field : String) : Traced Link := do
  let m ← Traced.consult env.links e.id
  match m.get field with
  | some l => pure l
  | none => unresolved e field

def entity (env : Env) (id : String) : Traced Entity := Traced.ofResult (env.catalog.entity id)

/-- Whether a character may stand in a calculation. -/
def isArithmetic (c : Char) : Bool :=
  c.isDigit || Text.isBlank c || c == '.' || c == '+' || c == '-' || c == '*' || c == '/' ||
    c == '(' || c == ')' || c == '%'

/-- The field that a name in a calculation stands for, by column, label or id. -/
def operandField (e : Entity) (name : String) : Option Field :=
  e.fields.find? fun f =>
    !f.isVirtual && (f.column == name || f.label == name || f.id == name)

def calculationPart (e : Entity) (table : String) : Text.TemplatePart → Result CalculationPart
  | .char c => .ok (.char c)
  | .slot name =>
    let name := String.ofList (Text.trim name)
    match operandField e name with
    | some f => .ok (.column ⟨table, f.column⟩)
    | none => .error (.configuration (.unknownOperand e.name name))

/-- A calculation over columns of a row. What is not a column has to be plain arithmetic. -/
def calculation (e : Entity) (table formula : String) : Result Expr :=
  match (Text.templateParts formula).mapM (calculationPart e table) with
  | .error e => .error e
  | .ok parts =>
    -- A column is quoted; all else has to be harmless by itself.
    let plain := parts.all fun
      | .char c => isArithmetic c
      | .column _ => true
    if plain then .ok (.calculation parts)
    else .error (.configuration (.notArithmetic formula e.name))

end CatalogQuery.Compile
