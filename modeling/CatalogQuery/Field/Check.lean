import CatalogQuery.Field.Basic
import CatalogQuery.Json.Printer
import CatalogQuery.Text.Calendar
import CatalogQuery.Text.Numeral

/-!
# Which values a field accepts

Null is accepted here by every field; whether one has to have a value is another question.
-/

namespace CatalogQuery

/-- Why a value does not fit the type of a field. -/
inductive ValueFault where
  | notNumber (s : String)
  | notBoolean (shown : String)
  | notDate (s : String)
  | notDateTime (s : String)
  | severalOptions
  | optionNotText (value : Json)
  | unknownOption (s : String)
  | notUsernames
  | severalRecords
  | computed
  | mismatch (expected : String) (value : Json)

def ValueFault.message : ValueFault → String
  | notNumber s => "Cannot convert '" ++ s ++ "' to number"
  | notBoolean shown => "Cannot convert '" ++ shown ++ "' to boolean"
  | notDate s => "Invalid date format: '" ++ s ++ "'"
  | notDateTime s => "Invalid datetime format: '" ++ s ++ "'"
  | severalOptions => "List field accepts a single option"
  | optionNotText value => "Option id must be a string, got " ++ value.text
  | unknownOption s => "Value '" ++ s ++ "' is not a list option"
  | notUsernames => "User list must contain usernames"
  | severalRecords => "Connection links a single record"
  | computed => "Computed fields are read-only"
  | mismatch expected value => "Type mismatch: expected " ++ expected ++ ", got " ++ value.text

namespace FieldType

def checkOption (options : List ListOption) : Json → Option ValueFault
  | .str s => if (ListOption.idOf options s).isSome then none else some (.unknownOption s)
  | v => some (.optionNotText v)

def isBooleanWord (s : String) : Bool :=
  let word := s.toList.map Char.toLower
  word == "true".toList || word == "false".toList || word == ['1'] || word == ['0']

/-- Whether a value names a user: a text, or an object with an id. -/
def namesUser (v : Json) : Bool := v.isStr || (v.get? "id").isSome

/-- What is wrong with a value, if anything is. -/
def check (t : FieldType) (v : Json) : Option ValueFault :=
  if v.isNull then none
  else
    match t, v with
    | text, .str _ => none
    | longText, .str _ => none
    | uuid, .str _ => none
    | number, .num _ => none
    | autoIndex, .num _ => none
    | number, .str s => if Text.Numeral.isNumber s then none else some (.notNumber s)
    | boolean, .bool _ => none
    | boolean, .num n =>
      if n = .int 0 || n = .int 1 then none else some (.notBoolean (String.ofList n.text))
    | boolean, .str s => if isBooleanWord s then none else some (.notBoolean s)
    | date, .str s => if Text.Calendar.isDate s then none else some (.notDate s)
    | dateTime, .str s => if Text.Calendar.isMoment s then none else some (.notDateTime s)
    | list options multiple, .arr items =>
      if multiple then items.findSome? (checkOption options) else some .severalOptions
    | list options _, v => checkOption options v
    | user _, .str _ => none
    | user true, .arr items => if items.all namesUser then none else some .notUsernames
    | user multiple, .obj members =>
      if Json.has "id" members then none
      else some (.mismatch (user multiple).name v)
    | connection settings, .arr items =>
      if settings.here = .one && items.length > 1 then some .severalRecords else none
    | connection _, _ => none
    | json, _ => none
    | formula _, _ => some .computed
    | calculate _, _ => some .computed
    | t, v => some (.mismatch t.name v)

end FieldType

end CatalogQuery
