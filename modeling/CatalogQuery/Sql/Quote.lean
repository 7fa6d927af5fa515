import CatalogQuery.Json.Printer
import CatalogQuery.Text.Blank

/-!
# Pieces of SQL text

A statement is a sequence of pieces: words of the language, quoted names, quoted texts, numbers and
bare function calls. What comes from metadata or callers is always a piece of its own, so that
quoting happens in one place.
-/

namespace CatalogQuery.Sql

/-- A name between backticks, with those inside it doubled. -/
def quoteName (s : List Char) : List Char :=
  '`' :: s.flatMap (fun c => if c = '`' then ['`', '`'] else [c]) ++ ['`']

/-- A text between single quotes, with the quotes and backslashes inside it doubled. -/
def quoteText (s : List Char) : List Char :=
  '\'' :: s.flatMap
    (fun c => if c = '\\' then ['\\', '\\'] else if c = '\'' then ['\'', '\''] else [c]) ++ ['\'']

/-- Whether a text, less the blanks around it, is the call of a function without arguments. -/
def isCall (s : List Char) : Bool :=
  let t := Text.trim s
  Text.isName (t.takeWhile Text.isNamePart) &&
    match t.dropWhile Text.isNamePart with
    | '(' :: rest => rest.dropWhile Text.isBlank == [')']
    | _ => false

inductive Piece where
  /-- Text that is SQL already. -/
  | raw (s : String)
  | name (s : String)
  | text (s : String)
  | number (n : Number)
  /-- The call of a function, written as it is. -/
  | call (s : List Char)

def Piece.chars : Piece → List Char
  | raw s => s.toList
  | name s => quoteName s.toList
  | text s => quoteText s.toList
  | number n => n.text
  | call s => s

end Sql

/-- A part of a statement. -/
abbrev Sql := List Sql.Piece

namespace Sql

def chars (sql : Sql) : List Char := sql.flatMap Piece.chars

/-- The text of a statement. -/
def toText (sql : Sql) : String := String.ofList sql.chars

theorem chars_append (a b : Sql) : chars (a ++ b) = chars a ++ chars b := by
  simp [chars]

def word (s : String) : Sql := [.raw s]

def name (s : String) : Sql := [.name s]

/-- Parts with a separator between them. -/
def sepBy (separator : String) : List Sql → Sql
  | [] => []
  | [a] => a
  | a :: rest => a ++ word separator ++ sepBy separator rest

/-- A value as it is written in a statement: a text that is the call of a function stays one, and
a list or object is the text of its JSON. -/
def ofValue : Json → Sql
  | .null => word "NULL"
  | .bool b => word (if b then "1" else "0")
  | .num n => [.number n]
  | .str s => if isCall s.toList then [.call (Text.trim s.toList)] else [.text s]
  | v => [.text v.text]

end Sql

end CatalogQuery
