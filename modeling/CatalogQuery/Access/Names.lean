import CatalogQuery.Json.Parser
import CatalogQuery.Json.Printer
import CatalogQuery.Text.Blank

/-!
# Users in columns

A user column holds a username, or several as a JSON array or the text of one. Shown with their
names, users are objects with the username and the name.
-/

namespace CatalogQuery.Users

/-- Whether a text looks like a JSON array. -/
def isList (s : String) : Bool := (Text.trimStart s.toList).head? == some '['

/-- The username that an item of an array stands for. -/
def usernameOf : Json → Option String
  | .str s => some s
  | .obj members => (Json.find "id" members).bind Json.text?
  | _ => none

/-- The usernames in a value. -/
def usernames : Json → List String
  | .arr items => items.filterMap usernameOf
  | .str s =>
    if isList s then
      match Json.parse s with
      | some (.arr items) => items.filterMap usernameOf
      | _ => []
    else if s.isEmpty then []
    else [s]
  | _ => []

/-- A user with the name they are shown by, which is the username when there is no other. -/
def shown (names : List (String × String)) (username : String) : Json :=
  let name := ((names.find? (·.1 == username)).map (·.2)).getD username
  Json.object [("id", .str username), ("text", .str name)]

/-- A value with its users shown by name; none for a value that stays as it is. -/
def merged (names : List (String × String)) (v : Json) : Option Json :=
  match v with
  | .arr _ => some (.arr ((usernames v).map (shown names)))
  | .str s =>
    -- Several users stay several, even when there is only one of them.
    if isList s then some (.arr ((usernames v).map (shown names)))
    else if s.isEmpty then none
    else some (shown names s)
  | _ => none

end CatalogQuery.Users
