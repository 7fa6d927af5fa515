import CatalogQuery.Access.Basic
import CatalogQuery.Condition.Codec
import CatalogQuery.Json.Parser
import CatalogQuery.Session.Program

/-!
# Reading users, roles and scopes

The statements that read the security tables and what their rows mean. A user who is unknown or not
active has no scopes but an error.
-/

namespace CatalogQuery

namespace Row

/-- A column as text; null is none. -/
def text? (row : Row) (column : String) : Option String :=
  match Json.find column row with
  | none | some .null => none
  | some (.str s) => some s
  | some v => some v.text

def isSet (row : Row) (column : String) : Bool := ((Json.find column row).map Json.isTruthy).getD false

/-- A column that holds JSON, perhaps as its text; text that cannot be read is null. -/
def json (row : Row) (column : String) : Json :=
  match Json.find column row with
  | some (.str s) => (Json.parse s).getD .null
  | some v => v
  | none => .null

end Row

def UserRecord.ofRow (username : String) (row : Row) : UserRecord :=
  ⟨(Row.text? row "username").getD username, Row.text? row "displayName", Row.isSet row "isActive"⟩

def Role.ofRow (row : Row) : Option Role :=
  (Row.text? row "uuid").map fun id => ⟨id, (Row.text? row "name").getD ""⟩

def Scope.ofRow (row : Row) : Result Scope :=
  match Row.text? row "uuid" with
  | none => .error (.security .scopeWithoutId)
  | some id =>
    .ok
      { id
        name := (Row.text? row "name").getD ""
        allowAll := Row.isSet row "allowAll"
        entities := (((Row.json row "objectIds").items?).getD []).filterMap Json.text?
        filter :=
          match Row.json row "filters" with
          | .null => Condition.empty
          | v => Condition.ofJson v }

namespace Scope

/-- The scopes whose ids have not come before. -/
def distinct (seen : List String) : List Scope → List Scope
  | [] => []
  | s :: rest => if seen.contains s.id then distinct seen rest else s :: distinct (s.id :: seen) rest

end Scope

namespace Directory

open Sql

def userSelect (d : Directory) (username : String) : Select :=
  { distinct := false
    columns :=
      [.expr (.bare "username"), .expr (.bare "isActive"),
        .named (.bare d.tables.displayColumn) "displayName"]
    source := ⟨d.tables.users, none, []⟩
    filter := some (.compare (.bare "username") .eq (.text username))
    order := []
    limit := some 1
    offset := none }

def rolesSelect (d : Directory) (username : String) : Select :=
  .plain false [.expr (.column ⟨"r", "uuid"⟩), .expr (.column ⟨"r", "name"⟩)]
    ⟨d.tables.roles, some "r",
      [⟨false, d.tables.roleUsers, "ru", ⟨⟨"ru", "role"⟩, ⟨"r", "uuid"⟩⟩⟩]⟩
    (some (.compare (.column ⟨"ru", "username"⟩) .eq (.text username)))

def scopesSelect (d : Directory) (roles : List Role) : Select :=
  .plain true
    (["uuid", "name", "allowAll", "objectIds", "filters"].map fun c => .expr (.column ⟨"s", c⟩))
    ⟨d.tables.scopes, some "s",
      [⟨false, d.tables.roleScopes, "rs", ⟨⟨"rs", "scope"⟩, ⟨"s", "uuid"⟩⟩⟩]⟩
    (some (.oneOf (.column ⟨"rs", "role"⟩) (roles.map fun r => .text r.id) false))

def namesSelect (d : Directory) (usernames : List String) : Select :=
  .plain false [.expr (.bare "username"), .named (.bare d.tables.displayColumn) "displayName"]
    ⟨d.tables.users, none, []⟩
    (some (.oneOf (.bare "username") (usernames.map .text) false))

def user (d : Directory) (channel : Channel) (username : String) :
    Program (Option UserRecord) := do
  let rows ← Program.fetch channel (d.userSelect username) d.readRetries
  pure (rows.head?.map (UserRecord.ofRow username))

def roles (d : Directory) (channel : Channel) (username : String) : Program (List Role) := do
  let rows ← Program.fetch channel (d.rolesSelect username) d.readRetries
  pure (rows.filterMap Role.ofRow)

/-- The scopes that any of the roles has, each once. -/
def scopes (d : Directory) (channel : Channel) (roles : List Role) : Program (List Scope) := do
  if roles.isEmpty then pure []
  else
    let rows ← Program.fetch channel (d.scopesSelect roles) d.readRetries
    let scopes ← Program.ofResult (rows.mapM Scope.ofRow)
    pure (Scope.distinct [] scopes)

/-- The names that users are shown by; of two for one user the later one counts. -/
def displayNames (d : Directory) (channel : Channel) (usernames : List String) :
    Program (List (String × String)) := do
  if usernames.isEmpty then pure []
  else
    let rows ← Program.fetch channel (d.namesSelect usernames) d.readRetries
    pure (rows.reverse.filterMap fun row =>
      match Row.text? row "username", Row.text? row "displayName" with
      | some username, some name => some (username, name)
      | _, _ => none)

/-- The scopes of a user who is known and active. -/
def scopesOf (d : Directory) (channel : Channel) (username : String) : Program (List Scope) := do
  match ← d.user channel username with
  | none => Program.ofResult (.error (.security (.unknownUser username)))
  | some u =>
    if !u.isActive then Program.ofResult (.error (.security (.inactiveUser username)))
    else
      let roles ← d.roles channel username
      d.scopes channel roles

end Directory

end CatalogQuery
