import CatalogQuery.Access.Directory
import CatalogQuery.Catalog.Basic

/-!
# Narrowing to what a caller may see

A condition on an object is joined to the filters of the scopes that cover the object. Rules of a
filter on keys that the object does not have are left out of it first.
-/

namespace CatalogQuery

/-- What of the records a caller may see. -/
inductive Sight where
  | everything
  | nothing
  | covered (scopes : List Scope)

/-- Whether a rule is about a key that the object has. -/
def ownsKey (e : Entity) (r : Rule) : Bool :=
  r.key == Rule.constantKey || r.key == Rule.selfKey || r.key == e.keyColumn ||
    (e.field r.key).isSome

/-- The filters of the scopes that cover an object, as far as they are about it. -/
def scopeFilters (e : Entity) (scopes : List Scope) : List Condition :=
  (scopes.filter (·.covers e.id)).map fun s => s.filter.retain (ownsKey e)

/-- Any of several conditions. -/
def anyOf : List Condition → Condition
  | [c] => c
  | cs => .group .or cs

/-- The condition on what is seen of the records that satisfy `c`. A filter without rules grants
every record. -/
def Sight.narrow (s : Sight) (e : Entity) (c : Condition) : Condition :=
  match s with
  | everything => c
  | nothing => Condition.constant false
  | covered scopes =>
    let filters := scopeFilters e scopes
    -- No scope covers the object.
    if filters.isEmpty then Condition.constant false
    -- One of the scopes grants every record.
    else if filters.any (·.isEmpty) then c
    else (anyOf filters).and c

/-- What a request is served with: the installation, and where its statements go. -/
structure Session where
  settings : Settings
  directory : Directory
  channel : Channel

/-- What a caller sees. -/
def Session.sight (s : Session) (caller : Caller) : Program Sight :=
  if caller.isSystem then pure .everything
  else
    match caller.username with
    | none => pure .nothing
    | some username => Sight.covered <$> s.directory.scopesOf s.channel username

/-- Reads rows, again if it has to be. -/
def Session.fetch (s : Session) (statement : Sql.Select) : Program (List Row) :=
  Program.fetch s.channel statement s.settings.readRetries

def Session.execute (s : Session) (statement : Sql.Write) : Program Nat :=
  Program.execute s.channel statement

namespace Json

/-- The values that differ from all before them as text. -/
def distinct (seen : List String) : List Json → List Json
  | [] => []
  | v :: rest =>
    if seen.contains v.plain then distinct seen rest else v :: distinct (v.plain :: seen) rest

end Json

/-- The values of the first column, each once and none null. -/
def firstColumn (rows : List Row) : List Json :=
  Json.distinct [] ((rows.filterMap fun row => row.head?.map (·.2)).filter (!·.isNull))

end CatalogQuery
