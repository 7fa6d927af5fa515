import CatalogQuery.Condition.Basic
import CatalogQuery.Settings

/-!
# Callers and what they may see

A caller sees the records of an object that the scopes of their roles cover. The system sees all.
-/

namespace CatalogQuery

/-- Who asks. -/
structure Caller where
  /-- None for a caller who is not logged in. -/
  username : Option String := none
  /-- The language of multilingual fields. -/
  language : String := "en"
  isSystem : Bool := false

/-- A user as the security tables hold them. -/
structure UserRecord where
  username : String
  displayName : Option String
  isActive : Bool
deriving DecidableEq, Repr

structure Role where
  id : String
  name : String
deriving DecidableEq, Repr

/-- A condition on the records that a role may see. -/
structure Scope where
  id : String
  name : String
  /-- Whether it covers every object. -/
  allowAll : Bool
  /-- Ids of the objects that it covers otherwise. -/
  entities : List String
  filter : Condition

def Scope.covers (s : Scope) (entity : String) : Bool := s.allowAll || s.entities.contains entity

/-- Where users, roles and scopes are read from. -/
structure Directory where
  tables : SecurityTables := {}
  /-- How often a read is sent again. -/
  readRetries : Nat := 1

end CatalogQuery
