/-!
# Settings

What one installation decides: names of tables and columns that no metadata describes, and limits.
-/

namespace CatalogQuery

/-- Tables that hold users, roles and scopes. -/
structure SecurityTables where
  users : String := "SITE_USER"
  /-- Column of a user's name as it is shown. -/
  displayColumn : String := "firstName"
  roles : String := "SITE_ROLE"
  roleUsers : String := "SITE_ROLE_USER"
  scopes : String := "SITE_SCOPE"
  roleScopes : String := "SITE_ROLE_SCOPE"

structure Settings where
  /-- The most characters that a name may have. -/
  nameLimit : Nat := 64
  /-- How the name of a junction table starts. -/
  junctionHead : String := "JOINMN"
  /-- Column that holds the values of multilingual fields. -/
  translationsColumn : String := "translations"
  /-- What is added to a connection's column to name the records it leads to. -/
  relationTail : String := "__relation"
  /-- Whether tables note when a record was made. -/
  createdAt : Bool := true
  /-- Whether tables note when a record was last changed. -/
  updatedAt : Bool := true
  /-- How many records are read when no limit is given. -/
  defaultLimit : Int := 1000
  /-- How often a read is sent again. -/
  readRetries : Nat := 1
  security : SecurityTables := {}

namespace Settings

/-- The name under which the records that a connection leads to are attached. -/
def relationName (s : Settings) (column : String) : String := column ++ s.relationTail

end Settings

end CatalogQuery
