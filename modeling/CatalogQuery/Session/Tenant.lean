import CatalogQuery.Link.Resolve

/-!
# A tenant

A tenant has settings and a catalog, and keeps the links that were resolved from the catalog. Known
links are dropped when the catalog changes. Each drop starts a new generation, and links whose
resolving began in an earlier generation are not kept.
-/

namespace CatalogQuery

structure Tenant where
  settings : Settings
  catalog : Catalog
  /-- Resolved links by id of the object. -/
  known : List (String × LinkMap)
  generation : Nat

namespace Tenant

def new (settings : Settings) (catalog : Catalog) : Tenant := ⟨settings, catalog, [], 0⟩

def known? (t : Tenant) (entity : String) : Option LinkMap :=
  (t.known.find? (·.1 == entity)).map (·.2)

/-- The links of an object by the catalog as it is now, with the notices that resolving gives. -/
def resolved (t : Tenant) (entity : String) : Option (LinkMap × List Notice) :=
  (t.catalog.entity? entity).map fun e =>
    let (m, notices) := LinkMap.resolve t.settings t.catalog e
    (m, LinkMap.nameNotices t.settings e ++ notices)

/-- Keeps links whose resolving began in the given generation, if that has not ended. -/
def keep (t : Tenant) (entity : String) (m : LinkMap) (generation : Nat) : Tenant :=
  if t.generation = generation then
    { t with known := (entity, m) :: t.known.filter (·.1 ≠ entity) }
  else t

/-- Drops the links of an object and those of every object linked to it. -/
def forget (t : Tenant) (entity : String) : Tenant :=
  { t with
    -- The keys of a link depend on both objects.
    known := t.known.filter fun (id, m) => id ≠ entity && !m.leadsTo entity
    generation := t.generation + 1 }

def forgetAll (t : Tenant) : Tenant := { t with known := [], generation := t.generation + 1 }

def setCatalog (t : Tenant) (c : Catalog) : Tenant := { t with catalog := c }

/-- Puts a catalog in the place of the present one. -/
def replaceCatalog (t : Tenant) (c : Catalog) : Tenant := (t.setCatalog c).forgetAll

/-- Makes the links of an object known; links that are known already are left alone. -/
def consult (t : Tenant) (entity : String) : Tenant × List Notice :=
  match t.known? entity with
  | some _ => (t, [])
  | none =>
    match t.resolved entity with
    | none => (t, [])
    | some (m, notices) => (t.keep entity m t.generation, notices)

/-- The links of every object: the known ones, and for the rest what would become known. -/
def links (t : Tenant) : Links := fun entity =>
  match t.known? entity with
  | some m => .ok m
  | none => LinkMap.ofCatalog t.settings t.catalog entity

theorem known?_keep (t : Tenant) (entity : String) (m : LinkMap) :
    (t.keep entity m t.generation).known? entity = some m := by
  simp [keep, known?]

theorem keep_of_ne {t : Tenant} {generation : Nat} (h : t.generation ≠ generation)
    (entity : String) (m : LinkMap) : t.keep entity m generation = t := by
  simp [keep, h]

end Tenant

end CatalogQuery
