import CatalogQuery.Compile.Tree
import CatalogQuery.Reduce.Scopes

/-!
# Stored filters

Membership in a stored query or data collection becomes membership in a list of keys. The statement
that reads the keys selects either the keys of the source's own rows, another of its columns, or,
for a connection to the source, the keys of the rows linked to them.
-/

namespace CatalogQuery.Reduce

open Sql

/-- A stored filter and the object it is about. -/
structure StoredSource where
  /-- Id of the stored query or data collection. -/
  id : String
  /-- Id of the object. -/
  entity : String
  condition : Condition
  joins : List String

def queryNamed (catalog : Catalog) (id : String) : Traced StoredSource :=
  match catalog.query? id with
  | some q => pure ⟨q.id, q.entity, q.condition, q.joins⟩
  | none => do
    Traced.notice (.unknownQuery id)
    Traced.fail (.configuration (.unknownQuery id))

def collectionNamed (catalog : Catalog) (id : String) : Traced StoredSource :=
  match catalog.collection? id with
  | some d =>
    match d.source with
    | .object entity => pure ⟨d.id, entity, d.filter, []⟩
    | .query query => do
      let q ← queryNamed catalog query
      pure ⟨d.id, q.entity, q.condition.and d.filter, q.joins⟩
  | none => do
    Traced.notice (.unknownCollection id)
    Traced.fail (.configuration (.unknownCollection id))

/-- The joins of a stored filter, each under its column, with a frame that knows them. -/
def joinAll (env : Compile.Env) (e : Entity) (links : LinkMap) :
    List String → Source × Compile.Frame → Traced (Source × Compile.Frame)
  | [], found => pure found
  | field :: rest, (source, frame) =>
    match links.get field with
    | none => do
      Traced.notice (.unresolvedJoin e.id e.name field)
      Traced.fail (.configuration (.unresolvedJoin field e.name))
    | some l => do
      let target ← Compile.entity env l.target
      joinAll env e links rest
        ({ source with joins := source.joins ++ l.leftJoins e.table l.column },
          frame.withAlias l.column target)

/-- The rows of a stored filter whose condition is reduced already. -/
def storedRows (env : Compile.Env) (e : Entity) (joins : List String) (c : Condition) :
    Traced (Source × Option Predicate) := do
  let found := (Source.mk e.table none [], Compile.Frame.base e)
  let (source, frame) ←
    if joins.isEmpty then pure found
    else do
      let links ← Traced.consult env.links e.id
      joinAll env e links joins found
  let filter ← Compile.condition env frame c
  pure (source, filter)

/-- The link by which a rule's key leads to the object of a stored filter. -/
def linkTo (e : Entity) (links : LinkMap) (key target : String) : Option Link :=
  match e.field key with
  | none => none
  | some f =>
    if f.isConnection then (links.get f.id).filter (·.target == target) else none

/-- The statement that reads the keys of a stored filter, and the key that they are compared
with. -/
def membershipSelect (env : Compile.Env) (e : Entity) (r : Rule) (stored : StoredSource)
    (reduced : Condition) (column : Option String) : Traced (Select × String) := do
  let target ← Compile.entity env stored.entity
  let (source, filter) ← storedRows env target stored.joins reduced
  let direct (column : String) : Select × String :=
    (.plain true [.expr (.column ⟨target.table, column⟩)] source filter, r.key)
  match column, r.joined with
  -- A column that is named, or a key under an alias, is compared as it is.
  | some column, _ => pure (direct column)
  | none, some _ => pure (direct target.keyColumn)
  | none, none => do
    let links ← Traced.consult env.links e.id
    -- A connection to the source is compared by whatever holds its link.
    match linkTo e links r.key target.id with
    | none => pure (direct target.keyColumn)
    | some l =>
      let (key, source, base) := l.baseKeys source target.table
      pure (.plain true [.expr (.column key)] source filter, base)

/-- The field that "query:field" names, and the stored query. -/
def queryField (catalog : Catalog) (r : Rule) : Traced (StoredSource × String) := do
  let reference := r.value.plain
  match Text.splitAtFirst ':' reference.toList with
  | none => Traced.fail (.invalidCondition (.fieldReference r.op reference))
  | some (query, field) => do
    let field := String.ofList field
    let stored ← queryNamed catalog (String.ofList query)
    let target ← Traced.ofResult (catalog.entity stored.entity)
    match (target.field field).filter (!·.isVirtual) with
    | some f => pure (stored, f.column)
    | none => Traced.fail (.fieldNotFound target.name field)

end CatalogQuery.Reduce
