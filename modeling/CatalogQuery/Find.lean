import CatalogQuery.Populate
import CatalogQuery.Reduce.Tree

/-!
# Finding and counting records

A find reduces its condition, compiles it into one statement and attaches linked records to the rows
that come back. A count is made of the same rows.
-/

namespace CatalogQuery

open Sql

/-- The joins that options ask for, each under its alias, with a frame that knows them. -/
def joinRequested (env : Compile.Env) (e : Entity) (links : LinkMap) :
    List JoinRequest → Source × Compile.Frame → Traced (Source × Compile.Frame)
  | [], found => pure found
  | request :: rest, (source, frame) =>
    match links.get request.field with
    | none => Traced.fail (.invalidInput (.notConnection request.field e.name))
    | some l => do
      let target ← Compile.entity env l.target
      joinRequested env e links rest
        ({ source with joins := source.joins ++ l.leftJoins e.table request.called },
          frame.withAlias request.called target)

/-- The tables of a find, and the frame of its object. -/
def findSource (env : Compile.Env) (e : Entity) (joins : List JoinRequest) :
    Traced (Source × Compile.Frame) := do
  let found := (Source.mk e.table none [], Compile.Frame.base e)
  if joins.isEmpty then pure found
  else
    let links ← Traced.consult env.links e.id
    joinRequested env e links joins found

/-- The statement of a find whose condition is reduced. -/
def findSelect (env : Compile.Env) (e : Entity) (o : FindOptions) (c : Condition) :
    Traced Select := do
  let (source, frame) ← findSource env e o.joins
  let computed ← Compile.virtualColumns env frame
  let filter ← Compile.condition env frame c
  let order ← Compile.ordering env frame o.sort
  let limit := match o.limit with
    | some n => if 0 ≤ n then n else env.settings.defaultLimit
    | none => env.settings.defaultLimit
  pure
    -- Joined rows can repeat a record.
    { distinct := !o.joins.isEmpty
      columns := .all e.table :: computed
      source
      filter
      order
      limit := some limit
      offset := o.offset.filter (0 < ·) }

/-- The statement of a count whose condition is reduced. -/
def countSelect (env : Compile.Env) (e : Entity) (o : FindOptions) (c : Condition) :
    Traced Select := do
  let (source, frame) ← findSource env e o.joins
  let filter ← Compile.condition env frame c
  pure (.plain false [.countDistinct ⟨e.table, e.keyColumn⟩ "count"] source filter)

/-- The number that a count came back with. -/
def countOf (rows : List Row) : Int :=
  match rows.head?.bind (Json.find "count") with
  | none => 0
  | some v =>
    match v.int? with
    | some n => n
    | none => (v.text?.bind Text.Numeral.wholeNumber?).getD 0

/-- The condition of one record. -/
def byKey (key : Json) : Condition := Condition.eq Rule.selfKey key

namespace Session

/-- The filters of the formula fields of an object and of the objects joined to it. -/
def formulaFilters (s : Session) (catalog : Catalog) (e : Entity) (o : FindOptions)
    (caller : Caller) : Program (List (String × Condition)) := do
  let joined ←
    if o.joins.isEmpty then pure []
    else do
      let links ← Program.linksOf e.id
      pure (o.joins.filterMap fun request =>
        (links.get request.field).bind fun l => catalog.entity? l.target)
  Reduce.formulaFilters s (e :: joined) caller

def env (s : Session) (catalog : Catalog) (links : Links) (caller : Caller)
    (filters : List (String × Condition)) : Compile.Env :=
  ⟨s.settings, catalog, links, caller.language, filters⟩

/-- The records of an object that satisfy options and that the caller may see. -/
def find (s : Session) (entity : String) (o : FindOptions) (caller : Caller) :
    Program (List Row) := do
  let catalog ← Program.catalog
  let e ← Program.ofResult (catalog.entity entity)
  let c ← Reduce.reduce s entity o.condition caller
  let filters ← s.formulaFilters catalog e o caller
  let statement ← Program.withLinks fun links =>
    findSelect (s.env catalog links caller filters) e o c
  let rows ← s.fetch statement
  Linked.populate s e rows o.populate o.minimal

/-- How many records satisfy options, whatever page of them is asked for. -/
def count (s : Session) (entity : String) (o : FindOptions) (caller : Caller) : Program Int := do
  let catalog ← Program.catalog
  let e ← Program.ofResult (catalog.entity entity)
  let c ← Reduce.reduce s entity o.condition caller
  let filters ← s.formulaFilters catalog e o caller
  let statement ← Program.withLinks fun links =>
    countSelect (s.env catalog links caller filters) e o c
  let rows ← s.fetch statement
  pure (countOf rows)

/-- The record with a key, if the caller may see it. -/
def findOne (s : Session) (entity : String) (key : Json) (p : Populate) (caller : Caller) :
    Program (Option Row) := do
  let o : FindOptions := { condition := byKey key, populate := p }
  let rows ← s.find entity (o.paginate 0 1) caller
  pure rows.head?

/-- The record with a key as it is stored, whoever asks. -/
def readRow (s : Session) (e : Entity) (key : Json) (caller : Caller) : Program (Option Row) := do
  let catalog ← Program.catalog
  let o := FindOptions.paginate { condition := byKey key } 0 1
  let filters ← s.formulaFilters catalog e o caller
  let statement ← Program.withLinks fun links =>
    findSelect (s.env catalog links caller filters) e o o.condition
  let rows ← s.fetch statement
  pure rows.head?

end Session

end CatalogQuery
