import CatalogQuery.Link.Basic

/-!
# Resolving connection fields

A connection field becomes a link when its target exists and, unless its own side holds the link,
the target has the reverse field. What cannot be resolved is left out and told to the authors of
the metadata.
-/

namespace CatalogQuery

namespace Link

/-- Columns that take the place of the primary keys of an object and of its target. -/
structure KeyOverrides where
  source : Option String
  target : Option String
  notices : List Notice

/-- Takes up one more field that replaces a primary key: the object's own, unless it has no such
field or is served already, else the target's. -/
def KeyOverrides.add (e target : Entity) (o : KeyOverrides) (field : String) : KeyOverrides :=
  let notices (owner : Entity) (f : Field) : List Notice :=
    if owner.isUniqueKey f.id then [] else [.nonUniqueKey owner.id owner.name f.id f.column]
  match e.fieldById field, o.source, target.fieldById field, o.target with
  | some f, none, _, _ => { o with source := some f.column, notices := o.notices ++ notices e f }
  | _, _, some f, none =>
    { o with target := some f.column, notices := o.notices ++ notices target f }
  | _, _, _, _ => o

def overrides (e target : Entity) (c : Connection) : KeyOverrides :=
  (c.index.toList ++ c.index2.toList).foldl (KeyOverrides.add e target) ⟨none, none, []⟩

/-- The junction of a many to many link, named after the side that is its source. -/
def junctionKeys (settings : Settings) (e target : Entity) (field : Field) (c : Connection)
    (reverse : Option Field) (sourceKey targetKey : String) : LinkKeys :=
  -- Both ends have to arrive at one name, so both take it from the source.
  let here := c.isSource || reverse.isNone
  let (sourceTable, targetTable, column) :=
    match reverse with
    | some r => if here then (e.table, target.table, field.column)
      else (target.table, e.table, r.column)
    | none => (e.table, target.table, field.column)
  let limit := settings.nameLimit
  let table := junctionName settings.junctionHead sourceTable targetTable column limit
  -- Within one table the columns of the two sides would have one name.
  let sourceSide := Sql.cut sourceTable limit
  let targetSide :=
    if sourceTable = targetTable then Sql.cut (targetTable ++ "_" ++ column) limit
    else Sql.cut targetTable limit
  let (sourceColumn, targetColumn) :=
    if here then (sourceSide, targetSide) else (targetSide, sourceSide)
  .junction table sourceColumn targetColumn sourceKey targetKey

/-- The keys of a link; none when the side that would hold it is missing. -/
def keysOf (settings : Settings) (e target : Entity) (field : Field) (c : Connection) :
    Option LinkKeys × List Notice :=
  let reverse := c.reverse.bind target.fieldById
  let o := overrides e target c
  let sourceKey := o.source.getD e.keyColumn
  let targetKey := o.target.getD target.keyColumn
  let throughReverse := reverse.map fun r => LinkKeys.linked r.column sourceKey
  let keys :=
    match c.shape with
    | .oneToMany => some (.own field.column targetKey)
    | .oneToOne => if c.isSource then some (.own field.column targetKey) else throughReverse
    | .manyToOne => throughReverse
    | .manyToMany => some (junctionKeys settings e target field c reverse sourceKey targetKey)
  (keys, o.notices)

/-- The link of a connection field, with what there is to say about it. -/
def ofField (settings : Settings) (catalog : Catalog) (e : Entity) (field : Field)
    (c : Connection) : Option Link × List Notice :=
  match catalog.entity? c.target with
  | none => (none, [.unknownTarget e.id e.name field.id field.column c.target])
  | some target =>
    match keysOf settings e target field c with
    | (some keys, notices) =>
      (some
        { field := field.id
          column := field.column
          relation := settings.relationName field.column
          shape := c.shape
          target := target.id
          targetTable := target.table
          many := c.here == .many
          keys }, notices)
    | (none, notices) =>
      (none, notices ++ [.noReverseField e.id e.name field.id field.column target.name])

end Link

namespace LinkMap

/-- The resolved links of an object, with the notices of its connection fields in order. -/
def resolve (settings : Settings) (catalog : Catalog) (e : Entity) : LinkMap × List Notice :=
  let found := e.fields.filterMap fun f =>
    f.connection?.map fun c => Link.ofField settings catalog e f c
  (⟨e.id, found.filterMap (·.1)⟩, found.flatMap (·.2))

/-- The names of an object's table and columns that the database cannot hold. -/
def nameNotices (settings : Settings) (e : Entity) : List Notice :=
  let names := e.table :: (e.fields.filter (!·.isVirtual)).map (·.column)
  names.filterMap fun n =>
    (Sql.nameFault n settings.nameLimit).map fun fault => .invalidIdentifier e.id n fault.message

/-- The links of every object of a catalog. -/
def ofCatalog (settings : Settings) (catalog : Catalog) : Links := fun id =>
  (catalog.entity id).map fun e => (resolve settings catalog e).1

end LinkMap

end CatalogQuery
