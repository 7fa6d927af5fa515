import CatalogQuery.Link.Basic
import CatalogQuery.Sql.Predicate

/-!
# Links in statements

How a statement gets from rows to the rows linked to them, in a subquery about one outer row or in
joins, and back from linked rows to the keys of the rows that lead to them.
-/

namespace CatalogQuery.Link

open Sql

/-- The alias of the junction beside a linked table. -/
def junctionAlias (linked : String) : String := linked ++ "__j"

/-- The linked rows of the outer row `base`, under an alias, as a source and a condition on it. -/
def correlated (l : Link) (base called : String) : Source × ColumnPair :=
  match l.keys with
  | .own foreign target =>
    (⟨l.targetTable, some called, []⟩, ⟨⟨called, target⟩, ⟨base, foreign⟩⟩)
  | .linked foreign source =>
    (⟨l.targetTable, some called, []⟩, ⟨⟨called, foreign⟩, ⟨base, source⟩⟩)
  | .junction table sourceColumn targetColumn source target =>
    let j := junctionAlias called
    (⟨table, some j,
        [⟨false, l.targetTable, called, ⟨⟨called, target⟩, ⟨j, targetColumn⟩⟩⟩]⟩,
      ⟨⟨j, sourceColumn⟩, ⟨base, source⟩⟩)

/-- Joins that add the linked rows to those of `base` and keep rows without any. -/
def leftJoins (l : Link) (base called : String) : List Joined :=
  match l.keys with
  | .own foreign target =>
    [⟨true, l.targetTable, called, ⟨⟨called, target⟩, ⟨base, foreign⟩⟩⟩]
  | .linked foreign source =>
    [⟨true, l.targetTable, called, ⟨⟨called, foreign⟩, ⟨base, source⟩⟩⟩]
  | .junction table sourceColumn targetColumn source target =>
    let j := junctionAlias called
    [⟨true, table, j, ⟨⟨j, sourceColumn⟩, ⟨base, source⟩⟩⟩,
      ⟨true, l.targetTable, called, ⟨⟨called, target⟩, ⟨j, targetColumn⟩⟩⟩]

/-- From linked rows, which `source` gives under the name `linked`: the column that holds keys of
the rows that lead to them, the source that it belongs to, and the column it is compared with. -/
def baseKeys (l : Link) (source : Source) (linked : String) : Column × Source × String :=
  match l.keys with
  | .own foreign target => (⟨linked, target⟩, source, foreign)
  | .linked foreign key => (⟨linked, foreign⟩, source, key)
  | .junction table sourceColumn targetColumn key target =>
    let j := "__junction"
    (⟨j, sourceColumn⟩,
      { source with
        joins := source.joins ++
          [⟨false, table, j, ⟨⟨j, targetColumn⟩, ⟨linked, target⟩⟩⟩] },
      key)

end CatalogQuery.Link
