import CatalogQuery.Proofs.Json.Text
import CatalogQuery.Proofs.Sql.Tables
import CatalogQuery.Write.Links

/-!
# Where links are held

Whatever holds a link, it is held by rows that have a value of the linking row in one column and the
key of a linked record in another. Main statements: what single statements make of these pairs.
-/

namespace CatalogQuery.Write

open Sql

/-- Whether a value is the key of a record: a text that is there and no function call, or a
number. -/
def IsKey : Json → Prop
  | .str s => s ≠ "" ∧ isCall s.toList = false
  | .num _ => True
  | _ => False

namespace IsKey

variable {k : Json}

theorem isBlank (h : IsKey k) : k.isBlank = false := by
  cases k with
  | str s => simpa [Json.isBlank] using h.1
  | num n => rfl
  | null | bool | arr | obj => cases h

theorem plain_ne_empty (h : IsKey k) : k.plain ≠ "" := Json.plain_ne_empty h.isBlank

theorem isLiteral (h : IsKey k) : IsLiteral k := by
  cases k with
  | str s => exact h.2
  | num n => trivial
  | null | bool | arr | obj => cases h

theorem of_isLiteral (h : IsLiteral k) (hblank : k.isBlank = false) : IsKey k := by
  cases k with
  | str s => exact ⟨by simpa [Json.isBlank] using hblank, h⟩
  | num n => trivial
  | null | bool | arr | obj => cases h

theorem lacksValue (h : IsKey k) : Write.lacksValue k = false := by
  cases k with
  | str s => simpa [Write.lacksValue] using h.1
  | num n => rfl
  | null | bool | arr | obj => cases h

/-- A key is stored as its text. -/
theorem value (h : IsKey k) (E : Engine) : E.value k = some k.plain := h.isLiteral.value E

theorem holds_columnIs (h : IsKey k) {E : Engine} {r : Stored} {column : String} :
    E.holds r (columnIs column k) = true ↔ r column = some k.plain := by
  show same (r column) (E.value k) = true ↔ _
  simp [same_eq_true, h.value E]

end IsKey

/-! ## Where links are held -/

/-- Where a link is held: in the rows of a table that have a value of the linking row in the column
`base` and the key of a linked record in the column `key`. -/
structure Place where
  table : String
  base : String
  key : String

/-- Whether a place links a value to a key. -/
def Place.Pairs (p : Place) (T : Tables) (base key : String) : Prop :=
  ∃ x ∈ T p.table, x p.base = some base ∧ x p.key = some key

instance (p : Place) (T : Tables) (base key : String) : Decidable (p.Pairs T base key) :=
  inferInstanceAs (Decidable (∃ x ∈ T p.table, x p.base = some base ∧ x p.key = some key))

/-- The place of a link; an own column is found by the key of its row. -/
def placeOf (e : Entity) (v : LinkValues) : Place :=
  match v.link.keys with
  | .own foreign _ => ⟨e.table, e.keyColumn, foreign⟩
  | .linked foreign _ => ⟨v.link.targetTable, foreign, v.keyColumn⟩
  | .junction table sourceColumn targetColumn _ _ => ⟨table, sourceColumn, targetColumn⟩

/-- What a stored row has in a column, or its key where that is blank. -/
def storedValue (e : Entity) (column : String) (r : Stored) : Option String :=
  match r column with
  | none | some "" => r e.keyColumn
  | some s => some s

/-- The column of the object that the links of its rows are known by. -/
def linkingColumn (e : Entity) (l : Link) : String :=
  match l.keys with
  | .own _ _ => e.keyColumn
  | .linked _ source | .junction _ _ _ source _ => source

/-- The value by which a place knows a row. -/
def Base.linking (b : Base) (l : Link) : Json :=
  match l.keys with
  | .own _ _ => b.key
  | .linked _ source | .junction _ _ _ source _ => b.valueOf source

/-- Whether a stored row of an object is linked to the record with a key. -/
def IsLinked (T : Tables) (e : Entity) (v : LinkValues) (r : Stored) (key : String) : Prop :=
  ∃ base, storedValue e (linkingColumn e v.link) r = some base ∧ (placeOf e v).Pairs T base key

/-! ## Single statements on a place -/

section Statements

variable {E : Engine} {T T' : Tables} {p : Place} {tests : List Predicate} {a t : String}

/-- The pairs of a place whose rows change one by one. -/
theorem Place.pairs_map {φ : Stored → Stored} :
    p.Pairs (Function.update T p.table ((T p.table).map φ)) a t ↔
      ∃ x ∈ T p.table, φ x p.base = some a ∧ φ x p.key = some t := by
  rw [Place.Pairs, Function.update_self]
  simp

theorem pairs_delete (h : E.exec T (.delete p.table tests) = some T') :
    p.Pairs T' a t ↔ ∃ x ∈ T p.table, (x p.base = some a ∧ x p.key = some t) ∧
      tests.all (E.holds x) = false := by
  cases h
  rw [Place.Pairs, Function.update_self]
  simp only [List.mem_filter, Bool.not_eq_true', and_assoc, and_comm]

/-- Emptying either column of a place takes the row's pair away. -/
theorem pairs_setNull {column : String} (hcolumn : column = p.base ∨ column = p.key)
    (h : E.exec T (.update p.table [setNull column] tests) = some T') :
    p.Pairs T' a t ↔ ∃ x ∈ T p.table, (x p.base = some a ∧ x p.key = some t) ∧
      tests.all (E.holds x) = false := by
  cases h
  rw [Place.pairs_map]
  refine exists_congr fun x => and_congr_right fun _ => ?_
  cases htests : tests.all (E.holds x) with
  | false => simp
  | true =>
    have hnull : E.assign [setNull column] x column = none := Function.update_self ..
    rcases hcolumn with rfl | rfl <;> simp [hnull]

theorem pairs_setKey {k : Json} (hk : IsKey k) (hne : p.base ≠ p.key)
    (h : E.exec T (.update p.table [setTo p.key k] tests) = some T') :
    p.Pairs T' a t ↔ ∃ x ∈ T p.table, x p.base = some a ∧
      if tests.all (E.holds x) then t = k.plain else x p.key = some t := by
  cases h
  rw [Place.pairs_map]
  refine exists_congr fun x => and_congr_right fun _ => ?_
  cases htests : tests.all (E.holds x) with
  | false => simp
  | true =>
    have hkey : E.assign [setTo p.key k] x p.key = some k.plain :=
      (Function.update_self ..).trans (hk.value E)
    have hbase : E.assign [setTo p.key k] x p.base = x p.base := Function.update_of_ne hne ..
    simp [hkey, hbase, eq_comm]

theorem pairs_setBase {k : Json} (hk : IsKey k) (hne : p.base ≠ p.key)
    (h : E.exec T (.update p.table [setTo p.base k] tests) = some T') :
    p.Pairs T' a t ↔ ∃ x ∈ T p.table, x p.key = some t ∧
      if tests.all (E.holds x) then a = k.plain else x p.base = some a := by
  cases h
  rw [Place.pairs_map]
  refine exists_congr fun x => and_congr_right fun _ => ?_
  cases htests : tests.all (E.holds x) with
  | false => simp [and_comm]
  | true =>
    have hbase : E.assign [setTo p.base k] x p.base = some k.plain :=
      (Function.update_self ..).trans (hk.value E)
    have hkey : E.assign [setTo p.base k] x p.key = x p.key := Function.update_of_ne hne.symm ..
    simp [hkey, hbase, eq_comm, and_comm]

/-- A pair of columns that differ is there after it was inserted, and no other pair is new. -/
theorem pairs_insertPair {j k : Json} (hj : IsKey j) (hk : IsKey k)
    (h : E.exec T (.insertPair p.table (setTo p.base j) (setTo p.key k)) = some T') :
    p.Pairs T' a t ↔ p.Pairs T a t ∨ a = j.plain ∧ t = k.plain := by
  rw [Engine.exec] at h
  split at h
  · cases h
  rename_i hne
  have hne : p.base ≠ p.key := hne
  split at h
  · rename_i hany
    cases h
    obtain ⟨x, hx, hsame⟩ := List.any_eq_true.1 hany
    rw [Bool.and_eq_true] at hsame
    have hbase := hj.holds_columnIs.1 hsame.1
    have hkey := hk.holds_columnIs.1 hsame.2
    refine (or_iff_left_of_imp ?_).symm
    rintro ⟨rfl, rfl⟩
    exact ⟨x, hx, hbase, hkey⟩
  · cases h
    have hbase : E.assign [setTo p.base j, setTo p.key k] (fun _ => none) p.base = some j.plain :=
      (Function.update_of_ne hne ..).trans ((Function.update_self ..).trans (hj.value E))
    have hkey : E.assign [setTo p.base j, setTo p.key k] (fun _ => none) p.key = some k.plain :=
      (Function.update_self ..).trans (hk.value E)
    rw [Place.Pairs, Function.update_self]
    simp only [List.mem_append, List.mem_singleton, or_and_right, exists_or, exists_eq_left, hbase,
      hkey, Option.some.injEq]
    simp only [Place.Pairs, eq_comm]

end Statements

end CatalogQuery.Write
