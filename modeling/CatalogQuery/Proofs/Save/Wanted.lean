import CatalogQuery.Proofs.Save.Relinking
import CatalogQuery.Proofs.Session.Outcomes

/-!
# One link of a record that is changed

The keys that a record is linked to are read before it is relinked, and other statements may be sent
before and after. Main statements: the keys that are read are those that the place of the link pairs
the record with, and relinking leaves the record linked to exactly the wanted records.
-/

namespace CatalogQuery.Write

open Sql

/-! ## Reading the keys of a row -/

theorem eq_some_iff_of_shows {cell : Option String} {v : Option Json}
    (h : Engine.Shows cell v) {t : String} (ht : t ≠ "") :
    cell = some t ↔ ∃ j, v = some j ∧ lacksValue j = false ∧ j.plain = t := by
  match v, h with
  | none, h =>
    rw [show cell = none from h]
    simp
  | some .null, h =>
    rw [show cell = none from h]
    simp [lacksValue]
  | some (.str s), h =>
    rw [show cell = some s from h]
    simp only [Option.some.injEq, exists_eq_left', lacksValue, Json.plain]
    refine ⟨?_, fun h => h.2⟩
    rintro rfl
    exact ⟨by simpa using ht, rfl⟩
  | some (.num n), h =>
    rw [show cell = some (Json.num n).plain from h]
    simp [lacksValue]

theorem storedValue_of_shows {b : Base} {column : String} {r : Stored}
    (hrow : r b.entity.keyColumn = some b.key.plain)
    (h : Engine.Shows (r column) (Json.find column b.row)) :
    storedValue b.entity column r = some (b.valueOf column).plain := by
  rw [Base.valueOf]
  generalize Json.find column b.row = v at h
  match v, h with
  | none, h =>
    rw [storedValue, show r column = none from h]
    exact hrow
  | some .null, h =>
    rw [storedValue, show r column = none from h]
    exact hrow
  | some (.str s), h =>
    have hcell : r column = some s := h
    by_cases hs : s = ""
    · subst hs
      rw [storedValue, hcell]
      exact hrow
    · rw [storedValue_of_some hcell hs]
      simp [lacksValue, hs, Json.plain]
  | some (.num n), h => exact storedValue_of_some h (Json.plain_ne_empty rfl)

theorem mem_map_currentOf {rows : List Row} {t : String} :
    t ∈ (currentOf rows).map Json.plain ↔
      ∃ row ∈ rows, ∃ j, Json.find keyAlias row = some j ∧ lacksValue j = false ∧ j.plain = t := by
  rw [currentOf, Json.mem_map_distinct]
  simp only [List.not_mem_nil, not_false_eq_true, true_and, List.mem_map, List.mem_filter,
    List.mem_filterMap, Bool.not_eq_true']
  constructor
  · rintro ⟨j, ⟨⟨row, hrow, hfind⟩, hlacks⟩, ht⟩
    exact ⟨row, hrow, j, hfind, hlacks, ht⟩
  · rintro ⟨row, hrow, j, hfind, hlacks, ht⟩
    exact ⟨j, ⟨⟨row, hrow, hfind⟩, hlacks⟩, ht⟩

/-- Whether keys are those that a row is linked to when the database has given tables: what the row
has itself, or what comes back from the place of the link. -/
def CurrentIn (E : Engine) (T : Tables) (b : Base) (v : LinkValues) (keys : List Json) : Prop :=
  match currentSelect b v with
  | none => keys = ((Json.find v.link.keys.baseColumn b.row).filter (!lacksValue ·)).toList
  | some statement => ∃ rows, E.Answers T statement rows ∧ keys = currentOf rows

theorem plain_ne_empty_of_lacksValue {k : Json} (h : lacksValue k = false) : k.plain ≠ "" := by
  refine Json.plain_ne_empty ?_
  cases k with
  | null => cases h
  | str s => exact h
  | bool | num | arr | obj => rfl

theorem CurrentIn.plain_ne_empty {E : Engine} {T : Tables} {b : Base} {v : LinkValues}
    {keys : List Json} (h : CurrentIn E T b v keys) : ∀ k ∈ keys, k.plain ≠ "" := by
  intro k hk
  refine plain_ne_empty_of_lacksValue ?_
  rw [CurrentIn] at h
  split at h
  · subst h
    simpa using (Option.mem_filter_iff.1 (Option.mem_toList.1 hk)).2
  · obtain ⟨rows, -, rfl⟩ := h
    simpa using (List.mem_filter.1 (Json.mem_of_mem_distinct hk)).2

/-- Keys that are not blank have the same texts if they have the same texts but for the empty one. -/
theorem mem_texts_iff {keys others : List Json} (hkeys : ∀ k ∈ keys, k.plain ≠ "")
    (hothers : ∀ k ∈ others, k.plain ≠ "")
    (h : ∀ t, t ≠ "" → (t ∈ keys.map Json.plain ↔ t ∈ others.map Json.plain)) (t : String) :
    t ∈ keys.map Json.plain ↔ t ∈ others.map Json.plain := by
  by_cases ht : t = ""
  · subst ht
    exact iff_of_false (by simpa using hkeys) (by simpa using hothers)
  · exact h t ht

/-- The columns of a row that its own end of a link involves. -/
def involved (e : Entity) (l : Link) : List String :=
  match l.keys with
  | .own foreign target => if isSelfPair e l then [foreign, target] else [foreign]
  | .linked _ source | .junction _ _ _ source _ => [source]

/-- Whether a record is stored, and was found as it is stored. -/
structure Found (T : Tables) (b : Base) (l : Link) : Prop where
  stored : ∃ r ∈ T b.entity.table, r b.entity.keyColumn = some b.key.plain
  shows : ∀ r ∈ T b.entity.table, r b.entity.keyColumn = some b.key.plain →
    ∀ c ∈ involved b.entity l, Engine.Shows (r c) (Json.find c b.row)

section Current

variable {E : Engine} {T : Tables} {b : Base} {v : LinkValues} {keys : List Json}

/-- The keys that the rows of a filter show answer a select of them. -/
theorem answers_keys {column table : String} {filter : Predicate} {rows : List Stored}
    (keys : List Json) (hrows : (T table).filter (fun r => E.holds r filter) = rows)
    (hshows : List.Forall₂ (fun r k => Engine.Shows (r column) (some k)) rows keys) :
    E.Answers T (.plain false [.named (.bare column) keyAlias] ⟨table, none, []⟩ (some filter))
      (keys.map fun k => [(keyAlias, k)]) := by
  refine ⟨rows, hrows ▸ .refl _, List.forall₂_map_right_iff.2 (hshows.imp ?_)⟩
  intro r k hshows c called h
  cases List.mem_singleton.1 h
  exact hshows

/-- The keys that a select of a place gives. -/
theorem pairs_iff_of_answers {p : Place} {base : Json} {rows : List Row} (hbase : IsKey base)
    (h : E.Answers T (.plain false [.named (.bare p.key) keyAlias] ⟨p.table, none, []⟩
      (some (columnIs p.base base))) rows) {t : String} (ht : t ≠ "") :
    p.Pairs T base.plain t ↔ t ∈ (currentOf rows).map Json.plain := by
  obtain ⟨stored, hperm, hrows⟩ := h
  have hmem (x : Stored) : x ∈ stored ↔ x ∈ T p.table ∧ x p.base = some base.plain := by
    rw [hperm.mem_iff, List.mem_filter, Select.plain, Option.all_some, hbase.holds_columnIs]
  rw [mem_map_currentOf, Place.Pairs]
  constructor
  · rintro ⟨x, hx, hpair, hkey⟩
    obtain ⟨row, hrow, hshows⟩ := exists_of_forall₂ hrows ((hmem x).2 ⟨hx, hpair⟩)
    exact ⟨row, hrow, (eq_some_iff_of_shows (hshows _ _ List.mem_cons_self) ht).1 hkey⟩
  · rintro ⟨row, hrow, hj⟩
    obtain ⟨x, hx, hshows⟩ := exists_of_forall₂ hrows.flip hrow
    obtain ⟨hx, hpair⟩ := (hmem x).1 hx
    exact ⟨x, hx, hpair, (eq_some_iff_of_shows (hshows _ _ List.mem_cons_self) ht).2 hj⟩

/-- The keys that a row is linked to now are those that the place of the link pairs it with. -/
theorem CurrentIn.pairs_iff (h : CurrentIn E T b v keys) (hfound : Found T b v.link)
    (hbase : IsKey (b.linking v.link)) {t : String} (ht : t ≠ "") :
    (placeOf b.entity v).Pairs T (b.linking v.link).plain t ↔ t ∈ keys.map Json.plain := by
  rw [CurrentIn, currentSelect] at h
  cases hkeys : v.link.keys with
  | own foreign target =>
    simp only [hkeys] at h
    simp only [placeOf, Base.linking, hkeys, Place.Pairs]
    have hcell (r : Stored) (hr : r ∈ T b.entity.table)
        (hrow : r b.entity.keyColumn = some b.key.plain) :
        r foreign = some t ↔ t ∈ keys.map Json.plain := by
      have hshows := hfound.shows r hr hrow foreign (by
        simp only [involved, hkeys]
        split <;> simp)
      rw [eq_some_iff_of_shows hshows ht, h]
      simp [LinkKeys.baseColumn, and_assoc]
    constructor
    · rintro ⟨r, hr, hrow, hkey⟩
      exact (hcell r hr hrow).1 hkey
    · intro hmem
      obtain ⟨r, hr, hrow⟩ := hfound.stored
      exact ⟨r, hr, hrow, (hcell r hr hrow).2 hmem⟩
  | linked foreign source =>
    simp only [hkeys] at h
    simp only [Base.linking, hkeys] at hbase
    simp only [placeOf, Base.linking, hkeys]
    obtain ⟨rows, hrows, rfl⟩ := h
    exact pairs_iff_of_answers (p := ⟨v.link.targetTable, foreign, v.keyColumn⟩) hbase hrows ht
  | junction table sourceColumn targetColumn source target =>
    simp only [hkeys] at h
    simp only [Base.linking, hkeys] at hbase
    simp only [placeOf, Base.linking, hkeys]
    obtain ⟨rows, hrows, rfl⟩ := h
    exact pairs_iff_of_answers (p := ⟨table, sourceColumn, targetColumn⟩) hbase hrows ht

end Current

/-! ## One link of an update -/

/-- Whether a write leaves alone what holds a link, what the rows that hold it are found by, and what
the rows of the object are known by. -/
structure LeavesAlone (e : Entity) (v : LinkValues) (w : Sql.Write) : Prop where
  place : w.Spares (placeOf e v).table ((placeOf e v).base :: (placeOf e v).key :: foundBy e v)
  rows : w.Spares e.table [e.keyColumn, linkingColumn e v.link]

/-- What is known of a link of a record before it is relinked: it is held in columns of its own, the
record was found as it is stored, the wanted records are there, and all values that links are written
with are keys. -/
structure Relinkable (T : Tables) (b : Base) (v : LinkValues) (stored : List Json) : Prop where
  apart : Apart b.entity v
  found : Found T b v.link
  targets : ∀ k ∈ v.keys, ∃ x ∈ T v.link.targetTable, x v.keyColumn = some k.plain
  wanted : ∀ k ∈ v.keys, IsKey k
  held : ∀ k ∈ stored, IsKey k
  linking : IsKey (b.linking v.link)
  partner : ∀ foreign target, v.link.keys = .own foreign target →
    isSelfPair b.entity v.link = true → IsKey (b.valueOf target)

/-- What is true of a link of a record after it was relinked: the record is linked to the wanted
records and to no other, which is what reading its keys again gives, and no record that is known by
another value is linked to one more, but for the partner in a one to one link within one object. -/
structure Relinked (E : Engine) (T T' : Tables) (b : Base) (v : LinkValues) : Prop where
  own : ∀ r ∈ T' b.entity.table, r b.entity.keyColumn = some b.key.plain → ∀ t, t ≠ "" →
    (IsLinked T' b.entity v r t ↔ t ∈ v.keys.map Json.plain)
  read : ∀ (b' : Base) (keys : List Json), b'.entity = b.entity → b'.key.plain = b.key.plain →
    IsKey (b'.linking v.link) → Found T' b' v.link → CurrentIn E T' b' v keys →
    ∀ t, t ∈ keys.map Json.plain ↔ t ∈ v.keys.map Json.plain
  other : ∀ r ∈ T' b.entity.table, ∀ s, r b.entity.keyColumn = some s → ∀ a,
    storedValue b.entity (linkingColumn b.entity v.link) r = some a →
    a ≠ (b.linking v.link).plain → ∀ t, IsLinked T' b.entity v r t →
    (∃ r₀ ∈ T b.entity.table, r₀ b.entity.keyColumn = r b.entity.keyColumn ∧
      IsLinked T b.entity v r₀ t) ∨ ∃ k ∈ v.keys, IsPartner T b v k.plain a t

theorem storedValue_keyColumn (e : Entity) (r : Stored) :
    storedValue e e.keyColumn r = r e.keyColumn := by
  rw [storedValue]
  split
  · rfl
  · rfl
  · rename_i h
    exact h.symm

section Link

variable {E : Engine} {T T' : Tables} {b : Base} {v : LinkValues} {stored : List Json}

/-- A record that was found as it is stored is known by the value that links are written with. -/
theorem Found.storedValue_eq (h : Found T b v.link) {r : Stored} (hr : r ∈ T b.entity.table)
    (hrow : r b.entity.keyColumn = some b.key.plain) :
    storedValue b.entity (linkingColumn b.entity v.link) r = some (b.linking v.link).plain := by
  have hshows := h.shows r hr hrow
  cases hkeys : v.link.keys with
  | own foreign target =>
    simp only [linkingColumn, Base.linking, hkeys]
    rw [storedValue_keyColumn, hrow]
  | linked foreign source =>
    simp only [involved, hkeys] at hshows
    simp only [linkingColumn, Base.linking, hkeys]
    exact storedValue_of_shows hrow (hshows source List.mem_cons_self)
  | junction table sourceColumn targetColumn source target =>
    simp only [involved, hkeys] at hshows
    simp only [linkingColumn, Base.linking, hkeys]
    exact storedValue_of_shows hrow (hshows source List.mem_cons_self)

theorem Relinkable.ready (h : Relinkable T b v stored) : Ready T b v := by
  cases hkeys : v.link.keys with
  | own foreign target =>
    simp only [Ready, hkeys]
    refine ⟨h.found.stored, fun hpair r hr hrow => storedValue_of_shows hrow ?_⟩
    have hshows := h.found.shows r hr hrow target
    simp only [involved, hkeys, hpair, if_true] at hshows
    exact hshows (by simp)
  | linked foreign source =>
    simp only [Ready, hkeys]
    exact h.targets
  | junction =>
    simp only [Ready, hkeys]

/-- A place has the same pairs in databases that agree on its columns. -/
theorem Place.pairs_congr {p : Place} {columns : List String}
    (h : T'.Agree T p.table (p.base :: p.key :: columns)) {a t : String} :
    p.Pairs T' a t ↔ p.Pairs T a t := by
  have hof {T T' : Tables} (h : T'.Agree T p.table (p.base :: p.key :: columns))
      (hpair : p.Pairs T' a t) : p.Pairs T a t := by
    obtain ⟨x, hx, hbase, hkey⟩ := hpair
    obtain ⟨y, hy, heq⟩ := h.mem hx
    exact ⟨y, hy, (heq _ (by simp)).trans hbase, (heq _ (by simp)).trans hkey⟩
  exact ⟨hof h, hof h.symm⟩

theorem spares_of_table_ne {w : Sql.Write} {table : String} {columns : List String}
    (h : w.table ≠ table) : w.Spares table columns := by
  cases w with
  | update t row tests => exact fun ht => absurd ht h
  | insert | insertPair | delete => exact h

/-- Rows that junctions are given have no key of their own. -/
theorem mem_of_run_junction {table c d key : String} {ws : List Sql.Write}
    (hc : c ≠ key) (hd : d ≠ key)
    (hws : ∀ w ∈ ws, (∃ tests, w = Sql.Write.delete table tests) ∨
      ∃ j k, w = .insertPair table (setTo c j) (setTo d k))
    (hrun : E.run T ws = some T') {r : Stored} (hr : r ∈ T' table) {s : String}
    (hkey : r key = some s) : r ∈ T table := by
  induction ws generalizing T with
  | nil =>
    cases hrun
    exact hr
  | cons w rest ih =>
    rw [List.forall_mem_cons] at hws
    obtain ⟨T₁, hexec, hrun⟩ := Option.bind_eq_some_iff.1 hrun
    have hr₁ := ih hws.2 hrun
    rcases hws.1 with ⟨tests, rfl⟩ | ⟨j, k, rfl⟩
    · cases hexec
      rw [Function.update_self] at hr₁
      exact List.mem_of_mem_filter hr₁
    · rw [Engine.exec] at hexec
      split at hexec
      · cases hexec
      split at hexec <;> cases hexec
      · exact hr₁
      · rw [Function.update_self, List.mem_append, List.mem_singleton] at hr₁
        refine hr₁.resolve_right ?_
        rintro rfl
        rw [Engine.assign_of_not_mem] at hkey
        · cases hkey
        · simpa [setTo] using ⟨hc, hd⟩

/-- Relinking makes no records and changes nothing that they are known by. -/
theorem exists_row_of_relink (hapart : Apart b.entity v)
    (hrun : E.run T (relink b v stored) = some T') {r : Stored} (hr : r ∈ T' b.entity.table)
    {s : String} (hkey : r b.entity.keyColumn = some s) :
    ∃ r₀ ∈ T b.entity.table, r₀ b.entity.keyColumn = r b.entity.keyColumn ∧
      storedValue b.entity (linkingColumn b.entity v.link) r₀ =
        storedValue b.entity (linkingColumn b.entity v.link) r := by
  have htouches := touches_relink b v stored
  have hof (hspares : ∀ w ∈ relink b v stored,
      w.Spares b.entity.table [b.entity.keyColumn, linkingColumn b.entity v.link]) :
      ∃ r₀ ∈ T b.entity.table, r₀ b.entity.keyColumn = r b.entity.keyColumn ∧
        storedValue b.entity (linkingColumn b.entity v.link) r₀ =
          storedValue b.entity (linkingColumn b.entity v.link) r := by
    obtain ⟨r₀, hr₀, heq⟩ := (Engine.run_agree hspares hrun).mem hr
    have hrow := heq b.entity.keyColumn (by simp)
    exact ⟨r₀, hr₀, hrow, storedValue_congr hrow (heq _ (by simp))⟩
  cases hkeys : v.link.keys with
  | own foreign target =>
    refine hof fun w hw => ?_
    have hw := htouches w hw
    simp only [Touches, hkeys] at hw
    simp only [Apart, hkeys] at hapart
    obtain ⟨o, tests, rfl⟩ := hw
    simp only [linkingColumn, hkeys, Sql.Write.Spares, List.forall_mem_singleton]
    exact fun _ => by simpa using hapart.1
  | linked foreign source =>
    refine hof fun w hw => ?_
    have hw := htouches w hw
    simp only [Touches, hkeys] at hw
    simp only [Apart, hkeys] at hapart
    obtain ⟨o, tests, rfl⟩ := hw
    simp only [linkingColumn, hkeys, Sql.Write.Spares, List.forall_mem_singleton]
    exact fun htable => by simpa using hapart.2 htable
  | junction table sourceColumn targetColumn source target =>
    simp only [Apart, hkeys] at hapart
    simp only [Touches, hkeys] at htouches
    by_cases htable : table = b.entity.table
    · -- The rows of the junction stand among the records but do not have their key.
      subst htable
      obtain ⟨hc, hd⟩ := hapart rfl
      exact ⟨r, mem_of_run_junction hc hd htouches hrun hr hkey, rfl, rfl⟩
    · refine hof fun w hw => spares_of_table_ne ?_
      rcases htouches w hw with ⟨tests, rfl⟩ | ⟨j, k, rfl⟩ <;> exact htable

/-! ### Among the other writes of an update -/

section Among

variable {before after : List Sql.Write}

/-- The other writes leave alone what relinking goes by and what it comes to. -/
theorem exists_relink_of_run (hothers : ∀ w ∈ before ++ after, LeavesAlone b.entity v w)
    (hrun : E.run T (before ++ relink b v stored ++ after) = some T') :
    let place := placeOf b.entity v
    let columns := place.base :: place.key :: foundBy b.entity v
    let known := [b.entity.keyColumn, linkingColumn b.entity v.link]
    ∃ T₁ T₂, E.run T₁ (relink b v stored) = some T₂ ∧
      (T₁.Agree T place.table columns ∧ T₁.Agree T b.entity.table known) ∧
      T'.Agree T₂ place.table columns ∧ T'.Agree T₂ b.entity.table known := by
  rw [Engine.run_append, Engine.run_append] at hrun
  obtain ⟨T₂, hrun, hafter⟩ := Option.bind_eq_some_iff.1 hrun
  obtain ⟨T₁, hbefore, hrelink⟩ := Option.bind_eq_some_iff.1 hrun
  rw [List.forall_mem_append] at hothers
  exact ⟨T₁, T₂, hrelink,
    ⟨Engine.run_agree (fun w hw => (hothers.1 w hw).place) hbefore,
      Engine.run_agree (fun w hw => (hothers.1 w hw).rows) hbefore⟩,
    Engine.run_agree (fun w hw => (hothers.2 w hw).place) hafter,
    Engine.run_agree (fun w hw => (hothers.2 w hw).rows) hafter⟩

/-- Every record that is there when the link was relinked was there before, known by the same value. -/
theorem exists_row_of_run (hapart : Apart b.entity v)
    (hothers : ∀ w ∈ before ++ after, LeavesAlone b.entity v w)
    (hrun : E.run T (before ++ relink b v stored ++ after) = some T') {r : Stored}
    (hr : r ∈ T' b.entity.table) {s : String} (hkey : r b.entity.keyColumn = some s) :
    ∃ r₀ ∈ T b.entity.table, r₀ b.entity.keyColumn = r b.entity.keyColumn ∧
      storedValue b.entity (linkingColumn b.entity v.link) r₀ =
        storedValue b.entity (linkingColumn b.entity v.link) r := by
  obtain ⟨T₁, T₂, hrelink, ⟨-, hrows₁⟩, -, hrows₂⟩ := exists_relink_of_run hothers hrun
  obtain ⟨r₂, hr₂, heq₂⟩ := hrows₂.mem hr
  have hkey₂ := heq₂ b.entity.keyColumn (by simp)
  obtain ⟨r₁, hr₁, hkey₁, hvalue₁⟩ := exists_row_of_relink hapart hrelink hr₂ (hkey₂.trans hkey)
  obtain ⟨r₀, hr₀, heq₀⟩ := hrows₁.mem hr₁
  have hkey₀ := heq₀ b.entity.keyColumn (by simp)
  refine ⟨r₀, hr₀, (hkey₀.trans hkey₁).trans hkey₂, ?_⟩
  rw [storedValue_congr hkey₀ (heq₀ _ (by simp)), hvalue₁,
    storedValue_congr hkey₂ (heq₂ _ (by simp))]

theorem Found.storedValue_of_run (hfound : Found T b v.link) (hapart : Apart b.entity v)
    (hothers : ∀ w ∈ before ++ after, LeavesAlone b.entity v w)
    (hrun : E.run T (before ++ relink b v stored ++ after) = some T') {r : Stored}
    (hr : r ∈ T' b.entity.table) (hkey : r b.entity.keyColumn = some b.key.plain) :
    storedValue b.entity (linkingColumn b.entity v.link) r = some (b.linking v.link).plain := by
  obtain ⟨r₀, hr₀, hkey₀, hvalue₀⟩ := exists_row_of_run hapart hothers hrun hr hkey
  rw [← hvalue₀, hfound.storedValue_eq hr₀ (hkey₀.trans hkey)]

/-- The keys that are read of the same record again are those that its place pairs it with by the value
that it was known by. -/
theorem CurrentIn.pairs_iff_again {b' : Base} {keys : List Json} (h : CurrentIn E T' b' v keys)
    (hentity : b'.entity = b.entity) (hkey : b'.key.plain = b.key.plain)
    (hlinking : IsKey (b'.linking v.link)) (hfound : Found T' b' v.link)
    (hvalue : ∀ r ∈ T' b.entity.table, r b.entity.keyColumn = some b.key.plain →
      storedValue b.entity (linkingColumn b.entity v.link) r = some (b.linking v.link).plain)
    {t : String} (ht : t ≠ "") :
    (placeOf b.entity v).Pairs T' (b.linking v.link).plain t ↔ t ∈ keys.map Json.plain := by
  obtain ⟨entity, row, key⟩ := b'
  cases hentity
  obtain ⟨r, hr, hrow⟩ := hfound.stored
  have hsame := (hfound.storedValue_eq hr hrow).symm.trans
    (hvalue r hr (hrow.trans (congrArg some hkey)))
  rw [← h.pairs_iff hfound hlinking ht, Option.some.inj hsame]

/-- What relinking one link of a record among other writes of an update comes to. -/
theorem relinked (h : Relinkable T b v stored) (hcurrent : CurrentIn E T b v stored)
    (halone : Alone v → v.keys.length ≤ 1)
    (hothers : ∀ w ∈ before ++ after, LeavesAlone b.entity v w)
    (hrun : E.run T (before ++ relink b v stored ++ after) = some T') : Relinked E T T' b v := by
  have hrow {r : Stored} (hr : r ∈ T' b.entity.table) {s : String}
      (hkey : r b.entity.keyColumn = some s) := exists_row_of_run h.apart hothers hrun hr hkey
  have hvalue {r : Stored} (hr : r ∈ T' b.entity.table)
      (hkey : r b.entity.keyColumn = some b.key.plain) :=
    h.found.storedValue_of_run h.apart hothers hrun hr hkey
  obtain ⟨T₁, T₂, hrelink, ⟨hplace₁, -⟩, hplace₂, -⟩ := exists_relink_of_run hothers hrun
  have hfound₁ : T₁.Agree T (placeOf b.entity v).table (foundBy b.entity v) :=
    hplace₁.mono fun c hc => List.mem_cons_of_mem _ (List.mem_cons_of_mem _ hc)
  obtain ⟨hown, hother⟩ := relink_pairs h.apart h.linking h.partner (h.ready.of_agree hfound₁) h.held
    h.wanted halone
    (fun t ht => (Place.pairs_congr hplace₁).trans (hcurrent.pairs_iff h.found h.linking ht)) hrelink
  have hpairs (t : String) (ht : t ≠ "") :
      (placeOf b.entity v).Pairs T' (b.linking v.link).plain t ↔ t ∈ v.keys.map Json.plain :=
    (Place.pairs_congr hplace₂).trans (hown t ht)
  constructor
  · intro r hr hkey t ht
    rw [IsLinked, hvalue hr hkey]
    simpa using hpairs t ht
  · intro b' keys hentity hkey hlinking hfound hcurrent
    refine mem_texts_iff hcurrent.plain_ne_empty (fun k hk => (h.wanted k hk).plain_ne_empty)
      fun t ht => ?_
    rw [← hcurrent.pairs_iff_again hentity hkey hlinking hfound (fun _ => hvalue) ht]
    exact hpairs t ht
  · intro r hr s hkey a ha hne t hlinked
    obtain ⟨r₀, hr₀, hkey₀, hvalue₀⟩ := hrow hr hkey
    obtain ⟨a', ha', hpair⟩ := hlinked
    cases ha.symm.trans ha'
    rcases hother a hne t ((Place.pairs_congr hplace₂).1 hpair) with hpair | ⟨k, hk, hpartner⟩
    · exact .inl ⟨r₀, hr₀, hkey₀, a, hvalue₀.trans ha, (Place.pairs_congr hplace₁).1 hpair⟩
    · exact .inr ⟨k, hk, hpartner.of_agree hfound₁⟩

end Among

end Link

end CatalogQuery.Write
