import CatalogQuery.Proofs.Decode.Structures
import CatalogQuery.Proofs.Link.Mirror
import CatalogQuery.Proofs.Populate.Unscoped
import CatalogQuery.Proofs.Save.BaseValues

/-!
# Saving back what was read

A find shows the linked records of a row, and an update takes keys out of records. Main statement: an
update that is given what a find has shown of a link finds nothing to change in the link, as long as
the linked records have kept their keys and are those that the link holds.
-/

namespace CatalogQuery

open Sql Write

/-! ## Links without other keys -/

namespace Link

/-- Whether a link is that of a field, with both ends known by their primary keys. -/
structure IsOf (l : Link) (settings : Settings) (catalog : Catalog) (e : Entity) (f : Field)
    (target : Entity) : Prop where
  object : catalog.entity e.id = .ok e
  mem : f ∈ e.fields
  field : ∃ c, f.connection? = some c ∧ c.index = none ∧ c.index2 = none ∧
    (ofField settings catalog e f c).1 = some l
  get : (LinkMap.resolve settings catalog e).1.get f.id = some l
  target : catalog.entity l.target = .ok target

variable {l : Link} {settings : Settings} {catalog : Catalog} {e target : Entity} {f : Field}
  {T : Tables}

/-- The three ways in which such a link is held. -/
theorem IsOf.keys (h : l.IsOf settings catalog e f target) :
    (∃ foreign, l.keys = .own foreign target.keyColumn) ∨
    (∃ foreign, l.keys = .linked foreign e.keyColumn) ∨
    ∃ table sourceColumn targetColumn,
      l.keys = .junction table sourceColumn targetColumn e.keyColumn target.keyColumn := by
  obtain ⟨c, -, hindex, hindex2, hlink⟩ := h.field
  obtain ⟨found, hfound, -, -, -, hkeys⟩ := exists_of_ofField hlink
  cases (entity_of_ofField hlink h.target).symm.trans hfound
  have hnone : overrides e target c = ⟨none, none, []⟩ := by rw [overrides, hindex, hindex2]; rfl
  simp only [keysOf, hnone, Option.getD_none] at hkeys
  split at hkeys
  · exact .inl ⟨_, (Option.some.inj hkeys).symm⟩
  · split at hkeys
    · exact .inl ⟨_, (Option.some.inj hkeys).symm⟩
    · obtain ⟨r, -, hr⟩ := Option.map_eq_some_iff.1 hkeys
      exact .inr (.inl ⟨_, hr.symm⟩)
  · obtain ⟨r, -, hr⟩ := Option.map_eq_some_iff.1 hkeys
    exact .inr (.inl ⟨_, hr.symm⟩)
  · exact .inr (.inr ⟨_, _, _, (Option.some.inj hkeys).symm⟩)

theorem IsOf.linkedColumn (h : l.IsOf settings catalog e f target) :
    l.keys.linkedColumn target = target.keyColumn := by
  rcases h.keys with ⟨foreign, hkeys⟩ | ⟨foreign, hkeys⟩ | ⟨table, c, d, hkeys⟩ <;> rw [hkeys] <;> rfl

/-- The texts by which what holds a link leads on from a row with a key, where the linked rows do not
hold it themselves. -/
def heldFor (l : Link) (T : Tables) (key : String) : List (Option String) :=
  match l.keys with
  | .own _ _ => [some key]
  | .linked _ _ => []
  | .junction table sourceColumn targetColumn _ _ =>
    ((T table).filter fun j => same (j sourceColumn) (some key)).map (· targetColumn)

/-- Whether a row that a link leads to from a row with a key has a text in a column. -/
def Reaches (l : Link) (T : Tables) (column key text : String) : Prop :=
  ∃ r ∈ l.rows T (fun _ => some key), r column = some text

/-- Whether what a find shows of a link, from a row with a key, says all that the link holds: the linked
records exist and have keys, at most one is linked where one is shown, and the keys are not left out
or changed when the records are shown. -/
structure Restorable (l : Link) (T : Tables) (target : Entity) (key : String) : Prop where
  there : ∀ text, some text ∈ l.heldFor T key → text ≠ "" →
    ∃ r ∈ T l.targetTable, r target.keyColumn = some text
  keyed : ∀ r ∈ l.rows T (fun _ => some key), ∃ text, r target.keyColumn = some text ∧ text ≠ ""
  single : l.many = false → ∀ r ∈ l.rows T (fun _ => some key), ∀ r' ∈ l.rows T (fun _ => some key),
    r' target.keyColumn = r target.keyColumn
  shown : l.rows T (fun _ => some key) ≠ [] →
    target.key = .uuid ∧ target.keyColumn ∉ Linked.userColumns target

end Link

theorem keyColumn_ne_ownerColumn (e : Entity) : e.keyColumn ≠ Linked.ownerColumn := by
  rw [Entity.keyColumn]
  cases e.key <;> decide

/-- A record that shows a linked row has its key. -/
theorem Link.Restorable.exists_key {l : Link} {T : Tables} {target : Entity} {key : String}
    (h : l.Restorable T target key) {r : Stored} (hr : r ∈ l.rows T fun _ => some key)
    {record : Row} (hshows : Linked.ShowsRow r record) :
    ∃ k, Json.find target.keyColumn record = some k ∧ r target.keyColumn = some k.plain := by
  obtain ⟨text, htext, hne⟩ := h.keyed r hr
  obtain ⟨k, hfind, rfl⟩ := ((hshows _ (keyColumn_ne_ownerColumn target)).plain_iff hne).2 htext
  exact ⟨k, hfind, htext⟩

/-! ## The keys that a shown value names -/

namespace Linked

variable {l : Link} {T : Tables} {target : Entity} {settings : Settings} {minimal : Bool}

/-- A key that is no number of the database is shown, also where a record is cut down. -/
theorem find_shape (hkey : target.key = .uuid) (record : Row) :
    Json.find target.keyColumn (shape settings target l minimal (Json.erase ownerColumn record)) =
      Json.find target.keyColumn record := by
  have herase : Json.find target.keyColumn (Json.erase ownerColumn record) =
      Json.find target.keyColumn record := by
    rw [Json.find_erase, if_neg (keyColumn_ne_ownerColumn target)]
  have hkept : target.keyColumn ∈ minimalColumns settings target l := by simp [minimalColumns]
  rw [shape, if_neg (by simp [hkey]), ← herase]
  cases minimal with
  | false => rfl
  | true =>
    refine (Json.find_filter _ (fun c => (minimalColumns settings target l).contains c) _).trans ?_
    rw [if_pos (by simpa using hkept)]

theorem linkedKeys_obj {column : String} {record : Row} {k : Json}
    (h : Json.find column record = some k) : Compile.linkedKeys (.obj record) column = [k] := by
  simp [Compile.linkedKeys, Compile.valuesOf, h]

/-- The fetched records that are shown for a row. -/
def shownFor (l : Link) (fetched : List Row) (row : Row) : List Row :=
  if l.many then fetched.filter (carries l row) else (fetched.filter (carries l row)).take 1

theorem linkedKeys_joined (l : Link) (fetched : List Row) (dress : Row → Row) (row : Row)
    (column : String) : Compile.linkedKeys (joined l fetched dress row) column =
      (shownFor l fetched row).flatMap fun record =>
        Compile.linkedKeys (.obj (dress record)) column := by
  have hobjects (records : List Row) : Compile.linkedKeys (.arr ((records.map dress).map .obj)) column =
      records.flatMap fun record => Compile.linkedKeys (.obj (dress record)) column := by
    induction records with
    | nil => rfl
    | cons record rest ih =>
      rw [List.flatMap_cons, ← ih]
      simp only [Compile.linkedKeys, Compile.valuesOf, List.map_cons, List.filterMap_cons,
        List.filterMap_nil]
      split <;> simp_all
  rw [joined, shownFor]
  split
  · exact hobjects _
  · cases fetched.filter (carries l row) with
    | nil => rfl
    | cons record rest => exact (List.append_nil _).symm

section

variable {fetched : List Row} {row : Row} {key : Json}

theorem mem_of_mem_shownFor {record : Row} (h : record ∈ shownFor l fetched row) :
    record ∈ fetched ∧ carries l row record = true := by
  rw [shownFor] at h
  split at h
  · exact List.mem_filter.1 h
  · exact List.mem_filter.1 (List.mem_of_mem_take h)

/-- A record that is handed to a row shows the key of a row that the link leads to. -/
theorem Serves.exists_key (h : Serves T l fetched row key)
    (hrestorable : l.Restorable T target key.plain) {record : Row} (hrecord : record ∈ fetched)
    (hcarries : carries l row record = true) :
    ∃ r ∈ l.rows T (fun _ => some key.plain), ∃ k, Json.find target.keyColumn record = some k ∧
      r target.keyColumn = some k.plain := by
  obtain ⟨r, hr, hshows⟩ := h.sound record hrecord hcarries
  exact ⟨r, hr, hrestorable.exists_key hr hshows⟩

/-- Every linked row is shown, if only by another one with its key where one is shown. -/
theorem Serves.exists_shownFor (h : Serves T l fetched row key)
    (hrestorable : l.Restorable T target key.plain) {r : Stored}
    (hr : r ∈ l.rows T fun _ => some key.plain) :
    ∃ record ∈ shownFor l fetched row, ∃ k, Json.find target.keyColumn record = some k ∧
      r target.keyColumn = some k.plain := by
  obtain ⟨record, hrecord, hcarries, hshows⟩ := h.complete r hr
  have hcarried := List.mem_filter.2 ⟨hrecord, hcarries⟩
  cases hmany : l.many with
  | true =>
    exact ⟨record, by simpa [shownFor, hmany] using hcarried, hrestorable.exists_key hr hshows⟩
  | false =>
    cases hown : fetched.filter (carries l row) with
    | nil => exact absurd (hown ▸ hcarried) List.not_mem_nil
    | cons first rest =>
      have hfirst : first ∈ shownFor l fetched row := by simp [shownFor, hmany, hown]
      obtain ⟨hfetched, hcarries⟩ := mem_of_mem_shownFor hfirst
      obtain ⟨r', hr', k, hfind, hcell⟩ := h.exists_key hrestorable hfetched hcarries
      exact ⟨first, hfirst, k, hfind, (hrestorable.single hmany r' hr' r hr).trans hcell⟩

/-- The keys that are named by what is attached to a row are those of the rows that the link leads
to. -/
theorem Serves.mem_linkedKeys_iff (h : Serves T l fetched row key)
    (hrestorable : l.Restorable T target key.plain) {name : Row → Row}
    (hname : ∀ c, c ∉ userColumns target → ∀ record, Json.find c (name record) = Json.find c record)
    {text : String} :
    text ∈ (Compile.linkedKeys (joined l fetched (fun record =>
        name (shape settings target l minimal (Json.erase ownerColumn record))) row)
      target.keyColumn).map Json.plain ↔ l.Reaches T target.keyColumn key.plain text := by
  have hdressed {record : Row} {k : Json} (hrows : l.rows T (fun _ => some key.plain) ≠ [])
      (hfind : Json.find target.keyColumn record = some k) :
      Compile.linkedKeys (.obj (name (shape settings target l minimal
        (Json.erase ownerColumn record)))) target.keyColumn = [k] := by
    obtain ⟨huuid, hnot⟩ := hrestorable.shown hrows
    rw [linkedKeys_obj (k := k)]
    rw [hname _ hnot, find_shape huuid, hfind]
  simp only [linkedKeys_joined, List.mem_map, List.mem_flatMap]
  constructor
  · rintro ⟨k', ⟨record, hrecord, hmem⟩, rfl⟩
    obtain ⟨hfetched, hcarries⟩ := mem_of_mem_shownFor hrecord
    obtain ⟨r, hr, k, hfind, hcell⟩ := h.exists_key hrestorable hfetched hcarries
    rw [hdressed (List.ne_nil_of_mem hr) hfind, List.mem_singleton] at hmem
    exact ⟨r, hr, hmem ▸ hcell⟩
  · rintro ⟨r, hr, hcell⟩
    obtain ⟨record, hrecord, k, hfind, hkey⟩ := h.exists_shownFor hrestorable hr
    refine ⟨k, ⟨record, hrecord, ?_⟩, Option.some.inj (hkey.symm.trans hcell)⟩
    rw [hdressed (List.ne_nil_of_mem hr) hfind]
    exact List.mem_singleton_self k

/-- Nothing is named by what is attached to a row without key. -/
theorem linkedKeys_joined_of_not_hasKey (h : ¬ HasKey l row) (dress : Row → Row) (column : String) :
    Compile.linkedKeys (joined l fetched dress row) column = [] := by
  rw [linkedKeys_joined, shownFor, filter_carries_of_not_hasKey h, List.take_nil, ite_self,
    List.flatMap_nil]

theorem carries_congr {row row' : Row}
    (h : Json.find l.keys.baseColumn row' = Json.find l.keys.baseColumn row) :
    carries l row' = carries l row := by
  funext record
  rw [carries, carries, h]

theorem ownerKeys_congr {column : String} {rows rows' : List Row}
    (h : List.Forall₂ (fun row row' => Json.find column row' = Json.find column row) rows rows') :
    ownerKeys rows' column = ownerKeys rows column := by
  have hkeys : rows'.filterMap (Json.find column) = rows.filterMap (Json.find column) := by
    induction h with
    | nil => rfl
    | cons hsame _ ih => rw [List.filterMap_cons, List.filterMap_cons, hsame, ih]
  rw [ownerKeys, ownerKeys, hkeys]

end

end Linked

/-! ## The keys that a record is linked to -/

section Current

variable {l : Link} {settings : Settings} {catalog : Catalog} {e target : Entity} {f : Field}
  {E : Engine} {T : Tables} {b : Base} {stored : List Json} {x : Json}

theorem reaches_iff_of_own {foreign : String} {key text : String}
    (hkeys : l.keys = .own foreign target.keyColumn) (hrestorable : l.Restorable T target key)
    (hkey : key ≠ "") : l.Reaches T target.keyColumn key text ↔ key = text := by
  rw [Link.Reaches, Link.rows, hkeys]
  simp only [List.mem_filter, same_eq_true]
  constructor
  · rintro ⟨r, ⟨-, s, hs, hsame⟩, hcell⟩
    rw [Option.some.inj hsame]
    exact Option.some.inj (hs.symm.trans hcell)
  · rintro rfl
    obtain ⟨r, hr, hcell⟩ := hrestorable.there key (by simp [Link.heldFor, hkeys]) hkey
    exact ⟨r, ⟨hr, key, hcell, rfl⟩, hcell⟩

theorem pairs_iff_of_linked {foreign source column key text : String}
    (hkeys : l.keys = .linked foreign source) :
    (Place.mk l.targetTable foreign column).Pairs T key text ↔ l.Reaches T column key text := by
  rw [Link.Reaches, Link.rows, hkeys, Place.Pairs]
  simp [same_eq_true, and_assoc]

theorem pairs_iff_of_junction {table c d source key text : String}
    (hkeys : l.keys = .junction table c d source target.keyColumn)
    (hrestorable : l.Restorable T target key) (htext : text ≠ "") :
    (Place.mk table c d).Pairs T key text ↔ l.Reaches T target.keyColumn key text := by
  rw [Link.Reaches, Link.rows, hkeys, Place.Pairs]
  simp only [List.mem_flatMap, List.mem_filter, Bool.and_eq_true, same_eq_true]
  constructor
  · rintro ⟨j, hj, hown, hlinked⟩
    have hheld : some text ∈ l.heldFor T key := by
      simp only [Link.heldFor, hkeys, List.mem_map, List.mem_filter, same_eq_true]
      exact ⟨j, ⟨hj, key, hown, rfl⟩, hlinked⟩
    obtain ⟨r, hr, hcell⟩ := hrestorable.there text hheld htext
    exact ⟨r, ⟨j, hj, hr, ⟨text, hcell, hlinked⟩, key, hown, rfl⟩, hcell⟩
  · rintro ⟨r, ⟨j, hj, -, ⟨s, hs, hlinked⟩, s', hown, hkey⟩, hcell⟩
    cases hs.symm.trans hcell
    cases hkey
    exact ⟨j, hj, hown, hlinked⟩

/-- The keys that are read of a record are those of the rows that the link leads to. -/
theorem mem_current_iff (h : l.IsOf settings catalog e f target)
    (hcurrent : CurrentIn E T b (wantedOf l target x) stored) {key : Json} (hkey : IsKey key)
    (hfind : Json.find l.keys.baseColumn b.row = some key)
    (hrestorable : l.Restorable T target key.plain) {text : String} :
    text ∈ stored.map Json.plain ↔ l.Reaches T target.keyColumn key.plain text := by
  have hcolumn : (wantedOf l target x).keyColumn = target.keyColumn := h.linkedColumn
  by_cases htext : text = ""
  · subst htext
    refine iff_of_false (fun hmem => ?_) fun ⟨r, hr, hcell⟩ => ?_
    · obtain ⟨k, hk, hplain⟩ := List.mem_map.1 hmem
      exact hcurrent.plain_ne_empty k hk hplain
    · obtain ⟨text, htext, hne⟩ := hrestorable.keyed r hr
      exact hne (Option.some.inj (htext.symm.trans hcell))
  rw [CurrentIn, currentSelect, show (wantedOf l target x).link = l from rfl, hcolumn] at hcurrent
  rcases h.keys with ⟨foreign, hkeys⟩ | ⟨foreign, hkeys⟩ | ⟨table, c, d, hkeys⟩
  · rw [reaches_iff_of_own hkeys hrestorable hkey.plain_ne_empty]
    simp only [hkeys, LinkKeys.baseColumn] at hcurrent hfind
    rw [hcurrent, hfind, Option.filter_some, if_pos (by simp [hkey.lacksValue])]
    simp [eq_comm]
  · simp only [hkeys, LinkKeys.baseColumn] at hcurrent hfind
    rw [Base.valueOf_of_isKey hkey hfind] at hcurrent
    obtain ⟨rows, hrows, rfl⟩ := hcurrent
    rw [← pairs_iff_of_linked hkeys]
    exact (pairs_iff_of_answers hkey hrows htext).symm
  · simp only [hkeys, LinkKeys.baseColumn] at hcurrent hfind
    rw [Base.valueOf_of_isKey hkey hfind] at hcurrent
    obtain ⟨rows, hrows, rfl⟩ := hcurrent
    rw [← pairs_iff_of_junction hkeys hrestorable htext]
    exact (pairs_iff_of_answers (p := ⟨table, c, d⟩) hkey hrows htext).symm

/-- No key is read of a record that holds a link itself and has nothing in its column. -/
theorem current_eq_nil {v : LinkValues} {foreign column : String}
    (hkeys : v.link.keys = .own foreign column) (hcurrent : CurrentIn E T b v stored)
    (hblank : ∀ k, Json.find foreign b.row = some k → k.isBlank = true) : stored = [] := by
  simp only [CurrentIn, currentSelect, hkeys, LinkKeys.baseColumn] at hcurrent
  rw [hcurrent]
  cases hfind : Json.find foreign b.row with
  | none => rfl
  | some k =>
    have hlacks : lacksValue k = true := by
      have hk := hblank k hfind
      cases k with
      | null => rfl
      | str s => exact hk
      | bool | num | arr | obj => cases hk
    rw [Option.filter_some, if_neg (by simp [hlacks])]
    rfl

end Current

/-! ## A find and an update -/

/-- The statement of an exchange that reads. -/
def Exchange.read? : Exchange → Option Select
  | ⟨.fetch _ statement, _⟩ => some statement
  | _ => none

namespace Session

open Exchange (effects AnsweredWith NoneRefused)

/-- Whether a find in a database shows what a link leads to. -/
structure ShowsLink (s : Session) (catalog : Catalog) (e : Entity) (l : Link) (D : Dialect)
    (T : Tables) (o : FindOptions) (caller : Caller) (t : List Exchange) (rows : List Row) :
    Prop where
  runs : (s.find e.id o caller).Runs t (.ok rows)
  metadata : AnsweredWith catalog (LinkMap.ofCatalog s.settings catalog) t
  asked : o.populate.includes l.field l.column = true
  apart : Linked.Apart ((LinkMap.resolve s.settings catalog e).1.links.filter fun l =>
    o.populate.includes l.field l.column)
  read : Linked.AnsweredFor D T l t
  literal : ∀ row ∈ rows, ∀ k, Json.find l.keys.baseColumn row = some k → k.isBlank = false →
    IsLiteral k

/-- Whether an update gives to a record what a row shows of a link. It finds the record as the row
shows it, and reads what the database holds of the link. -/
structure SavesBack (s : Session) (catalog : Catalog) (e : Entity) (f : Field) (l : Link)
    (D : Dialect) (T : Tables) (key values : Json) (row : Row) (caller : Caller)
    (t : List Exchange) : Prop where
  runs : ∃ r, ((Call.update e.id key values).program s caller).Runs t r
  metadata : AnsweredWith catalog (LinkMap.ofCatalog s.settings catalog) t
  value : ∃ input, inputMembers values = .ok input ∧ supplied input f = Json.find l.relation row
  found : ∀ b, (s.lockedRow e key caller e.id).Within t b →
    Json.find l.keys.baseColumn b.row = Json.find l.keys.baseColumn row ∧
    ∀ v : LinkValues, v.link = l → ∀ statement, currentSelect b v = some statement →
      ∀ channel rows, ⟨.fetch channel statement, .ok rows⟩ ∈ t → D.toEngine.Answers T statement rows

variable {s : Session} {catalog : Catalog} {e target : Entity} {f : Field} {l : Link} {D : Dialect}
  {T : Tables} {o : FindOptions} {caller caller' : Caller} {t t' : List Exchange} {rows : List Row}
  {row : Row} {key values : Json}

/-- A find gives to its rows, under the name of the link, the records that the link leads to. -/
theorem ShowsLink.exists_joined (h : s.ShowsLink catalog e l D T o caller t rows)
    (hlink : l.IsOf s.settings catalog e f target) (hrow : row ∈ rows) :
    ∃ (fetched : List Row) (name : Row → Row),
      (∀ c, c ∉ Linked.userColumns target → ∀ record,
        Json.find c (name record) = Json.find c record) ∧
      Json.find l.relation row = some (Linked.joined l fetched (fun record => name
        (Linked.shape s.settings target l o.minimal (Json.erase Linked.ownerColumn record))) row) ∧
      ∀ k, Json.find l.keys.baseColumn row = some k → k.isBlank = false →
        Linked.Serves T l fetched row k := by
  obtain ⟨g, before, after, rfl, hof, hpopulate⟩ := exists_finding h.runs
  have hcatalog := h.metadata.catalog_eq g.catalog (List.mem_append_left _ hof.catalog)
  have hobject : g.object = e := by
    have hobject := hof.object
    rw [hcatalog, hlink.object] at hobject
    exact (Except.ok.inj hobject).symm
  rw [hobject] at hpopulate
  rcases Linked.joins_of_populate hpopulate with
    ⟨hnone, rfl⟩ | ⟨catalog', links, map, segments, rfl, hmap, hjoined⟩
  · rcases hnone with hnone | hnone
    · exact absurd (hnone ▸ hrow) List.not_mem_nil
    · have hasked := h.asked
      rw [hnone] at hasked
      cases hasked
  obtain rfl : catalog' = catalog := h.metadata.catalog_eq catalog' (by simp)
  rw [h.metadata.links_eq links (by simp), LinkMap.ofCatalog, hlink.object] at hmap
  cases hmap
  have hjoins := hjoined h.apart
  have hwanted : l ∈ (LinkMap.resolve s.settings catalog' e).1.links.filter fun l =>
      o.populate.includes l.field l.column :=
    List.mem_filter.2 ⟨LinkMap.mem_of_get hlink.get, h.asked⟩
  -- No join is called like the column that the link goes by, so the column keeps its value.
  have hcolumn : List.Forall₂ (fun row row' => Json.find l.keys.baseColumn row' =
      Json.find l.keys.baseColumn row) g.rows rows := by
    refine hjoins.others.imp fun row row' hsame => hsame _ fun hmem => ?_
    obtain ⟨k, hk, hname⟩ := List.mem_map.1 hmem
    exact h.apart.ne k hk l hwanted hname.symm
  have hread : Linked.AnsweredFor D T l segments.flatten := fun channel keys rows hmem =>
    h.read channel keys rows (by simp only [List.mem_append, List.mem_cons]; simp [hmem])
  have hliteral : ∀ k ∈ Linked.ownerKeys rows l.keys.baseColumn, IsLiteral k := by
    intro k hk
    obtain ⟨hk, hblank⟩ := List.mem_filter.1 (Json.mem_of_mem_distinct hk)
    obtain ⟨row, hrow, hfind⟩ := List.mem_filterMap.1 hk
    exact h.literal row hrow k hfind (by simpa using hblank)
  obtain ⟨fetched, name, hname, hattached, hserves⟩ := Linked.attached_of_joins hjoins hread hwanted
    (Catalog.entity_eq_ok.1 hlink.target) (Linked.ownerKeys_congr hcolumn ▸ hliteral)
  obtain ⟨row₀, hrow₀, hsame, hshown⟩ :=
    exists_of_forall₂ (forall₂_and hcolumn hattached).flip hrow
  have hcarries := Linked.carries_congr hsame
  refine ⟨fetched, name, hname, ?_, fun k hk hblank => ?_⟩
  · rw [hshown, Linked.joined, Linked.joined, hcarries]
  · obtain ⟨hsound, hcomplete⟩ := hserves row₀ hrow₀ k (hsame ▸ hk) hblank
    exact ⟨hcarries ▸ hsound, hcarries ▸ hcomplete⟩

/-- What a find has shown of a link names the keys that are read of the record. -/
theorem ShowsLink.mem_keys_iff (h : s.ShowsLink catalog e l D T o caller t rows)
    (hlink : l.IsOf s.settings catalog e f target) (hrow : row ∈ rows)
    (hkey : ∃ k, Json.find e.keyColumn row = some k ∧ k.isBlank = false)
    (hrestorable : ∀ k, Json.find l.keys.baseColumn row = some k → k.isBlank = false →
      l.Restorable T target k.plain) {x : Json} (hx : Json.find l.relation row = some x)
    {b : Base} (hsame : Json.find l.keys.baseColumn b.row = Json.find l.keys.baseColumn row)
    {stored : List Json} (hcurrent : CurrentIn D.toEngine T b (wantedOf l target x) stored)
    {text : String} :
    text ∈ (wantedOf l target x).keys.map Json.plain ↔ text ∈ stored.map Json.plain := by
  obtain ⟨fetched, name, hname, hshown, hserves⟩ := h.exists_joined hlink hrow
  cases hshown.symm.trans hx
  rw [wantedOf, hlink.linkedColumn]
  dsimp only
  rw [Json.mem_map_distinct, and_iff_right List.not_mem_nil]
  by_cases hhas : Linked.HasKey l row
  · obtain ⟨k, hk, hblank⟩ := hhas
    have hrest := hrestorable k hk hblank
    have hiskey := IsKey.of_isLiteral (h.literal row hrow k hk hblank) hblank
    rw [(hserves k hk hblank).mem_linkedKeys_iff hrest hname,
      mem_current_iff hlink hcurrent hiskey (hsame.trans hk) hrest]
  · -- Only a record that holds the link itself may have nothing in the column.
    have hblank : ∀ k, Json.find l.keys.baseColumn row = some k → k.isBlank = true :=
      fun k hk => by_contra fun hne => hhas ⟨k, hk, by simpa using hne⟩
    have hnone : stored = [] := by
      rcases hlink.keys with ⟨foreign, hkeys⟩ | ⟨foreign, hkeys⟩ | ⟨table, c, d, hkeys⟩
      · refine current_eq_nil (v := wantedOf l target _) hkeys hcurrent fun k hk => ?_
        rw [hkeys] at hsame hblank
        exact hblank k (hsame.symm.trans hk)
      · exact absurd (by simpa [Linked.HasKey, hkeys, LinkKeys.baseColumn] using hkey) hhas
      · exact absurd (by simpa [Linked.HasKey, hkeys, LinkKeys.baseColumn] using hkey) hhas
    rw [Linked.linkedKeys_joined_of_not_hasKey hhas, hnone]

theorem fieldInput_of_multilingual {links : LinkMap} {input : Json.Members} {c : Connection}
    (hc : f.connection? = some c) (hmultilingual : f.multilingual = true) :
    fieldInput catalog links input false f = .ok .nothing := by
  rw [fieldInput, Field.isVirtual_of_connection hc, hmultilingual]
  rfl

/-- The links of a field whose value names the keys that are read take no part in an update. -/
theorem Update.statements_of_agree {u : Update} (settings : Settings)
    {before after : List (LinkValues × List Json)} {v : LinkValues} {stored : List Json}
    (hsplit : u.pairs = before ++ (v, stored) :: after)
    (hagree : ∀ text, text ∈ v.keys.map Json.plain ↔ text ∈ stored.map Json.plain) :
    (Edit.mk u.base (u.rowWrites settings) (changesOf u.pairs)).statements =
      u.rowWrites settings ++ u.relinks (before ++ after) := by
  rw [Edit.statements, changesOf_statements, hsplit]
  simp only [Update.relinks, List.flatMap_append, List.flatMap_cons, relink_eq_nil_iff.2 hagree,
    List.nil_append]

/-- Saving back what was read changes no link. Where a find has shown of a link, from a row with its
key, all that the link holds, the shown value names the keys that an update reads of the record, and an
update that is given the value for the field of the link writes nothing for that field. -/
theorem saved_back_relinks_nothing (hlink : l.IsOf s.settings catalog e f target)
    (hshown : s.ShowsLink catalog e l D T o caller t rows) (hrow : row ∈ rows)
    (hkey : ∃ k, Json.find e.keyColumn row = some k ∧ k.isBlank = false)
    (hrestorable : ∀ k, Json.find l.keys.baseColumn row = some k → k.isBlank = false →
      l.Restorable T target k.plain)
    (hsaved : s.SavesBack catalog e f l D T key values row caller' t') :
    ∃ x, Json.find l.relation row = some x ∧ (effects e t' = [] ∨ ∃ u : Update,
      s.Planned caller' catalog e t' (.update e.id key values)
        ⟨u.base, u.rowWrites s.settings, changesOf u.pairs⟩ ∧
      (f.multilingual = true ∧ fieldInput u.catalog u.links u.input false f = .ok .nothing ∨
      ∃ before stored after, u.pairs = before ++ (wantedOf l target x, stored) :: after ∧
        (∃ v, (s.currentKeys u.base (wantedOf l target x)).Runs v (.ok stored) ∧ v ⊆ t') ∧
        (∀ text, text ∈ (wantedOf l target x).keys.map Json.plain ↔
          text ∈ stored.map Json.plain) ∧
        effects e t' <+: u.rowWrites s.settings ++ u.relinks (before ++ after) ∧
        (NoneRefused t' → effects e t' = u.rowWrites s.settings ++ u.relinks (before ++ after)))) := by
  obtain ⟨x, hx⟩ : ∃ x, Json.find l.relation row = some x := by
    obtain ⟨fetched, name, -, hx, -⟩ := hshown.exists_joined hlink hrow
    exact ⟨_, hx⟩
  refine ⟨x, hx, ?_⟩
  obtain ⟨r, hruns⟩ := hsaved.runs
  rcases exists_edit hlink.object rfl hsaved.metadata hruns with hnone | ⟨u, hplanned, hstarts, hall⟩
  · exact .inl hnone
  obtain ⟨input', hinput, hsupplied⟩ := hsaved.value
  obtain ⟨c, hc, -⟩ := hlink.field
  cases hplanned with
  | @update _ _ input p b stored members prepared accepted found read =>
    refine .inr ⟨⟨catalog, _, e, input, p, b, stored⟩,
      .update members prepared accepted found read, ?_⟩
    cases hmultilingual : f.multilingual with
    | true => exact .inl ⟨rfl, fieldInput_of_multilingual hc hmultilingual⟩
    | false =>
      cases hinput.symm.trans members
      obtain ⟨target', htarget, -, hmem⟩ := mem_links_of_prepare prepared accepted hlink.mem hc
        hmultilingual (hsupplied.trans hx) hlink.get
      cases hlink.target.symm.trans htarget
      obtain ⟨v, hv, hread⟩ := read
      obtain ⟨keys, before, after, hsplit, w, hw, hsub⟩ := exists_pair hread hmem
      obtain ⟨hsame, hanswers⟩ := hsaved.found b found
      have hcurrent := currentIn_of_runs hw fun statement hselect channel rows hmem =>
        hanswers _ rfl statement hselect channel rows (hv.subset (hsub hmem))
      -- What was shown names the keys that are read, so there is nothing to take away or to give.
      have hagree : ∀ text, text ∈ (wantedOf l target x).keys.map Json.plain ↔
          text ∈ keys.map Json.plain := fun text =>
        hshown.mem_keys_iff hlink hrow hkey hrestorable hx hsame hcurrent
      refine .inr ⟨before, keys, after, hsplit, ⟨w, hw, fun y hy => hv.subset (hsub hy)⟩, hagree, ?_⟩
      have hstatements := Update.statements_of_agree s.settings
        (u := ⟨catalog, (LinkMap.resolve s.settings catalog e).1, e, input', p, b, stored⟩)
        hsplit hagree
      exact ⟨hstatements ▸ hstarts, hstatements ▸ hall⟩

/-- A note is given the two tags that a find has shown of it. -/
theorem saved_back_relinks_nothing_tags :
    let f := Field.new "f" "tags" (.connection (.between "tag" .many .many))
    let note := Entity.new "note" "Note" "NOTE" [f]
    let tag := Entity.new "tag" "Tag" "TAG" []
    let catalog : Catalog := ⟨[note, tag], [], []⟩
    let s : Session := ⟨{}, {}, .tenant⟩
    let system : Caller := { isSystem := true }
    let junction := "JOINMN_NOTE_TAG_tags"
    let l : Link := ⟨"f", "tags", "tags__relation", .manyToMany, "tag", "TAG", true,
      .junction junction "NOTE" "TAG" "uuid" "uuid"⟩
    let T := Tables.ofCells [("NOTE", [[("uuid", "n1")]]),
      ("TAG", [[("uuid", "t1")], [("uuid", "t2")]]),
      (junction, [[("NOTE", "n1"), ("TAG", "t1")], [("NOTE", "n1"), ("TAG", "t2")]])]
    let shown : Json := .arr [.obj [("uuid", .str "t1")], .obj [("uuid", .str "t2")]]
    let row : Row := [("tags__relation", shown), ("uuid", .str "n1")]
    let records : List Row := [[("__parent", .str "n1"), ("uuid", .str "t1")],
      [("__parent", .str "n1"), ("uuid", .str "t2")]]
    let answer := Request.steady catalog (LinkMap.ofCatalog {} catalog) fun read =>
      if read.source.table = junction then [[("__key", .str "t1")], [("__key", .str "t2")]]
      else if read.source.called.isSome then records
      else [[("uuid", .str "n1")]]
    let t := ((s.find "note" { populate := .all, minimal := true } system).transcript answer).1
    let call : Call := .update "note" (.str "n1") (.obj [("tags", shown)])
    let t' := ((call.program s system).transcript answer).1
    l.IsOf {} catalog note f tag ∧
      s.ShowsLink catalog note l Dialect.mute T { populate := .all, minimal := true } system t [row] ∧
      l.Restorable T tag "n1" ∧
      s.SavesBack catalog note f l Dialect.mute T (.str "n1") (.obj [("tags", shown)]) row system t' ∧
      effects note t' = [.update "NOTE" [⟨"updated_at", .now⟩] [columnIs "uuid" (.str "n1")]] ∧
      ∃ (u : Update) (before after : List (LinkValues × List Json)) (stored : List Json),
        u.pairs = before ++ (wantedOf l tag shown, stored) :: after ∧
        (∀ text, text ∈ (wantedOf l tag shown).keys.map Json.plain ↔
          text ∈ stored.map Json.plain) ∧
        effects note t' = u.rowWrites {} ++ u.relinks (before ++ after) := by
  intro f note tag catalog s system junction l T shown row records answer t call t'
  have hlink : l.IsOf {} catalog note f tag := by
    refine ⟨rfl, List.mem_singleton_self f, ⟨.between "tag" .many .many, rfl, rfl, rfl, ?_⟩, ?_, rfl⟩ <;>
    · dsimp only [f, note, tag, catalog, l, junction]
      rfl
  have hfound : ((s.find "note" { populate := .all, minimal := true } system).transcript answer).2 =
      .ok [row] := by
    dsimp only [f, note, tag, catalog, s, system, answer, row, shown, junction, records]
    rfl
  have hupdated : ((call.program s system).transcript answer).2 = .ok () := by
    dsimp only [f, note, tag, catalog, s, system, answer, call, shown, junction, records]
    rfl
  have htranscript : (s.find "note" { populate := .all, minimal := true } system).transcript answer =
      (t, .ok [row]) := Prod.ext rfl hfound
  have htranscript' : (call.program s system).transcript answer = (t', .ok ()) :=
    Prod.ext rfl hupdated
  obtain ⟨hruns, hanswers⟩ := Program.Runs.iff_transcript.2 htranscript
  obtain ⟨hruns', hanswers'⟩ := Program.Runs.iff_transcript.2 htranscript'
  have heffects : effects note t' =
      [.update "NOTE" [⟨"updated_at", .now⟩] [columnIs "uuid" (.str "n1")]] := by
    dsimp only [f, note, tag, catalog, s, system, answer, call, shown, junction, records, t']
    rfl
  have hrecord (k : String) {scene : Scene} (hlinked : scene "__linked" = ([("uuid", k)].lookup ·))
      (howner : scene "__j" "NOTE" = some "n1") : (Linked.select l [.str "n1"]).1.Shows Dialect.mute T
        scene [("__parent", .str "n1"), ("uuid", .str k)] := by
    constructor
    · intro e called hmem
      cases List.mem_singleton.1 (List.mem_of_ne_of_mem Selected.noConfusion hmem)
      exact howner
    · intro table hmem c hc
      have hparent : c ≠ "__parent" := by
        rintro rfl
        exact hc _ (List.mem_cons_of_mem _ (List.mem_singleton_self _))
      cases List.mem_pair.1 hmem with
      | inr h => cases h
      | inl h =>
        cases h
        rw [hlinked, Json.find, if_neg hparent.symm]
        exact Engine.shows_lookup [("uuid", k)] c
  have hshown : s.ShowsLink catalog note l Dialect.mute T { populate := .all, minimal := true } system
      t [row] := by
    refine ⟨hruns, (Exchange.answeredWith_of_steady hanswers).1, rfl, ?_, ?_, ?_⟩
    · have hwanted : (LinkMap.resolve s.settings catalog note).1.links.filter
          (fun l => Populate.all.includes l.field l.column) = [l] := by
        dsimp only [f, note, tag, catalog, s, l, junction]
        rfl
      exact hwanted ▸ ⟨by decide, by decide⟩
    · intro channel keys rows hmem
      have hreads : t.filterMap Exchange.read? = [⟨false, [.all "NOTE"], ⟨"NOTE", none, []⟩, none, [], some 1000,
          none⟩, (Linked.select l [.str "n1"]).1] := by
        dsimp only [f, note, tag, catalog, s, system, answer, junction, t, l, records]
        rfl
      have hstatement : (Linked.select l keys).1 ∈ t.filterMap Exchange.read? :=
        List.mem_filterMap.2 ⟨_, hmem, rfl⟩
      rw [hreads] at hstatement
      have hrows : rows = records := by
        have hrows := hanswers _ hmem
        cases (hrows : Except.ok rows = Except.ok records)
        rfl
      subst hrows
      rcases List.mem_pair.1 hstatement with hfirst | hsecond
      · cases congrArg Select.limit hfirst
      · rw [hsecond]
        exact ⟨_, .refl _, .cons (hrecord "t1" rfl rfl) (.cons (hrecord "t2" rfl rfl) .nil)⟩
    · intro row' hrow' k hk _
      cases List.mem_singleton.1 hrow'
      cases hk
      rfl
  have hrestorable : l.Restorable T tag "n1" := by
    have hheld : l.heldFor T "n1" = [some "t1", some "t2"] := rfl
    have hrows : l.rows T (fun _ => some "n1") =
        [([("uuid", "t1")].lookup ·), ([("uuid", "t2")].lookup ·)] := rfl
    have hmany : l.many = false → ∀ r ∈ l.rows T (fun _ => some "n1"),
        ∀ r' ∈ l.rows T (fun _ => some "n1"), r' "uuid" = r "uuid" := fun h => absurd h (by decide)
    refine ⟨?_, ?_, hmany, fun _ => ⟨rfl, List.not_mem_nil⟩⟩
    · rw [hheld]
      intro text hmem _
      rcases List.mem_pair.1 hmem with h | h <;> cases h
      · exact ⟨_, List.mem_cons_self, rfl⟩
      · exact ⟨_, List.mem_cons_of_mem _ List.mem_cons_self, rfl⟩
    · rw [hrows]
      intro r hr
      rcases List.mem_pair.1 hr with rfl | rfl
      · exact ⟨"t1", rfl, by decide⟩
      · exact ⟨"t2", rfl, by decide⟩
  have hsaved : s.SavesBack catalog note f l Dialect.mute T (.str "n1") (.obj [("tags", shown)]) row
      system t' := by
    refine ⟨⟨_, hruns'⟩, (Exchange.answeredWith_of_steady hanswers').1, ⟨_, rfl, rfl⟩, ?_⟩
    rintro b ⟨v, hv, hb⟩
    have hbase : ((s.lockedRow note (.str "n1") system note.id).transcript answer).2 =
        .ok ⟨note, [("uuid", .str "n1")], .str "n1"⟩ := by
      dsimp only [f, note, tag, catalog, s, system, answer, junction, records]
      rfl
    have hanswered : ∀ x ∈ v, x.answer = answer x.request := fun x hx => hanswers' x (hv.subset hx)
    rw [Program.Runs.iff_transcript.1 ⟨hb, hanswered⟩] at hbase
    cases hbase
    refine ⟨rfl, fun w hw statement hselect channel rows hmem => ?_⟩
    have hrows := hanswers' _ hmem
    obtain ⟨k, column, keys⟩ := w
    obtain rfl : k = l := hw
    cases hselect
    cases (hrows : Except.ok rows = Except.ok [[("__key", .str "t1")], [("__key", .str "t2")]])
    exact answers_keys [.str "t1", .str "t2"] rfl (.cons rfl (.cons rfl .nil))
  have hkey : ∃ k, Json.find note.keyColumn row = some k ∧ k.isBlank = false := ⟨.str "n1", rfl, rfl⟩
  have hall : ∀ k, Json.find l.keys.baseColumn row = some k → k.isBlank = false →
      l.Restorable T tag k.plain := by
    intro k hk _
    cases hk
    exact hrestorable
  obtain ⟨x, hx, hnone | ⟨u, -, hsplit⟩⟩ := saved_back_relinks_nothing hlink hshown
    (List.mem_singleton_self row) hkey hall hsaved
  · cases heffects.symm.trans hnone
  cases hx
  obtain ⟨hmultilingual, -⟩ | ⟨before, stored, after, hpairs, -, hagree, -, heach⟩ := hsplit
  · cases hmultilingual
  · exact ⟨hlink, hshown, hrestorable, hsaved, heffects, u, before, after, stored, hpairs, hagree,
      heach (Exchange.answeredWith_of_steady hanswers').2⟩

/-- What is lost when it is saved back: records whose numbers are not shown, a record that does not
exist, and one of two records where one is shown. -/
theorem saved_back_unlinks :
    let s : Session := ⟨{}, {}, .tenant⟩
    let system : Caller := { isSystem := true }
    -- Tags are numbered, and the number is left out of what is shown.
    (let note := Entity.new "note" "Note" "NOTE"
      [.new "f" "tags" (.connection (.between "tag" .many .many))]
    let tag := { Entity.new "tag" "Tag" "TAG" [.new "n" "name" .text] with key := .id }
    let catalog : Catalog := ⟨[note, tag], [], []⟩
    let junction := "JOINMN_NOTE_TAG_tags"
    let shown : Json := .arr [.obj [("name", .str "blue")]]
    let answer := Request.steady catalog (LinkMap.ofCatalog {} catalog) fun read =>
      if read.source.table = junction then [[("__key", Json.ofNat 3)]]
      else if read.source.called.isSome then
        [[("__parent", .str "n1"), ("id", Json.ofNat 3), ("name", .str "blue")]]
      else [[("uuid", .str "n1")]]
    let t := ((s.find "note" { populate := .all } system).transcript answer).1
    let call : Call := .update "note" (.str "n1") (.obj [("tags", shown)])
    let t' := ((call.program s system).transcript answer).1
    (s.find "note" { populate := .all } system).Runs t
        (.ok [[("tags__relation", shown), ("uuid", .str "n1")]]) ∧
      (call.program s system).Runs t' (.ok ()) ∧
      effects note t' = [.update "NOTE" [⟨"updated_at", .now⟩] [columnIs "uuid" (.str "n1")],
        .delete junction [columnIs "NOTE" (.str "n1"), columnIs "TAG" (Json.ofNat 3)]]) ∧
    -- No customer has the key that an invoice holds.
    (let invoice := Entity.new "invoice" "Invoice" "INVOICE"
      [.new "f" "customer" (.connection (.between "customer" .one .many))]
    let catalog : Catalog := ⟨[invoice, .new "customer" "Customer" "CUSTOMER" []], [], []⟩
    let row : Row := [("customer", .str "c1"), ("uuid", .str "i1")]
    let answer := Request.steady catalog (LinkMap.ofCatalog {} catalog) fun read =>
      if read.source.table = "INVOICE" then [row] else []
    let t := ((s.find "invoice" { populate := .all } system).transcript answer).1
    let call : Call := .update "invoice" (.str "i1") (.obj [("customer", .null)])
    let t' := ((call.program s system).transcript answer).1
    (s.find "invoice" { populate := .all } system).Runs t
        (.ok [[("customer", .str "c1"), ("customer__relation", .null), ("uuid", .str "i1")]]) ∧
      (call.program s system).Runs t' (.ok ()) ∧
      effects invoice t' =
        [.update "INVOICE" [⟨"updated_at", .now⟩] [columnIs "uuid" (.str "i1")],
          .update "INVOICE" [setNull "customer"]
            [columnIs "uuid" (.str "i1"), columnIs "customer" (.str "c1")]]) ∧
    -- Two badges name one person as their holder.
    (let person := Entity.new "person" "Person" "PERSON"
      [.new "b" "badge" (.connection ⟨"badge", some "h", .one, .one, false, none, none⟩)]
    let badge := Entity.new "badge" "Badge" "BADGE"
      [.new "h" "holder" (.connection ⟨"person", some "b", .one, .one, true, none, none⟩)]
    let catalog : Catalog := ⟨[person, badge], [], []⟩
    let shown : Json := .obj [("holder", .str "p1"), ("uuid", .str "b1")]
    let answer := Request.steady catalog (LinkMap.ofCatalog {} catalog) fun read =>
      if read.source.called.isSome then
        [[("holder", .str "p1"), ("uuid", .str "b1")], [("holder", .str "p1"), ("uuid", .str "b2")]]
      else if read.source.table = "BADGE" then [[("__key", .str "b1")], [("__key", .str "b2")]]
      else [[("uuid", .str "p1")]]
    let t := ((s.find "person" { populate := .all } system).transcript answer).1
    let call : Call := .update "person" (.str "p1") (.obj [("badge", shown)])
    let t' := ((call.program s system).transcript answer).1
    (s.find "person" { populate := .all } system).Runs t
        (.ok [[("badge__relation", shown), ("uuid", .str "p1")]]) ∧
      (call.program s system).Runs t' (.ok ()) ∧
      effects person t' =
        [.update "PERSON" [⟨"updated_at", .now⟩] [columnIs "uuid" (.str "p1")],
          .update "BADGE" [setNull "holder"]
            [columnIs "uuid" (.str "b2"), columnIs "holder" (.str "p1")]]) := by
  intro s system
  refine ⟨?_, ?_, ?_⟩
  · intro note tag catalog junction shown answer t call t'
    refine ⟨.of_transcript ?_, .of_transcript ?_, ?_⟩
    all_goals
      dsimp only [s, system, note, tag, catalog, junction, shown, answer, t, call, t']
      rfl
  · intro invoice catalog row answer t call t'
    refine ⟨.of_transcript ?_, .of_transcript ?_, ?_⟩
    all_goals
      dsimp only [s, system, invoice, catalog, row, answer, t, call, t']
      rfl
  · intro person badge catalog shown answer t call t'
    refine ⟨.of_transcript ?_, .of_transcript ?_, ?_⟩
    all_goals
      dsimp only [s, system, person, badge, catalog, shown, answer, t, call, t']
      rfl

end Session

end CatalogQuery
