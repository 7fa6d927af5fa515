import CatalogQuery.Link.Resolve
import Mathlib.Data.List.Nodup

/-!
# Both ends of a connection

A connection that two objects know of is described by a field on either of them. Main statement: the
two fields resolve to the same link, seen from its two sides.
-/

namespace CatalogQuery

/-- Where ids are unique, the one with an id is found by it. -/
theorem find?_of_unique {α : Type} {key : α → String} {as : List α} {a : α} (ha : a ∈ as)
    (hunique : ∀ b ∈ as, key b = key a → b = a) : as.find? (key · == key a) = some a := by
  cases h : as.find? (key · == key a) with
  | none =>
    have := List.find?_eq_none.1 h a ha
    simp at this
  | some b =>
    have hkey : key b = key a := by simpa using List.find?_some h
    rw [hunique b (List.mem_of_find?_eq_some h) hkey]

theorem Entity.fieldById_of_mem {e : Entity} (hids : (e.fields.map Field.id).Nodup) {f : Field}
    (hf : f ∈ e.fields) : e.fieldById f.id = some f :=
  find?_of_unique hf fun _ hg hid => List.inj_on_of_nodup_map hids hg hf hid

theorem Entity.fieldById_eq_some {e : Entity} {id : String} {f : Field}
    (h : e.fieldById id = some f) : f ∈ e.fields ∧ f.id = id :=
  ⟨List.mem_of_find?_eq_some h, by simpa using List.find?_some h⟩

namespace LinkKeys

/-- The keys of a link as the linked object has them. -/
def mirror : LinkKeys → LinkKeys
  | own foreign target => linked foreign target
  | linked foreign source => own foreign source
  | junction table sourceColumn targetColumn source target =>
    junction table targetColumn sourceColumn target source

theorem mirror_mirror (k : LinkKeys) : k.mirror.mirror = k := by
  cases k <;> rfl

end LinkKeys

namespace Link

theorem ofField_of_entity? {settings : Settings} {catalog : Catalog} {e target : Entity}
    {f : Field} {c : Connection} {keys : LinkKeys} (htarget : catalog.entity? c.target = some target)
    (hkeys : (keysOf settings e target f c).1 = some keys) :
    (ofField settings catalog e f c).1 = some
      { field := f.id
        column := f.column
        relation := settings.relationName f.column
        shape := c.shape
        target := target.id
        targetTable := target.table
        many := c.here == .many
        keys } := by
  generalize hk : keysOf settings e target f c = found at hkeys
  obtain ⟨_, notices⟩ := found
  cases hkeys
  simp only [ofField, htarget, hk]

/-- A resolved link leads to the object that the connection names, with keys that are there. -/
theorem exists_of_ofField {settings : Settings} {catalog : Catalog} {e : Entity} {f : Field}
    {c : Connection} {l : Link} (h : (ofField settings catalog e f c).1 = some l) :
    ∃ target, catalog.entity? c.target = some target ∧ l.target = target.id ∧
      l.targetTable = target.table ∧ l.field = f.id ∧
      (keysOf settings e target f c).1 = some l.keys := by
  rw [ofField] at h
  split at h
  · cases h
  rename_i target htarget
  split at h
  · rename_i keys _ hkeys
    cases h
    exact ⟨target, htarget, rfl, rfl, rfl, by rw [hkeys]⟩
  · cases h

theorem entity_of_ofField {settings : Settings} {catalog : Catalog} {e target : Entity} {f : Field}
    {c : Connection} {l : Link} (h : (ofField settings catalog e f c).1 = some l)
    (htarget : catalog.entity l.target = .ok target) : catalog.entity? c.target = some target := by
  obtain ⟨found, hfound, hid, -, -, -⟩ := exists_of_ofField h
  have hnamed : found.id = c.target := by simpa using List.find?_some hfound
  rw [hid, hnamed, Catalog.entity, hfound] at htarget
  cases htarget
  exact hfound

theorem field_ofField {settings : Settings} {catalog : Catalog} {e : Entity} {f : Field}
    {c : Connection} {l : Link} (h : (ofField settings catalog e f c).1 = some l) :
    l.field = f.id := by
  obtain ⟨-, -, -, -, hfield, -⟩ := exists_of_ofField h
  exact hfield

end Link

namespace LinkMap

variable {settings : Settings} {catalog : Catalog} {e : Entity}

theorem mem_resolve {l : Link} :
    l ∈ (resolve settings catalog e).1.links ↔ ∃ f ∈ e.fields, ∃ c, f.connection? = some c ∧
      (Link.ofField settings catalog e f c).1 = some l := by
  simp only [resolve, List.mem_filterMap, Option.map_eq_some_iff]
  constructor
  · rintro ⟨_, ⟨f, hf, c, hc, rfl⟩, hl⟩
    exact ⟨f, hf, c, hc, hl⟩
  · rintro ⟨f, hf, c, hc, hl⟩
    exact ⟨_, ⟨f, hf, c, hc, rfl⟩, hl⟩

/-- An object whose fields have different ids knows the link of a field by its id. -/
theorem get_resolve (hids : (e.fields.map Field.id).Nodup) {f : Field} (hf : f ∈ e.fields)
    {c : Connection} (hc : f.connection? = some c) {l : Link}
    (hl : (Link.ofField settings catalog e f c).1 = some l) :
    (resolve settings catalog e).1.get f.id = some l := by
  have hmem : l ∈ (resolve settings catalog e).1.links := mem_resolve.2 ⟨f, hf, c, hc, hl⟩
  have hunique : ∀ m ∈ (resolve settings catalog e).1.links, m.field = l.field → m = l := by
    intro m hm hfield
    obtain ⟨g, hg, d, hd, hlink⟩ := mem_resolve.1 hm
    rw [Link.field_ofField hlink, Link.field_ofField hl] at hfield
    cases List.inj_on_of_nodup_map hids hg hf hfield
    rw [hc] at hd
    cases hd
    rw [hl] at hlink
    exact (Option.some.inj hlink).symm
  have hfind := find?_of_unique hmem hunique
  rw [Link.field_ofField hl] at hfind
  rw [get, hfind]

/-- The table that a resolved link leads to is that of the object. -/
theorem targetTable_of_mem {l : Link} (h : l ∈ (resolve settings catalog e).1.links)
    {target : Entity} (htarget : catalog.entity l.target = .ok target) :
    l.targetTable = target.table := by
  obtain ⟨f, -, c, -, hl⟩ := mem_resolve.1 h
  obtain ⟨found, hfound, -, htable, -, -⟩ := Link.exists_of_ofField hl
  cases hfound.symm.trans (Link.entity_of_ofField hl htarget)
  exact htable

/-- What a link map gives for a key is one of its links. -/
theorem mem_of_get {m : LinkMap} {key : String} {l : Link} (h : m.get key = some l) :
    l ∈ m.links := by
  rw [get] at h
  split at h
  · cases h
    exact List.mem_of_find?_eq_some ‹_›
  · exact List.mem_of_find?_eq_some h

end LinkMap

/-- Two fields that describe one connection, `f` of `a` and `g` of `b`. -/
structure Opposite (a b : Entity) (f g : Field) (c d : Connection) : Prop where
  mem : f ∈ a.fields
  mem' : g ∈ b.fields
  ids : (a.fields.map Field.id).Nodup
  ids' : (b.fields.map Field.id).Nodup
  disjoint : ∀ x ∈ a.fields, ∀ y ∈ b.fields, x.id ≠ y.id
  connection : f.connection? = some c
  connection' : g.connection? = some d
  /-- Each names the object and the field of the other. -/
  target : c.target = b.id
  target' : d.target = a.id
  reverse : c.reverse = some g.id
  reverse' : d.reverse = some f.id
  here : d.here = c.there
  there : d.there = c.here
  index : d.index = c.index
  index2 : d.index2 = c.index2
  /-- Where it takes a flag to tell the side that holds the link, one of them has it. -/
  source : c.shape = .oneToOne ∨ c.shape = .manyToMany → d.isSource = !c.isSource

namespace Link

/-- No field replaces a key on both objects. -/
theorem overrides_swap {a b : Entity} (hdisjoint : ∀ x ∈ a.fields, ∀ y ∈ b.fields, x.id ≠ y.id)
    (fields : List String) (o o' : KeyOverrides) (hsource : o'.source = o.target)
    (htarget : o'.target = o.source) :
    (fields.foldl (KeyOverrides.add b a) o').source =
        (fields.foldl (KeyOverrides.add a b) o).target ∧
      (fields.foldl (KeyOverrides.add b a) o').target =
        (fields.foldl (KeyOverrides.add a b) o).source := by
  induction fields generalizing o o' with
  | nil => exact ⟨hsource, htarget⟩
  | cons id rest ih =>
    obtain ⟨source, target, notices⟩ := o
    obtain ⟨source', target', notices'⟩ := o'
    cases hsource
    cases htarget
    simp only [List.foldl_cons]
    -- A field of one object takes the same slot from either side, a field of none takes none.
    cases ha : a.fieldById id with
    | none =>
      cases hb : b.fieldById id with
      | none => exact ih _ _ (by simp [KeyOverrides.add, ha, hb]) (by simp [KeyOverrides.add, ha, hb])
      | some g =>
        cases target <;>
          exact ih _ _ (by simp [KeyOverrides.add, ha, hb]) (by simp [KeyOverrides.add, ha, hb])
    | some f =>
      cases hb : b.fieldById id with
      | none =>
        cases source <;>
          exact ih _ _ (by simp [KeyOverrides.add, ha, hb]) (by simp [KeyOverrides.add, ha, hb])
      | some g =>
        obtain ⟨hf, hfid⟩ := Entity.fieldById_eq_some ha
        obtain ⟨hg, hgid⟩ := Entity.fieldById_eq_some hb
        exact absurd (hfid.trans hgid.symm) (hdisjoint f hf g hg)

variable {a b : Entity} {f g : Field} {c d : Connection}

theorem shape_swap (h : Opposite a b f g c d) :
    d.shape = match c.shape with
      | .oneToOne => .oneToOne
      | .oneToMany => .manyToOne
      | .manyToOne => .oneToMany
      | .manyToMany => .manyToMany := by
  rw [Connection.shape, Connection.shape, h.here, h.there]
  cases c.here <;> cases c.there <;> rfl

/-- The keys of one end are there, and those of the other end are their mirror image. -/
theorem keysOf_swap (settings : Settings) (h : Opposite a b f g c d) :
    ∃ keys, (keysOf settings a b f c).1 = some keys ∧
      (keysOf settings b a g d).1 = some keys.mirror := by
  have hg : c.reverse.bind b.fieldById = some g := by
    rw [h.reverse]
    exact Entity.fieldById_of_mem h.ids' h.mem'
  have hf : d.reverse.bind a.fieldById = some f := by
    rw [h.reverse']
    exact Entity.fieldById_of_mem h.ids h.mem
  obtain ⟨hsource, htarget⟩ := overrides_swap h.disjoint (c.index.toList ++ c.index2.toList)
    ⟨none, none, []⟩ ⟨none, none, []⟩ rfl rfl
  have hsource : (overrides b a d).source = (overrides a b c).target := by
    rw [overrides, h.index, h.index2]
    exact hsource
  have htarget : (overrides b a d).target = (overrides a b c).source := by
    rw [overrides, h.index, h.index2]
    exact htarget
  have hshape := shape_swap h
  simp only [keysOf, hg, hf, hsource, htarget, hshape, Option.map_some]
  cases hc : c.shape with
  | oneToMany | manyToOne => exact ⟨_, rfl, rfl⟩
  | oneToOne =>
    rw [h.source (.inl hc)]
    cases c.isSource <;> exact ⟨_, rfl, rfl⟩
  | manyToMany =>
    -- Both ends name the junction after the side that is the source.
    refine ⟨_, rfl, ?_⟩
    simp only [junctionKeys, h.source (.inr hc)]
    cases c.isSource <;> rfl

end Link

/-- Both ends of a connection have a link, each leads to the other's object, and the keys of the one
are those of the other with the sides exchanged. -/
theorem LinkMap.resolve_mirror (settings : Settings) {catalog : Catalog} {a b : Entity}
    {f g : Field} {c d : Connection} (ha : catalog.entity? a.id = some a)
    (hb : catalog.entity? b.id = some b) (h : Opposite a b f g c d) :
    ∃ l m, (resolve settings catalog a).1.get f.id = some l ∧
      (resolve settings catalog b).1.get g.id = some m ∧
      l.target = b.id ∧ l.targetTable = b.table ∧ m.target = a.id ∧ m.targetTable = a.table ∧
      m.keys = l.keys.mirror ∧ l.keys = m.keys.mirror := by
  obtain ⟨keys, hkeys, hkeys'⟩ := Link.keysOf_swap settings h
  have hl := Link.ofField_of_entity? (h.target ▸ hb) hkeys
  have hm := Link.ofField_of_entity? (h.target' ▸ ha) hkeys'
  exact ⟨_, _, get_resolve h.ids h.mem h.connection hl, get_resolve h.ids' h.mem' h.connection' hm,
    rfl, rfl, rfl, rfl, rfl, (LinkKeys.mirror_mirror keys).symm⟩

/-- A junction between two objects in one table, with a field in the place of one primary key. -/
theorem LinkMap.resolve_mirror_junction :
    let c : Connection := ⟨"tag", some "g", .many, .many, true, some "n", none⟩
    let d : Connection := ⟨"invoice", some "f", .many, .many, false, some "n", none⟩
    let f := Field.new "f" "tags" (.connection c)
    let g := Field.new "g" "invoices" (.connection d)
    let invoice := Entity.new "invoice" "Invoice" "PAPER" [.new "n" "number" .text, f]
    let tag := Entity.new "tag" "Tag" "PAPER" [g]
    let catalog : Catalog := ⟨[invoice, tag], [], []⟩
    Opposite invoice tag f g c d ∧ ∃ l m, (resolve {} catalog invoice).1.get "f" = some l ∧
      (resolve {} catalog tag).1.get "g" = some m ∧
      l.keys = .junction "JOINMN_PAPER_PAPER_tags" "PAPER" "PAPER_tags" "number" "uuid" ∧
      m.keys = l.keys.mirror := by
  intro c d f g invoice tag catalog
  have h : Opposite invoice tag f g c d :=
    { mem := by simp [invoice, Entity.new]
      mem' := by simp [tag, Entity.new]
      ids := by decide
      ids' := by decide
      disjoint := by simp [invoice, tag, Entity.new, Field.new, f, g]
      connection := rfl
      connection' := rfl
      target := rfl
      target' := rfl
      reverse := rfl
      reverse' := rfl
      here := rfl
      there := rfl
      index := rfl
      index2 := rfl
      source := fun _ => rfl }
  have hinvoice : catalog.entity? invoice.id = some invoice := rfl
  have htag : catalog.entity? tag.id = some tag := rfl
  obtain ⟨l, m, hl, hm, -, -, -, -, hkeys, -⟩ := LinkMap.resolve_mirror {} hinvoice htag h
  refine ⟨h, l, m, hl, hm, ?_, hkeys⟩
  have hget : (resolve {} catalog invoice).1.get "f" = some
      ⟨"f", "tags", "tags__relation", .manyToMany, "tag", "PAPER", true,
        .junction "JOINMN_PAPER_PAPER_tags" "PAPER" "PAPER_tags" "number" "uuid"⟩ := by decide
  rw [show (resolve {} catalog invoice).1.get "f" = some l from hl] at hget
  cases hget
  rfl

end CatalogQuery
