import CatalogQuery.Proofs.Link.Mirror
import Mathlib.Data.List.Perm.Basic

/-!
# Every connection is accounted for

A connection field of an object either has a link or is left out for a reason that the authors of the
metadata are told. They are told as well of each field that takes the place of a primary key without
being unique. Main statement: the links of an object are those of its connection fields without a
reason to leave them out, in order, and the notices are the reasons of the others and the doubtful
keys, each of them once.
-/

namespace CatalogQuery

namespace Connection

/-- Whether only the other side holds the link, in the column of the reverse field. -/
def needsReverse (c : Connection) : Bool :=
  match c.shape with
  | .manyToOne => true
  | .oneToOne => !c.isSource
  | .oneToMany | .manyToMany => false

/-- The ids of the fields that are to take the place of a primary key. -/
def overrideIds (c : Connection) : List String := c.index.toList ++ c.index2.toList

end Connection

namespace Field

/-- What is told of a connection field that gets no link: the linked object is missing, or the side
that holds the link has no field for it. -/
def omission? (catalog : Catalog) (e : Entity) (f : Field) : Option Notice :=
  f.connection?.bind fun c =>
    match catalog.entity? c.target with
    | none => some (.unknownTarget e.id e.name f.id f.column c.target)
    | some target =>
      if c.needsReverse && (c.reverse.bind target.fieldById).isNone then
        some (.noReverseField e.id e.name f.id f.column target.name)
      else none

end Field

namespace Entity

/-- The first of the ids names a field of the object: it takes the place of the primary key. -/
def sourceOverride (e : Entity) (ids : List String) : Option Field := ids.findSome? e.fieldById

/-- Of the ids that are left to the linked object, the first that names a field of it. -/
def targetOverride (e target : Entity) (ids : List String) : Option Field :=
  (ids.eraseP fun id => (e.fieldById id).isSome).findSome? target.fieldById

/-- What is told of a field in the place of its owner's primary key that no unique index covers
alone. -/
def doubt (owner : Entity) (f : Field) : List Notice :=
  if owner.isUniqueKey f.id then [] else [.nonUniqueKey owner.id owner.name f.id f.column]

end Entity

/-- What is told of the fields that take the place of primary keys for a connection field whose
linked object exists. -/
def Field.doubts (catalog : Catalog) (e : Entity) (f : Field) : List Notice :=
  match f.connection? with
  | none => []
  | some c =>
    match catalog.entity? c.target with
    | none => []
    | some target =>
      (e.sourceOverride c.overrideIds).toList.flatMap e.doubt ++
        (e.targetOverride target c.overrideIds).toList.flatMap target.doubt

namespace Link

/-- The column that an object's links are known by, with the field that takes the primary key's
place. -/
def keyOr (owner : Entity) (f? : Option Field) : String := (f?.map Field.column).getD owner.keyColumn

/-- Where the link of a connection field is held, as its shape and the two objects have it. -/
def HeldBy (e target : Entity) (f : Field) (c : Connection) : LinkKeys → Prop
  | .own foreign key => c.needsReverse = false ∧ c.shape ≠ .manyToMany ∧ foreign = f.column ∧
      key = keyOr target (e.targetOverride target c.overrideIds)
  | .linked foreign key => c.needsReverse = true ∧
      (∃ r, c.reverse.bind target.fieldById = some r ∧ foreign = r.column) ∧
      key = keyOr e (e.sourceOverride c.overrideIds)
  | .junction _ _ _ source key => c.shape = .manyToMany ∧
      source = keyOr e (e.sourceOverride c.overrideIds) ∧
      key = keyOr target (e.targetOverride target c.overrideIds)

/-- A link says all that a connection field and the object that it leads to say of it. -/
structure Describes (settings : Settings) (catalog : Catalog) (e : Entity) (f : Field) (l : Link)
    (c : Connection) (target : Entity) : Prop where
  connection : f.connection? = some c
  entity? : catalog.entity? c.target = some target
  field : l.field = f.id
  column : l.column = f.column
  relation : l.relation = settings.relationName f.column
  shape : l.shape = c.shape
  many : l.many = (c.here == .many)
  target_eq : l.target = target.id
  targetTable : l.targetTable = target.table
  keys : HeldBy e target f c l.keys

/-! ### Fields in the place of primary keys -/

/-- The two places go to the first field of either object that can have it, and both are told of. -/
theorem KeyOverrides.foldl_add (e target : Entity) (ids : List String) (o : KeyOverrides) :
    let own := if o.source.isSome then none else e.sourceOverride ids
    let other := if o.target.isSome then none else
      if o.source.isSome then ids.findSome? target.fieldById else e.targetOverride target ids
    let o' := ids.foldl (KeyOverrides.add e target) o
    o'.source = o.source.or (own.map Field.column) ∧
      o'.target = o.target.or (other.map Field.column) ∧
      o'.notices.Perm
        (o.notices ++ (own.toList.flatMap e.doubt ++ other.toList.flatMap target.doubt)) := by
  induction ids generalizing o with
  | nil => obtain ⟨_ | _, _ | _, _⟩ := o <;> simp [Entity.sourceOverride, Entity.targetOverride]
  | cons id rest ih =>
    have step := ih (KeyOverrides.add e target o id)
    obtain ⟨source, other, notices⟩ := o
    -- Which place the field takes hangs on who has it and on the places that are free.
    cases he : e.fieldById id <;> cases ht : target.fieldById id <;> cases source <;> cases other
    case none.some.none.none f =>
      -- The linked object's field is told of before the object's own.
      have hadd : KeyOverrides.add e target ⟨none, none, notices⟩ id =
          ⟨none, some f.column, notices ++ target.doubt f⟩ := by
        simp [KeyOverrides.add, he, ht, Entity.doubt]
      rw [hadd] at step
      obtain ⟨hsource, htarget, hnotices⟩ := step
      rw [List.foldl_cons, hadd]
      refine ⟨by simpa [Entity.sourceOverride, he] using hsource,
        by simpa [Entity.targetOverride, he, ht] using htarget, hnotices.trans ?_⟩
      simpa [Entity.sourceOverride, Entity.targetOverride, he, ht] using
        List.perm_append_comm.append_left notices
    all_goals
      simpa [KeyOverrides.add, Entity.sourceOverride, Entity.targetOverride, Entity.doubt, he, ht]
        using step

theorem overrides_eq (e target : Entity) (c : Connection) :
    (overrides e target c).source = (e.sourceOverride c.overrideIds).map Field.column ∧
      (overrides e target c).target = (e.targetOverride target c.overrideIds).map Field.column ∧
      (overrides e target c).notices.Perm
        ((e.sourceOverride c.overrideIds).toList.flatMap e.doubt ++
          (e.targetOverride target c.overrideIds).toList.flatMap target.doubt) := by
  simpa [overrides, Connection.overrideIds] using
    KeyOverrides.foldl_add e target c.overrideIds ⟨none, none, []⟩

/-! ### One connection field -/

variable {settings : Settings} {catalog : Catalog} {e target : Entity} {f : Field} {c : Connection}

theorem keysOf_eq_none_iff : (keysOf settings e target f c).1 = none ↔
    c.needsReverse = true ∧ c.reverse.bind target.fieldById = none := by
  simp only [keysOf, Connection.needsReverse]
  cases c.shape <;> cases c.isSource <;> simp

theorem heldBy_keysOf {keys : LinkKeys} (h : (keysOf settings e target f c).1 = some keys) :
    HeldBy e target f c keys := by
  obtain ⟨hsource, htarget, -⟩ := overrides_eq e target c
  simp only [keysOf, hsource, htarget] at h
  cases hshape : c.shape with
  | oneToMany =>
    simp only [hshape, Option.some.injEq] at h
    subst h
    simp [HeldBy, Connection.needsReverse, hshape, keyOr]
  | manyToOne =>
    simp only [hshape, Option.map_eq_some_iff] at h
    obtain ⟨r, hr, rfl⟩ := h
    simp [HeldBy, Connection.needsReverse, hshape, keyOr, hr]
  | oneToOne =>
    cases hside : c.isSource with
    | true =>
      simp only [hshape, hside, if_true, Option.some.injEq] at h
      subst h
      simp [HeldBy, Connection.needsReverse, hshape, hside, keyOr]
    | false =>
      simp only [hshape, hside, Bool.false_eq_true, if_false, Option.map_eq_some_iff] at h
      obtain ⟨r, hr, rfl⟩ := h
      simp [HeldBy, Connection.needsReverse, hshape, hside, keyOr, hr]
  | manyToMany =>
    simp only [hshape, Option.some.injEq] at h
    subst h
    exact ⟨hshape, rfl, rfl⟩

theorem omission?_of_entity? (settings : Settings) (hc : f.connection? = some c)
    (htarget : catalog.entity? c.target = some target) :
    f.omission? catalog e = if (keysOf settings e target f c).1.isNone then
      some (.noReverseField e.id e.name f.id f.column target.name) else none := by
  have hnone : (keysOf settings e target f c).1.isNone =
      (c.needsReverse && (c.reverse.bind target.fieldById).isNone) := by
    rw [Bool.eq_iff_iff, Option.isNone_iff_eq_none, keysOf_eq_none_iff]
    simp
  simp [Field.omission?, hc, htarget, hnone]

/-- A connection field without a reason to leave it out has a link that says all of it. -/
theorem exists_describes (settings : Settings) (hc : f.connection? = some c)
    (h : f.omission? catalog e = none) :
    ∃ l target, (ofField settings catalog e f c).1 = some l ∧
      Describes settings catalog e f l c target := by
  cases htarget : catalog.entity? c.target with
  | none => simp [Field.omission?, hc, htarget] at h
  | some target =>
    rw [omission?_of_entity? settings hc htarget] at h
    obtain ⟨keys, hkeys⟩ : ∃ keys, (keysOf settings e target f c).1 = some keys :=
      Option.ne_none_iff_exists'.1 (by simpa using h)
    exact ⟨_, target, ofField_of_entity? htarget hkeys, hc, htarget, rfl, rfl, rfl, rfl, rfl, rfl, rfl,
      heldBy_keysOf hkeys⟩

/-- A connection field that is left out has no link. -/
theorem ofField_of_omission (hc : f.connection? = some c) {n : Notice}
    (h : f.omission? catalog e = some n) : (ofField settings catalog e f c).1 = none := by
  cases hl : (ofField settings catalog e f c).1 with
  | none => rfl
  | some l =>
    obtain ⟨target, htarget, -, -, -, hkeys⟩ := exists_of_ofField hl
    simp [omission?_of_entity? settings hc htarget, hkeys] at h

/-- What is told of a connection field: the doubtful keys, then the reason to leave it out. -/
theorem exists_notices_ofField (settings : Settings) (catalog : Catalog) (e : Entity)
    (hc : f.connection? = some c) :
    ∃ doubts, doubts.Perm (f.doubts catalog e) ∧
      (ofField settings catalog e f c).2 = doubts ++ (f.omission? catalog e).toList := by
  cases htarget : catalog.entity? c.target with
  | none => exact ⟨[], by simp [Field.doubts, hc, htarget],
      by simp [ofField, Field.omission?, hc, htarget]⟩
  | some target =>
    refine ⟨(overrides e target c).notices, ?_, ?_⟩
    · simpa [Field.doubts, hc, htarget] using (overrides_eq e target c).2.2
    · have hnotices : (keysOf settings e target f c).2 = (overrides e target c).notices := rfl
      rw [omission?_of_entity? settings hc htarget, ← hnotices]
      simp only [ofField, htarget]
      generalize keysOf settings e target f c = found
      obtain ⟨_ | keys, notices⟩ := found <;> simp

end Link

/-! ### All connection fields -/

variable {settings : Settings} {catalog : Catalog} {e : Entity}

theorem Field.kind_of_mem_doubts {f : Field} {n : Notice} (h : n ∈ f.doubts catalog e) :
    n.kind = "non_unique_join_key" := by
  have hdoubt {owner : Entity} {g : Field} (hn : n ∈ owner.doubt g) :
      n.kind = "non_unique_join_key" := by
    rw [Entity.doubt] at hn
    split at hn
    · cases hn
    · rw [List.mem_singleton.1 hn]
      rfl
  rw [doubts] at h
  split at h
  · cases h
  split at h
  · cases h
  rcases List.mem_append.1 h with h | h
  all_goals
    obtain ⟨g, -, hn⟩ := List.mem_flatMap.1 h
    exact hdoubt hn

theorem Field.kind_of_omission {f : Field} {n : Notice} (h : f.omission? catalog e = some n) :
    n.kind = "missing_link_target" := by
  obtain ⟨c, -, h⟩ := Option.bind_eq_some_iff.1 h
  split at h
  · cases h
    rfl
  · split at h
    · cases h
      rfl
    · cases h

namespace LinkMap

theorem links_resolve : (resolve settings catalog e).1.links =
    e.connections.filterMap fun f =>
      f.connection?.bind fun c => (Link.ofField settings catalog e f c).1 := by
  simp only [resolve, Entity.connections, List.filterMap_filterMap, List.filterMap_filter]
  refine List.filterMap_congr fun f _ => ?_
  cases hc : f.connection? <;> simp [Field.isConnection, hc]

theorem notices_resolve : (resolve settings catalog e).2 =
    e.connections.flatMap fun f =>
      f.connection?.elim [] fun c => (Link.ofField settings catalog e f c).2 := by
  simp only [resolve, Entity.connections]
  induction e.fields with
  | nil => rfl
  | cons f rest ih => cases hc : f.connection? <;> simpa [Field.isConnection, hc] using ih

/-- Each notice on a field is the reason to leave it out or a doubt about a key of it. -/
theorem filter_notices_ofField (settings : Settings) (catalog : Catalog) (e : Entity) (f : Field) :
    let notices := f.connection?.elim [] fun c => (Link.ofField settings catalog e f c).2
    notices.filter (·.kind == "missing_link_target") = (f.omission? catalog e).toList ∧
      (notices.filter (·.kind == "non_unique_join_key")).Perm (f.doubts catalog e) ∧
      ∀ n ∈ notices, n.kind = "missing_link_target" ∨ n.kind = "non_unique_join_key" := by
  cases hc : f.connection? with
  | none => simp [Field.omission?, Field.doubts, hc]
  | some c =>
    obtain ⟨doubts, hperm, hnotices⟩ := Link.exists_notices_ofField settings catalog e hc
    have hdoubt : ∀ n ∈ doubts, n.kind = "non_unique_join_key" := fun n hn =>
      Field.kind_of_mem_doubts (hperm.mem_iff.1 hn)
    have homission : ∀ n ∈ (f.omission? catalog e).toList, n.kind = "missing_link_target" :=
      fun n hn => Field.kind_of_omission (Option.mem_toList.1 hn)
    simp only [Option.elim_some, hnotices, List.filter_append]
    refine ⟨?_, ?_, fun n hn => ?_⟩
    · rw [List.filter_eq_nil_iff.2 fun n hn => by simp [hdoubt n hn], List.nil_append]
      exact List.filter_eq_self.2 fun n hn => by simp [homission n hn]
    · rw [List.filter_eq_self.2 fun n hn => by simp [hdoubt n hn]]
      rwa [List.filter_eq_nil_iff.2 fun n hn => by simp [homission n hn], List.append_nil]
    · exact (List.mem_append.1 hn).elim (fun h => .inr (hdoubt n h)) fun h => .inl (homission n h)

/-- The links follow the connection fields that have no reason to be left out. -/
theorem forall₂_links_resolve (settings : Settings) (catalog : Catalog) (e : Entity) :
    List.Forall₂ (fun f l => ∃ c target, Link.Describes settings catalog e f l c target)
      (e.connections.filter fun f => (f.omission? catalog e).isNone)
      (resolve settings catalog e).1.links := by
  rw [links_resolve]
  have hconnection : ∀ f ∈ e.connections, f.connection?.isSome := fun f hf =>
    (List.mem_filter.1 hf).2
  generalize e.connections = fields at hconnection
  induction fields with
  | nil => exact .nil
  | cons f rest ih =>
    have hrest := ih fun g hg => hconnection g (.tail _ hg)
    obtain ⟨c, hc⟩ := Option.isSome_iff_exists.1 (hconnection f (.head _))
    cases homission : f.omission? catalog e with
    | none =>
      obtain ⟨l, target, hl, hdescribes⟩ := Link.exists_describes settings hc homission
      simpa [homission, hc, hl] using List.Forall₂.cons ⟨c, target, hdescribes⟩ hrest
    | some n => simpa [homission, hc, Link.ofField_of_omission hc homission] using hrest

/-- The links of an object say, in order, all of the connection fields that have no reason to be left
out. The notices are these reasons, in order, and one for each field in the place of a primary key that
no unique index of its owner covers alone. -/
theorem connections_accounted_for (settings : Settings) (catalog : Catalog) (e : Entity) :
    let resolved := resolve settings catalog e
    List.Forall₂ (fun f l => ∃ c target, Link.Describes settings catalog e f l c target)
        (e.connections.filter fun f => (f.omission? catalog e).isNone) resolved.1.links ∧
      resolved.2.filter (·.kind == "missing_link_target") =
        e.connections.filterMap (·.omission? catalog e) ∧
      (resolved.2.filter (·.kind == "non_unique_join_key")).Perm
        (e.connections.flatMap (·.doubts catalog e)) ∧
      ∀ n ∈ resolved.2, n.kind = "missing_link_target" ∨ n.kind = "non_unique_join_key" := by
  intro resolved
  have hfields := filter_notices_ofField settings catalog e
  have hnotices : resolved.2 = e.connections.flatMap fun f =>
      f.connection?.elim [] fun c => (Link.ofField settings catalog e f c).2 := notices_resolve
  refine ⟨forall₂_links_resolve settings catalog e, ?_, ?_, fun n hn => ?_⟩
  · rw [hnotices, List.filter_flatMap, List.filterMap_eq_flatMap_toList]
    exact List.flatMap_congr fun f _ => (hfields f).1
  · rw [hnotices, List.filter_flatMap]
    exact List.Perm.flatMap_left _ fun f _ => (hfields f).2.1
  · rw [hnotices] at hn
    obtain ⟨f, -, hn⟩ := List.mem_flatMap.1 hn
    exact (hfields f).2.2 n hn

end LinkMap

end CatalogQuery
