import CatalogQuery.Catalog.Codec
import CatalogQuery.Proofs.Condition.Codec

/-!
# Definitions read and written

A definition that was read is settled: no condition in it holds a node that would read as something
else, and nothing that may be missing is null instead. Main statement: the settled definitions are
the ones that are read as they were written, so a definition that was read, in whichever form, is
written as one that is read as the same definition again.
-/

namespace CatalogQuery

open Decode MemberReader

/-! ## Words -/

@[simp]
theorem Multiplicity.ofName_name (m : Multiplicity) : ofName m.name = some m := by cases m <;> rfl

@[simp]
theorem Aggregate.ofName_name (a : Aggregate) : ofName a.name = some a := by cases a <;> rfl

@[simp]
theorem PrimaryKey.ofJson_column (k : PrimaryKey) : ofJson (.str k.column) = some k := by
  cases k <;> rfl

@[simp]
theorem FieldType.innerWord_str {α : Type} (names : String → Option α) (s : String) :
    innerWord names (.str s) = names s := rfl

/-! ## Types -/

theorem Connection.fromSource_members (c : Connection) {members : Json.Members}
    (h : ∀ key ∉ "type" :: Field.ownMembers, Json.find key members = Json.find key c.members) :
    fromSource reader (.named members) = some c := by
  simp [Field.ownMembers] at h
  simp [fromSource, reader, h, Connection.members, Json.find_append, Json.find]

@[simp]
theorem ListOption.ofJson_toJson (o : ListOption) : ofJson o.toJson = some o := by
  simp [ofJson, toJson, Json.object, structured, fromSource, reader, Json.find_sorted, Json.find]

/-- A formula whose filter is read as it is written. -/
def Formula.Settled (f : Formula) : Prop := ∀ c ∈ f.filter, c.toJson ≠ .null ∧ c.Faithful

theorem Formula.fromSource_members {f : Formula} (hf : f.Settled) {members : Json.Members}
    (h : ∀ key ∉ "type" :: Field.ownMembers, Json.find key members = Json.find key f.members) :
    fromSource reader (.named members) = some f := by
  have hfilter : optionally (fun v => some (Condition.ofJson v)) (f.filter.map Condition.toJson) =
      some f.filter :=
    optionally_map fun c hc => ⟨(hf c hc).1, congrArg some (Condition.ofJson_toJson c (hf c hc).2)⟩
  simp [Field.ownMembers] at h
  simp [fromSource, reader, h, Formula.members, Json.find, hfilter]

namespace FieldType

/-- A type that is read as it is written. -/
def Settled : FieldType → Prop
  | formula f => f.Settled
  | _ => True

theorem ofSource_members {t : FieldType} (ht : t.Settled) {members : Json.Members}
    (h : ∀ key ∉ "type" :: Field.ownMembers, Json.find key members = Json.find key t.members) :
    ofSource t.name (.named members) = some t := by
  cases t with
  | list options multiple =>
    simp [name, ofSource, reader, fromSource, h, Field.ownMembers, FieldType.members, Json.find,
      list_map]
  | user multiple =>
    simp [name, ofSource, reader, fromSource, h, Field.ownMembers, FieldType.members, Json.find]
  | formula f =>
    simp [name, ofSource, reader, fromSource_map, f.fromSource_members ht h]
  | calculate expression =>
    simp [name, ofSource, reader, fromSource, h, Field.ownMembers, FieldType.members, Json.find]
  | connection c => simp [name, ofSource, reader, fromSource_map, c.fromSource_members h]
  | _ => rfl

/-- No member is written twice. -/
theorem nodup_keys (t : FieldType) : (t.members.map Prod.fst).Nodup := by
  cases t with
  | formula f => cases h : f.filter <;> simp [FieldType.members, Formula.members, Json.optional, h]
  | connection c =>
    cases hr : c.reverse <;> cases hi : c.index <;> cases hi2 : c.index2 <;>
      simp [FieldType.members, Connection.members, Json.optional, hr, hi, hi2]
  | _ => simp [FieldType.members]

/-- A type has no members of the names that the field has. -/
theorem find_members (t : FieldType) {key : String} (h : key ∈ "type" :: Field.ownMembers) :
    Json.find key t.members = none := by
  simp only [Field.ownMembers, List.mem_cons, List.not_mem_nil, or_false] at h
  cases t <;> rcases h with rfl | rfl | rfl | rfl | rfl | rfl | rfl <;>
    simp [FieldType.members, Formula.members, Connection.members, Json.find_append, Json.find]

end FieldType

namespace Field

/-- A field that is read as it is written. -/
def Settled (f : Field) : Prop := f.type.Settled ∧ f.default ≠ some .null

/-- The members of a field that are no members of its type. -/
def values (f : Field) : Json.Members :=
  [("id", .str f.id), ("columnName", .str f.column), ("label", .str f.label),
    ("isMultilingual", .bool f.multilingual), ("required", .bool f.required)] ++
    Json.optional "default" f.default

theorem toJson_eq (f : Field) :
    f.toJson = .obj (Json.sorted (("type", .str f.type.name) :: f.type.members ++ f.values)) := by
  simp [toJson, Json.object, values]

theorem find_values_eq_none (f : Field) {key : String} (h : key ∉ ownMembers) :
    Json.find key f.values = none := by
  simp only [ownMembers, List.mem_cons, List.not_mem_nil, or_false, not_or] at h
  simp [values, Json.find, h, eq_comm (b := key)]

theorem nodup_values (f : Field) : (f.values.map Prod.fst).Nodup := by
  cases h : f.default <;> simp [values, Json.optional, h]

/-- A member of a written field: one of the field itself, or else one of its type. -/
theorem find_written (f : Field) (key : String) :
    Json.find key (Json.sorted (("type", .str f.type.name) :: f.type.members ++ f.values)) =
      (Json.find key f.values).or
        (if key = "type" then some (.str f.type.name) else Json.find key f.type.members) := by
  rw [Json.find_sorted, List.reverse_append, List.reverse_cons, Json.find_append, Json.find_append,
    Json.find_reverse f.nodup_values, Json.find_reverse f.type.nodup_keys]
  by_cases hkey : key = "type"
  · subst hkey
    simp [f.type.find_members, Json.find]
  · simp [Json.find, hkey, eq_comm (b := key)]

theorem ofMembers_of_find {f : Field} (h : f.Settled) {members : Json.Members}
    (hfind : ∀ key, Json.find key members = (Json.find key f.values).or
      (if key = "type" then some (.str f.type.name) else Json.find key f.type.members)) :
    ofMembers members = some f := by
  have hdefault : optionally some f.default = some f.default := by
    cases hd : f.default with
    | none => rfl
    | some v => exact optionally_some (by rintro rfl; exact h.2 hd) some
  -- The type sees its own members only.
  have hrest (key : String) : Json.find key (members.filter fun m => !ownMembers.contains m.1) =
      if key = "type" then some (.str f.type.name) else Json.find key f.type.members := by
    rw [Json.find_filter key fun k => !ownMembers.contains k, hfind]
    by_cases hkey : key ∈ ownMembers
    · have hne : key ≠ "type" := by
        rintro rfl
        simp [ownMembers] at hkey
      simp [hkey, hne, f.type.find_members (List.mem_cons_of_mem _ hkey)]
    · simp [hkey, f.find_values_eq_none hkey]
  have htype : FieldType.ofSource f.type.name (.named (Json.erase "type"
      (members.filter fun m => !ownMembers.contains m.1))) = some f.type := by
    refine FieldType.ofSource_members h.1 fun key hkey => ?_
    have hne : key ≠ "type" := fun heq => hkey (heq ▸ List.mem_cons_self)
    rw [Json.find_erase, if_neg hne, hrest, if_neg hne]
  have hnone : Json.find "default" f.type.members = none :=
    f.type.find_members (by simp [ownMembers])
  simp only [ofMembers, hrest "type", if_true, FieldType.memberName, Option.bind_eq_bind,
    Option.bind_some, htype]
  simp [fromSource, hfind, values, Json.find, hnone, hdefault]

theorem ofJson_toJson {f : Field} (h : f.Settled) : ofJson f.toJson = some f := by
  rw [toJson_eq]
  exact ofMembers_of_find h f.find_written

end Field

/-! ## Definitions -/

@[simp]
theorem Index.ofJson_toJson (i : Index) : ofJson i.toJson = some i := by
  simp [ofJson, toJson, Json.object, structured, fromSource, reader, Json.find_sorted, Json.find]

/-- An object whose fields are read as they are written. -/
def Entity.Settled (e : Entity) : Prop := ∀ f ∈ e.fields, f.Settled

theorem Entity.ofJson_toJson {e : Entity} (h : e.Settled) : ofJson e.toJson = some e := by
  have hfields : list Field.ofJson (.arr (e.fields.map Field.toJson)) = some e.fields :=
    list_map fun f hf => Field.ofJson_toJson (h f hf)
  have hindexes : list Index.ofJson (.arr (e.indexes.map Index.toJson)) = some e.indexes :=
    list_map fun i _ => i.ofJson_toJson
  simp [ofJson, toJson, Json.object, structured, fromSource, reader, Json.find_sorted,
    Json.find_append, Json.find, hfields, hindexes]

theorem StoredQuery.ofJson_toJson {q : StoredQuery} (h : q.condition.Faithful) :
    ofJson q.toJson = some q := by
  simp [ofJson, toJson, Json.object, structured, fromSource, reader, Json.find_sorted, Json.find,
    Condition.ofJson_toJson _ h]

@[simp]
theorem DataSource.ofJson_toJson (s : DataSource) : ofJson s.toJson = some s := by
  cases s <;>
    simp [ofJson, toJson, Json.object, fromSource, reader, Json.find_sorted, Json.find, ofName]

theorem DataCollection.ofJson_toJson {d : DataCollection} (h : d.filter.Faithful) :
    ofJson d.toJson = some d := by
  simp [ofJson, toJson, Json.object, structured, fromSource, reader, Json.find_sorted, Json.find,
    Condition.ofJson_toJson _ h]

/-! ## What was read is settled -/

theorem Condition.toJson_ofJson_ne_null {v : Json} (h : v ≠ .null) : (ofJson v).toJson ≠ .null := by
  intro hnull
  by_cases hopens : ∃ glue items, Opens glue items v
  · obtain ⟨glue, items, hopens⟩ := hopens
    rw [ofJson_of_opens hopens, toJson_group] at hnull
    cases hnull
  · by_cases hrule : ∃ r : Rule, r.Spelled v
    · obtain ⟨r, hr⟩ := hrule
      rw [ofJson_of_spelled hopens hr, toJson_rule] at hnull
      cases hnull
    · rw [ofJson_of_not_spelled hopens hrule, toJson] at hnull
      exact h hnull

theorem Formula.yields_reader : Formula.reader.Yields Formula.Settled := by
  refine .next fun field => .next fun target => .next fun aggregate => ?_
  refine (yields_optional fun v c hv hc => ?_).bind fun filter hfilter =>
    yields_pure (P := Formula.Settled) hfilter
  cases hc
  exact ⟨Condition.toJson_ofJson_ne_null hv, Condition.faithful_ofJson v⟩

theorem FieldType.yields_reader {name : String} {r : MemberReader FieldType}
    (h : reader name = some r) : r.Yields Settled := by
  unfold FieldType.reader at h
  split at h <;> cases h
  case h_7 => exact .next fun options => .next fun multiple => yields_pure trivial
  case h_8 => exact .next fun multiple => yields_pure trivial
  case h_9 => exact .map Formula.yields_reader
  case h_10 => exact .map fun _ _ _ _ => trivial
  case h_11 => exact .map fun _ _ _ _ => trivial
  all_goals exact yields_pure trivial

theorem FieldType.settled_of_ofSource {name : String} {source : MemberSource} {t : FieldType}
    (h : ofSource name source = some t) : t.Settled := by
  rw [ofSource, Option.bind_eq_some_iff] at h
  obtain ⟨r, hr, h⟩ := h
  exact (yields_reader hr).fromSource h

theorem Field.settled_of_ofJson {v : Json} {f : Field} (h : ofJson v = some f) : f.Settled := by
  cases v with
  | obj members =>
    simp only [ofJson, ofMembers, Option.bind_eq_bind] at h
    split at h
    case h_2 => cases h
    simp only [Option.bind_eq_some_iff] at h
    obtain ⟨name, -, type, htype, h⟩ := h
    have hsettled := FieldType.settled_of_ofSource htype
    refine Yields.fromSource ?_ h
    refine .next fun id => .next fun column => .next fun label => .next fun multilingual =>
      .next fun required => ?_
    refine (yields_optional (P := fun v => v ≠ .null) fun v a hv ha => ?_).bind
      fun default hdefault => yields_pure ⟨hsettled, fun hnull => hdefault _ hnull rfl⟩
    cases ha
    exact hv
  | _ => cases h

theorem Entity.settled_of_ofJson {v : Json} {e : Entity} (h : ofJson v = some e) : e.Settled := by
  refine Yields.structured (r := Entity.reader) ?_ h
  refine .next fun id => .next fun name => .next fun table => .next fun key => .next fun external =>
    .next fun imported => .next fun connection => ?_
  refine (yields_required (P := fun fields => ∀ f ∈ fields, Field.Settled f)
    fun v fields hfields f hf => ?_).bind fun fields hfields =>
    .next fun indexes => .next fun label => yields_pure hfields
  obtain ⟨w, hw⟩ := exists_of_mem_list hfields f hf
  exact Field.settled_of_ofJson hw

/-- A condition of a stored query or a data collection. -/
theorem yields_condition (name : String) :
    (defaulted [name] Condition.empty fun v => some (Condition.ofJson v)).Yields
      Condition.Faithful := by
  refine yields_defaulted trivial fun v c hc => ?_
  cases hc
  exact Condition.faithful_ofJson v

theorem StoredQuery.faithful_of_ofJson {v : Json} {q : StoredQuery} (h : ofJson v = some q) :
    q.condition.Faithful := by
  refine Yields.structured (P := fun q => q.condition.Faithful) ?_ h
  exact .next fun id => .next fun name => .next fun entity =>
    (yields_condition "where").bind fun c hc => .next fun joins => yields_pure hc

theorem DataCollection.faithful_of_ofJson {v : Json} {d : DataCollection}
    (h : ofJson v = some d) : d.filter.Faithful := by
  refine Yields.structured (P := fun d => d.filter.Faithful) ?_ h
  exact .next fun id => .next fun name => .next fun source =>
    (yields_condition "filter").bind fun c hc => yields_pure hc

/-- What is written of a definition that was read is read as the same definition again. -/
theorem definitions_read_back :
    (∀ v f, Field.ofJson v = some f → Field.ofJson f.toJson = some f) ∧
    (∀ v e, Entity.ofJson v = some e → Entity.ofJson e.toJson = some e) ∧
    (∀ v q, StoredQuery.ofJson v = some q → StoredQuery.ofJson q.toJson = some q) ∧
    (∀ v d, DataCollection.ofJson v = some d → DataCollection.ofJson d.toJson = some d) ∧
    (∀ f : Field, Field.ofJson f.toJson = some f ↔ f.Settled) ∧
    (∀ e : Entity, Entity.ofJson e.toJson = some e ↔ e.Settled) ∧
    (∀ q : StoredQuery, StoredQuery.ofJson q.toJson = some q ↔ q.condition.Faithful) ∧
    ∀ d : DataCollection, DataCollection.ofJson d.toJson = some d ↔ d.filter.Faithful :=
  ⟨fun _ _ h => Field.ofJson_toJson (Field.settled_of_ofJson h),
    fun _ _ h => Entity.ofJson_toJson (Entity.settled_of_ofJson h),
    fun _ _ h => StoredQuery.ofJson_toJson (StoredQuery.faithful_of_ofJson h),
    fun _ _ h => DataCollection.ofJson_toJson (DataCollection.faithful_of_ofJson h),
    fun _ => ⟨Field.settled_of_ofJson, Field.ofJson_toJson⟩,
    fun _ => ⟨Entity.settled_of_ofJson, Entity.ofJson_toJson⟩,
    fun _ => ⟨StoredQuery.faithful_of_ofJson, StoredQuery.ofJson_toJson⟩,
    fun _ => ⟨DataCollection.faithful_of_ofJson, DataCollection.ofJson_toJson⟩⟩

/-- A formula with a filter that is no rule for one of its nodes, an object as an array with a list
and a connection, and conditions that are missing, malformed or nested. -/
theorem definitions_read_back_forms :
    (∃ f, Field.ofJson (.obj [("columnName", .str "total"), ("id", .str "f"),
        ("default", .null), ("type", .num (.int 8)), ("field", .str "lines"),
        ("fieldLink", .str "price"), ("aggregate", .obj [("sum", .obj [])]),
        ("where", .arr [.str "or", .arr [.arr [.str "state", .str "is"], .num (.int 5)]])]) =
          some f ∧ Field.ofJson f.toJson = some f) ∧
    (∃ e, Entity.ofJson (.arr [.str "o", .str "Order", .str "orders", .obj [("id", .null)],
        .bool false, .bool true, .null,
        .arr [.obj [("id", .str "state"), ("columnName", .str "state"), ("type", .str "list"),
            ("options", .arr [.arr [.str "a", .str "A"]]), ("default", .str "a")],
          .obj [("id", .str "lines"), ("columnName", .str "lines"), ("type", .str "connectObject"),
            ("linkObject", .str "l"), ("linkType", .str "many"), ("linkViaType", .str "one"),
            ("indexField", .str "number")]]]) = some e ∧ Entity.ofJson e.toJson = some e) ∧
    (∃ q, StoredQuery.ofJson (.arr [.str "q", .str "Open", .str "o", .null]) = some q ∧
      StoredQuery.ofJson q.toJson = some q) ∧
    ∃ d, DataCollection.ofJson (.obj [("id", .str "d"), ("name", .str "Mine"),
        ("datasource", .arr [.str "query", .str "q"]),
        ("filter", .obj [("rules", .arr [.obj [("rules", .bool true)]])])]) = some d ∧
      DataCollection.ofJson d.toJson = some d := by
  have hagain {α : Type} {read : Json → Option α} {write : α → Json}
      (h : ∀ v a, read v = some a → read (write a) = some a) (v : Json) (hv : (read v).isSome) :
      ∃ a, read v = some a ∧ read (write a) = some a := by
    obtain ⟨a, ha⟩ := Option.isSome_iff_exists.mp hv
    exact ⟨a, ha, h v a ha⟩
  obtain ⟨hfield, hentity, hquery, hcollection, -⟩ := definitions_read_back
  exact ⟨hagain hfield _ rfl, hagain hentity _ rfl, hagain hquery _ rfl, hagain hcollection _ rfl⟩

end CatalogQuery
