import CatalogQuery.Proofs.Save.Required

/-!
# The columns of a new row

A new row is put together from the key of its object, the fields that take a value, the translations and
the times that are noted. Each of the four names a column once. Main statement: the columns of a new row
in order, and when one of them is named twice.
-/

namespace CatalogQuery

open Sql Write

namespace Write

/-- Whether a field has a column of its own in the row of a new record. -/
def enters (input : Json.Members) (f : Field) : Bool :=
  !f.isVirtual && !f.multilingual && !f.isConnection && (taken input true f).isSome

/-- The column that holds the translations, if any are given. -/
def translationNames (settings : Settings) (e : Entity) (input : Json.Members) : List String :=
  if e.hasMultilingual && (Json.find settings.translationsColumn input).isSome then
    [settings.translationsColumn]
  else []

section

variable {settings : Settings} {catalog : Catalog} {e : Entity} {links : LinkMap}
  {input : Json.Members} {p : Prepared} {f : Field} {i : FieldInput}

/-- A field that is not refused comes to its column just if it has one in the row. -/
theorem name_of_fieldInput (h : fieldInput catalog links input true f = .ok i)
    (herror : i.error? = none) :
    i.column?.map Prod.fst = if enters input f then some f.column else none := by
  cases hvirtual : f.isVirtual with
  | true =>
    rw [fieldInput, if_pos hvirtual] at h
    simp only [enters, hvirtual, Bool.not_true, Bool.false_and, Bool.false_eq_true, if_false]
    split at h <;> cases h
    · rfl
    · rfl
    · cases herror
  | false =>
  cases hmultilingual : f.multilingual with
  | true =>
    rw [fieldInput, if_neg (by simp [hvirtual]), if_pos hmultilingual] at h
    cases h
    simp [enters, hmultilingual, FieldInput.column?]
  | false =>
  rw [fieldInput_of_plain hvirtual hmultilingual] at h
  cases htaken : taken input true f with
  | none =>
    simp only [enters, htaken, Option.isSome_none, Bool.and_false, Bool.false_eq_true, if_false]
    rw [htaken] at h
    cases h
    split <;> rfl
  | some v =>
    rw [htaken] at h
    cases accepts_of_accept h with
    | blank | fault => cases herror
    | unlinked _ _ hconnection | links _ _ hconnection =>
      simp [enters, hconnection, FieldInput.column?]
    | column _ _ hconnection =>
      simp [enters, hvirtual, hmultilingual, hconnection, htaken, FieldInput.column?]

/-- The columns of accepted values are those of the fields that enter the row, in their order, and then
that of the translations. -/
theorem names_of_prepare (h : prepare settings catalog e links input true = .ok p)
    (herrors : p.errors = []) :
    p.columns.map Prod.fst =
      (e.fields.filter (enters input)).map Field.column ++ translationNames settings e input := by
  obtain ⟨inputs, hinputs, herrors', -, hcolumns⟩ := exists_of_prepare h
  rw [herrors', List.filterMap_eq_nil_iff] at herrors
  have hfields : (inputs.filterMap FieldInput.column?).map Prod.fst =
      (e.fields.filter (enters input)).map Field.column := by
    have hall := Result.mapM_ok.1 hinputs
    clear hinputs hcolumns herrors'
    generalize e.fields = fields at hall
    induction hall with
    | nil => rfl
    | @cons f i fields inputs hfield _ ih =>
      obtain ⟨hi, hrest⟩ := List.forall_mem_cons.1 herrors
      have hname := name_of_fieldInput hfield hi
      cases hcolumn : i.column? <;> cases henters : enters input f <;>
        simp [hcolumn, henters] at hname
      · simpa [hcolumn, henters] using ih hrest
      · simpa [hcolumn, henters, hname] using ih hrest
  rw [hcolumns, List.map_append, hfields, translationNames]
  congr 1
  cases e.hasMultilingual with
  | false => rfl
  | true => cases Json.find settings.translationsColumn input <;> rfl

end

end Write

namespace Sql.Write

/-- Whether a statement inserts a row, be it there already or not. -/
def IsInsert (w : Sql.Write) : Prop := ∃ table row, w = .insert table row

end Sql.Write

namespace Session

/-- The columns of the times that a new row notes. -/
def timeNames (settings : Settings) : List String :=
  (if settings.createdAt then ["created_at"] else []) ++
    if settings.updatedAt then ["updated_at"] else []

namespace Opening

/-- The column of the key, unless the database counts it up. -/
def keyNames (o : Opening) : List String :=
  match o.entity.key with
  | .uuid => [o.entity.keyColumn]
  | .id => []

/-- The fields that have a column of their own in the new row. -/
def entering (o : Opening) : List Field := o.entity.fields.filter (enters o.input)

/-- The columns of the new row, in order. -/
def rowNames (o : Opening) (settings : Settings) : List String :=
  o.keyNames ++ (o.entering.map Field.column ++ translationNames settings o.entity o.input) ++
    timeNames settings

theorem Of.append {o : Opening} {entity : String} {values : Json} {t : List Exchange}
    (h : o.Of entity values t) (u : List Exchange) : o.Of entity values (t ++ u) := by
  obtain ⟨links, rest, rfl, hlinks⟩ := h.requests
  exact ⟨h.object, h.members, links, rest ++ u, rfl, hlinks⟩

end Opening

section

variable {s : Session} {entity : String} {values : Json} {caller : Caller} {t : List Exchange}

theorem names_of_ownColumns {o : Opening} {own : List (String × Json)}
    (h : (ownColumns o.entity o.input).Runs t (.ok own)) : own.map Prod.fst = o.keyNames := by
  unfold ownColumns at h
  unfold Opening.keyNames
  cases hkey : o.entity.key with
  | uuid =>
    simp only [hkey] at h
    obtain ⟨_, _, key, -, -, -, hown⟩ := Program.Runs.bind_ok.1 h
    cases hown
    rfl
  | id =>
    simp only [hkey] at h
    cases h.2
    rfl

theorem names_of_assignments (columns : List (String × Json)) :
    (assignments columns).map Assignment.column = columns.map Prod.fst := by
  simp [assignments, setTo]

theorem names_of_newTimes (settings : Settings) :
    (newTimes settings).map Assignment.column = timeNames settings := by
  simp only [newTimes, timeNames, List.map_append]
  cases settings.createdAt <;> cases settings.updatedAt <;> rfl

/-- Links are not written by inserting a row that may be there already. -/
theorem not_isInsert_of_relate {b : Base} {v : LinkValues} {k : Json} {w : Sql.Write}
    (hw : w ∈ Write.relate b v.link v.keyColumn k) : ¬ w.IsInsert := by
  have htouches := touches_relate b v k w hw
  rintro ⟨table, row, rfl⟩
  rw [Touches] at htouches
  split at htouches
  · obtain ⟨_, _, h⟩ := htouches
    cases h
  · obtain ⟨_, _, h⟩ := htouches
    cases h
  · obtain ⟨_, h⟩ | ⟨_, _, h⟩ := htouches <;> cases h

/-- A call that creates a record refuses its values, or it is going to insert one row with the columns of
what is accepted. -/
theorem insert_of_createPlan {plan : Plan SaveOutcome}
    (h : (s.createPlan entity values caller).Runs t (.ok plan)) :
    (∃ errors, plan = .listed [] (pure (.invalid errors))) ∨
      ∃ (o : Opening) (row : List Assignment) (others : Nat → List Sql.Write)
        (last : Nat → Program SaveOutcome), o.Of entity values t ∧
        plan = .numbered (.insert o.entity.table row) others last ∧
        row.map Assignment.column = o.rowNames s.settings ∧
        ∀ number, ∀ w ∈ others number, ¬ w.IsInsert := by
  obtain ⟨o, ho⟩ := exists_opening h
  rcases runs_opening ho h with ⟨_, -, herror⟩ | ⟨p, u, hp, hplan, -⟩
  · cases herror
  dsimp only at hplan
  split at hplan
  · obtain ⟨-, hplan⟩ := hplan
    cases hplan
    exact .inl ⟨p.errors, rfl⟩
  · rename_i herrors
    have hnone : p.errors = [] := by simpa using herrors
    obtain ⟨t₁, t₂, own, rfl, hown, -, hplan⟩ := Program.Runs.bind_ok.1 hplan
    cases hplan
    refine .inr ⟨o, _, _, _, ho, rfl, ?_, fun number w hw => ?_⟩
    · rw [List.map_append, names_of_assignments, names_of_newTimes, List.map_append,
        names_of_ownColumns hown, names_of_prepare hp hnone]
      rfl
    · obtain ⟨v, -, hw⟩ := List.mem_flatMap.1 hw
      obtain ⟨k, -, hw⟩ := List.mem_flatMap.1 hw
      exact not_isInsert_of_relate hw

namespace Opening

/-- The columns that a new row has besides those of its fields. -/
def reserved (o : Opening) (settings : Settings) : List String :=
  o.keyNames ++ translationNames settings o.entity o.input ++ timeNames settings

/-- Where the fields have different columns, a row names one twice just if a field that enters it has a
reserved one, or if the translations have that of the key or of a time. -/
theorem nodup_rowNames_iff {o : Opening} (settings : Settings)
    (hfields : (o.entity.fields.map Field.column).Nodup) :
    (o.rowNames settings).Nodup ↔ (∀ f ∈ o.entering, f.column ∉ o.reserved settings) ∧
      ∀ c ∈ translationNames settings o.entity o.input, c ∉ o.keyNames ++ timeNames settings := by
  have hentering : (o.entering.map Field.column).Nodup :=
    hfields.sublist (List.filter_sublist.map _)
  have hfixed : (o.keyNames ++ timeNames settings).Nodup := by
    unfold keyNames timeNames Entity.keyColumn
    cases o.entity.key <;> cases settings.createdAt <;> cases settings.updatedAt <;> decide
  have htranslations : (translationNames settings o.entity o.input).Nodup := by
    unfold translationNames
    split <;> simp
  -- The fields come first, and of the others the translations.
  have hrow : (o.rowNames settings).Perm (o.entering.map Field.column ++ o.reserved settings) := by
    simp only [rowNames, reserved, List.append_assoc]
    exact List.perm_append_comm_assoc ..
  have hothers : (o.reserved settings).Perm
      (translationNames settings o.entity o.input ++ (o.keyNames ++ timeNames settings)) := by
    simp only [reserved, List.append_assoc]
    exact List.perm_append_comm_assoc ..
  have happend {as bs : List String} (ha : as.Nodup) :
      (as ++ bs).Nodup ↔ (∀ a ∈ as, a ∉ bs) ∧ bs.Nodup := by
    simp only [List.nodup_append, ha, true_and, List.forall_mem_ne, and_comm]
  rw [hrow.nodup_iff, happend hentering, hothers.nodup_iff, happend htranslations,
    and_iff_left hfixed, List.forall_mem_map]

end Opening

/-- Whatever comes of it, a call that creates a record inserts one row at most, and first of all. The
columns are those of the key, of the fields that take a value, of the translations and of the times, with
a value for each. Where the fields have different columns, one is named twice just if a field has that of
the key, of the translations or of a time, or the translations have one of the others. -/
theorem create_columns {r : Result SaveOutcome} (h : (s.create entity values caller).Runs t r) :
    (Exchange.writes t = [] ∧ ∀ row, r ≠ .ok (.saved row)) ∨
      ∃ (o : Opening) (row : List Assignment) (others : List Sql.Write), o.Of entity values t ∧
        Exchange.writes t = .insert o.entity.table row :: others ∧
        (∀ w ∈ others, ¬ w.IsInsert) ∧ row.map Assignment.column = o.rowNames s.settings ∧
        (∃ names values : List Sql, names.length = values.length ∧
          names = (o.rowNames s.settings).map Sql.name ∧
          (Sql.Write.insert o.entity.table row).sql =
            word "INSERT INTO " ++ name o.entity.table ++ word " (" ++ sepBy ", " names ++
              word ") VALUES (" ++ sepBy ", " values ++ word ")") ∧
        ((o.entity.fields.map Field.column).Nodup →
          ((o.rowNames s.settings).Nodup ↔
            (∀ f ∈ o.entering, f.column ∉ o.reserved s.settings) ∧
              ∀ c ∈ translationNames s.settings o.entity o.input,
                c ∉ o.keyNames ++ timeNames s.settings)) := by
  rw [create_eq] at h
  rcases Program.Runs.bind_iff.1 h with ⟨error, hplan, rfl⟩ | ⟨t₁, t₂, plan, rfl, hplan, hrest⟩
  · exact .inl ⟨(s.onlyReads_createPlan ..).writes_eq_nil hplan, fun _ h => by cases h⟩
  have hplanning := (s.onlyReads_createPlan ..).writes_eq_nil hplan
  rw [Exchange.writes_append, hplanning, List.nil_append]
  obtain ⟨errors, rfl⟩ | ⟨o, row, others, last, ho, rfl, hnames, hothers⟩ :=
    insert_of_createPlan hplan
  · obtain ⟨rfl, rfl⟩ := hrest
    exact .inl ⟨rfl, fun _ h => by cases h⟩
  have hends := (s.yields_createPlan entity values caller).of_runs hplan
  obtain ⟨hstart, -⟩ := writes_of_carryOut hends hrest
  obtain ⟨answer, u, rfl, -⟩ := hrest
  obtain ⟨rest, hwrites, hrest⟩ :=
    (List.prefix_cons_iff.1 hstart).resolve_left (List.cons_ne_nil _ _)
  refine .inr ⟨o, row, rest, ho.append _, hwrites, fun w hw => ?_, hnames, ?_,
    Opening.nodup_rowNames_iff s.settings⟩
  · exact hothers _ w (hrest.subset hw)
  · refine ⟨_, row.map fun a => a.value.sql, ?_, rfl, ?_⟩
    · rw [← hnames]
      simp only [List.length_map]
    · rw [← hnames, List.map_map]
      rfl

end

/-- A note with a title and translations of its text: five columns, each of them once. -/
theorem create_columns_note :
    let s : Session := ⟨{}, {}, .tenant⟩
    let system : Caller := ⟨none, "en", true⟩
    let text := { Field.new "g" "text" .longText with multilingual := true }
    let note := Entity.new "note" "Note" "NOTE" [.new "f" "title" .text, text]
    let catalog : Catalog := ⟨[note], [], []⟩
    let answer := Request.steady catalog (LinkMap.ofCatalog {} catalog)
      fun _ => [[("uuid", .str "n1")]]
    let values : Json := .obj [("title", .str "a"), ("translations", .str "[]"), ("uuid", .str "n1")]
    let t := ((s.create "note" values system).transcript answer).1
    (s.create "note" values system).Runs t (.ok (.saved [("uuid", .str "n1")])) ∧
      ∃ o : Opening, o.Of "note" values t ∧
        o.rowNames {} = ["uuid", "title", "translations", "created_at", "updated_at"] ∧
        ∃ row, Exchange.writes t = [.insert "NOTE" row] ∧
          row.map Assignment.column = o.rowNames {} := by
  intro s system text note catalog answer values t
  have hrun : (s.create "note" values system).Runs t (.ok (.saved [("uuid", .str "n1")])) := by
    apply Program.Runs.of_transcript
    dsimp only [s, system, text, note, catalog, answer, values]
    rfl
  have hinsert : Exchange.writes t = [.insert "NOTE" [setTo "uuid" (.str "n1"),
      setTo "title" (.str "a"), setTo "translations" (.str "[]"), ⟨"created_at", .now⟩,
      ⟨"updated_at", .now⟩]] := by
    dsimp only [t, s, system, text, note, catalog, answer, values]
    rfl
  obtain ⟨-, hunsaved⟩ | ⟨o, row, others, ho, hwrites, -, hnames, -⟩ := create_columns hrun
  · exact absurd rfl (hunsaved _)
  · obtain ⟨hrow, -⟩ := List.cons.inj (hinsert.symm.trans hwrites)
    obtain ⟨-, rfl⟩ := Sql.Write.insert.inj hrow
    exact ⟨hrun, o, ho, hnames.symm, _, hinsert, hnames⟩

/-- A note whose key is among its fields is given one: the key is a column of the row twice, as its key
and as a field, although the fields have different columns. -/
theorem create_columns_key :
    let s : Session := ⟨{}, {}, .tenant⟩
    let system : Caller := ⟨none, "en", true⟩
    let note := Entity.new "note" "Note" "NOTE" [.new "k" "uuid" .uuid, .new "f" "title" .text]
    let catalog : Catalog := ⟨[note], [], []⟩
    let answer := Request.steady catalog (LinkMap.ofCatalog {} catalog)
      fun _ => [[("uuid", .str "n1")]]
    let values : Json := .obj [("title", .str "a"), ("uuid", .str "n1")]
    let t := ((s.create "note" values system).transcript answer).1
    (note.fields.map Field.column).Nodup ∧
      (s.create "note" values system).Runs t (.ok (.saved [("uuid", .str "n1")])) ∧
      Exchange.writes t = [.insert "NOTE" [setTo "uuid" (.str "n1"), setTo "uuid" (.str "n1"),
        setTo "title" (.str "a"), ⟨"created_at", .now⟩, ⟨"updated_at", .now⟩]] := by
  intro s system note catalog answer values t
  refine ⟨by decide, ?_, ?_⟩
  · apply Program.Runs.of_transcript
    dsimp only [s, system, note, catalog, answer, values]
    rfl
  · dsimp only [t, s, system, note, catalog, answer, values]
    rfl

end Session

end CatalogQuery
