import CatalogQuery.Proofs.Compile.Keys
import CatalogQuery.Proofs.Save.Edits

/-!
# Data in the statements of a session

Usernames, keys that were read from the database and texts of records come into statements in many
ways. Main statement: in each of them every such text is quoted and read back as it is, unless it is
the call of a function.
-/

namespace CatalogQuery

open Sql

/-! ## Reads -/

theorem Sql.data_plain (distinct : Bool) (columns : List Selected) (source : Source)
    (filter : Option Predicate) : data (Select.plain distinct columns source filter).sql =
      columns.flatMap (data ·.sql) ++ filter.elim [] fun p => data p.sql := by
  cases filter <;>
    simp [Select.plain, Select.sql, Select.rowsSql, data_sepBy, List.flatMap_map]

/-- The keys of the rows that linked records are read for. -/
theorem Linked.data_select (l : Link) (keys : List Json) :
    data (select l keys).1.sql = keys.flatMap dataOf := by
  rw [select]
  dsimp only
  split <;> simp [data_plain, Selected.sql, List.flatMap_map]

/-- The value by which the links of a row are read. -/
theorem Write.data_currentSelect {b : Base} {v : LinkValues} {statement : Select}
    (h : currentSelect b v = some statement) :
    data statement.sql = dataOf (b.valueOf v.link.keys.baseColumn) := by
  rw [currentSelect] at h
  split at h
  · cases h
  · rename_i hkeys
    cases h
    simp [data_plain, Selected.sql, hkeys, LinkKeys.baseColumn]
  · rename_i hkeys
    cases h
    simp [data_plain, Selected.sql, hkeys, LinkKeys.baseColumn]

theorem Compile.condition_byKey (env : Env) (e : Entity) (key : Json) :
    (condition env (Frame.base e) (byKey key)).result =
      scalarRule .equals (.column ⟨e.table, e.keyColumn⟩) key false := by
  have hs : subject (Frame.base e) Rule.selfKey none = .ok (.column ⟨e.table, e.keyColumn⟩) := by
    show subjectOf e e.table Rule.selfKey = _
    rw [subjectOf, if_pos (.inl rfl)]
  have hself : Rule.selfKey ≠ Rule.constantKey := by decide
  rw [byKey, Condition.eq, Condition.ofRule, condition_rule, rule_of_column rfl hself hs]

/-- A record that is looked for by its key is compared with just that key. -/
theorem Compile.data_byKey {env : Env} {e : Entity} {key : Json} {p : Predicate}
    (hkey : IsScalar key)
    (h : (condition env (Frame.base e) (byKey key)).result = .ok (some p)) :
    data p.sql = dataOf key := by
  rw [condition_byKey] at h
  cases key with
  | str | num =>
    cases h
    simp [operand]
  | null | bool | arr | obj => cases hkey

namespace Directory

variable (d : Directory)

/-- A username is quoted where users are read; the other datum is how many rows are read. -/
theorem data_userSelect (username : String) :
    data (d.userSelect username).sql = [.text username, .number (.int 1)] := by
  simp [userSelect, Select.sql, Select.rowsSql, data_sepBy, Selected.sql]

theorem data_rolesSelect (username : String) :
    data (d.rolesSelect username).sql = [.text username] := by
  simp [rolesSelect, data_plain, Selected.sql]

theorem data_namesSelect (usernames : List String) :
    data (d.namesSelect usernames).sql = usernames.map .text := by
  have hnames : usernames.flatMap (fun u => [Piece.text u]) = usernames.map .text :=
    List.flatMap_pure_eq_map ..
  simpa [namesSelect, data_plain, Selected.sql, List.flatMap_map] using hnames

end Directory

/-! ## Writes -/

theorem Text.head?_trim {c : Char} (hc : isBlank c = false) (rest : List Char) :
    (trim (c :: rest)).head? = some c := by
  have hstart : trimStart (c :: rest) = c :: rest := List.dropWhile_cons_of_neg (by simp [hc])
  rw [trim, hstart, trimEnd, List.reverse_cons, List.dropWhile_append]
  split
  · rw [List.dropWhile_cons_of_neg (by simp [hc])]
    rfl
  · rw [List.reverse_append]
    rfl

/-- The text of a list or an object is not taken for a call. -/
theorem Sql.isCall_text {v : Json} (hv : v.isArr = true ∨ ∃ members, v = .obj members) :
    isCall v.text.toList = false := by
  obtain ⟨c, rest, htext, hc⟩ : ∃ c rest, v.text.toList = c :: rest ∧ (c = '[' ∨ c = '{') := by
    rw [Json.text, String.toList_ofList]
    cases v with
    | arr items => cases items <;> exact ⟨'[', _, by rw [Json.write], .inl rfl⟩
    | obj members => cases members <;> exact ⟨'{', _, by rw [Json.write], .inr rfl⟩
    | null | bool | num | str => rcases hv with hv | ⟨members, hv⟩ <;> cases hv
  have hblank : Text.isBlank c = false := by rcases hc with rfl | rfl <;> rfl
  have hpart : Text.isNamePart c = false := by rcases hc with rfl | rfl <;> rfl
  have hhead := Text.head?_trim hblank rest
  rw [isCall, htext]
  cases htrim : Text.trim (c :: rest) with
  | nil => rfl
  | cons c' rest' =>
    rw [htrim] at hhead
    cases hhead
    simp [hpart, Text.isName]

namespace Write

/-- Whether the data in a write are those of some values. -/
def HoldsOnly (values : Json → Prop) (w : Sql.Write) : Prop :=
  ∃ vs : List Json, data w.sql = vs.flatMap dataOf ∧ ∀ v ∈ vs, values v

/-- Whether a value is the key of a row or stands in it. -/
def Base.Has (b : Base) (v : Json) : Prop := v = b.key ∨ ∃ column, Json.find column b.row = some v

theorem Base.has_key (b : Base) : b.Has b.key := .inl rfl

theorem Base.has_valueOf (b : Base) (column : String) : b.Has (b.valueOf column) := by
  rw [valueOf]
  split
  · split
    · exact b.has_key
    · exact .inr ⟨column, ‹_›⟩
  · exact b.has_key

theorem HoldsOnly.mono {values values' : Json → Prop} {w : Sql.Write} (hw : HoldsOnly values w)
    (h : ∀ v, values v → values' v) : HoldsOnly values' w := by
  obtain ⟨vs, hdata, hvs⟩ := hw
  exact ⟨vs, hdata, fun v hv => h v (hvs v hv)⟩

@[simp]
theorem data_setTo (column : String) (v : Json) : data (setTo column v).value.sql = dataOf v := rfl

@[simp]
theorem data_setNull (column : String) : data (setNull column).value.sql = [] := rfl

@[simp]
theorem data_isRow (b : Base) : data b.isRow.sql = dataOf b.key := data_columnIs ..

section

variable (b : Base) (l : Link) (keyColumn : String) (target : Json)

/-- What links a row to a record holds values of the row and the key of the record. -/
theorem holdsOnly_relate :
    ∀ w ∈ relate b l keyColumn target, HoldsOnly (fun v => b.Has v ∨ v = target) w := by
  have hhas (column : String) : b.Has (b.valueOf column) := b.has_valueOf column
  rw [relate]
  split
  · rename_i foreign key _
    split
    · simp only [List.forall_mem_cons]
      refine ⟨⟨[b.valueOf key, target], ?_, ?_⟩, ⟨[target, b.key], ?_, ?_⟩,
        ⟨[b.valueOf key, target], ?_, ?_⟩, List.forall_mem_nil _⟩
      all_goals simp [data_update, hhas, b.has_key]
    · rw [List.forall_mem_singleton]
      refine ⟨[target, b.key], ?_, ?_⟩
      all_goals simp [data_update, b.has_key]
  · rename_i foreign source _
    rw [List.forall_mem_append, List.forall_mem_singleton]
    refine ⟨?_, [b.valueOf source, target], by simp [data_update], by simp [hhas]⟩
    split
    · rw [List.forall_mem_singleton]
      exact ⟨[b.valueOf source], by simp [data_update], by simp [hhas]⟩
    · exact List.forall_mem_nil _
  · rename_i junction sourceColumn targetColumn source key _
    rw [List.forall_mem_singleton]
    refine ⟨[b.valueOf source, target, b.valueOf source, target], ?_, ?_⟩
    all_goals simp [data_insertPair, hhas]

/-- So does what takes the link away. -/
theorem holdsOnly_unrelate :
    ∀ w ∈ unrelate b l keyColumn target, HoldsOnly (fun v => b.Has v ∨ v = target) w := by
  have hhas (column : String) : b.Has (b.valueOf column) := b.has_valueOf column
  rw [unrelate]
  split
  · rename_i foreign key _
    split
    · simp only [List.forall_mem_cons]
      refine ⟨⟨[b.key, target], ?_, ?_⟩, ⟨[target, b.valueOf key], ?_, ?_⟩,
        List.forall_mem_nil _⟩
      all_goals simp [data_update, hhas, b.has_key]
    · rw [List.forall_mem_singleton]
      refine ⟨[b.key, target], ?_, ?_⟩
      all_goals simp [data_update, b.has_key]
  · rename_i foreign source _
    rw [List.forall_mem_singleton]
    exact ⟨[target, b.valueOf source], by simp [data_update], by simp [hhas]⟩
  · rename_i junction sourceColumn targetColumn source key _
    rw [List.forall_mem_singleton]
    exact ⟨[b.valueOf source, target], by simp [data_delete], by simp [hhas]⟩

/-- What changes the links of a row holds values of the row, wanted keys and keys that were read. -/
theorem holdsOnly_relink (v : LinkValues) (current : List Json) :
    ∀ w ∈ relink b v current, HoldsOnly (fun k => b.Has k ∨ k ∈ v.keys ∨ k ∈ current) w := by
  intro w hw
  rcases List.mem_append.1 hw with hw | hw
  · obtain ⟨k, hk, hw⟩ := List.mem_flatMap.1 hw
    refine (holdsOnly_unrelate b _ _ k w hw).mono fun v hv => hv.imp_right ?_
    rintro rfl
    exact .inr (List.mem_of_mem_filter hk)
  · obtain ⟨k, hk, hw⟩ := List.mem_flatMap.1 hw
    refine (holdsOnly_relate b _ _ k w hw).mono fun v hv => hv.imp_right ?_
    rintro rfl
    exact .inl (List.mem_of_mem_filter hk)

/-- What deletes a row and its places in junctions holds values of the row. -/
theorem holdsOnly_delete (links : LinkMap) :
    ∀ w ∈ leaveJunctions b links ++ [.delete b.entity.table [b.isRow]], HoldsOnly b.Has w := by
  rw [List.forall_mem_append, List.forall_mem_singleton]
  refine ⟨fun w hw => ?_, [b.key], by simp [data_delete], by simp [b.has_key]⟩
  obtain ⟨l, -, hl⟩ := List.mem_filterMap.1 hw
  split at hl
  · rename_i junction sourceColumn targetColumn source key _
    cases hl
    exact ⟨[b.valueOf source], by simp [data_delete], by simp [b.has_valueOf]⟩
  · cases hl

end

/-! ## Rows -/

theorem data_assignments (columns : List (String × Json)) :
    ((Session.assignments columns).flatMap fun a => data a.value.sql) =
      columns.flatMap fun c => dataOf c.2 := by
  rw [Session.assignments, List.flatMap_map]
  rfl

theorem data_newTimes (settings : Settings) :
    ((Session.newTimes settings).flatMap fun a => data a.value.sql) = [] := by
  rw [Session.newTimes]
  cases settings.createdAt <;> cases settings.updatedAt <;> rfl

/-- A new row holds the values of its columns. -/
theorem data_newRow (settings : Settings) (table : String) (columns : List (String × Json)) :
    data (Sql.Write.insert table (Session.assignments columns ++ Session.newTimes settings)).sql =
      columns.flatMap fun c => dataOf c.2 := by
  rw [data_insert, List.flatMap_append, data_assignments, data_newTimes, List.append_nil]

/-- A row that is changed holds the values of the changed columns and its key. -/
theorem data_changedRow (settings : Settings) (b : Base) (table : String)
    (columns : List (String × Json)) :
    data (Sql.Write.update table (Session.assignments columns ++
      if settings.updatedAt then [⟨"updated_at", .now⟩] else []) [b.isRow]).sql =
      (columns.flatMap fun c => dataOf c.2) ++ dataOf b.key := by
  rw [data_update, List.flatMap_append, data_assignments]
  cases settings.updatedAt <;> simp [Operand.sql]

/-- The texts that the values of a record bring into its columns: those given for fields of texts,
those that a new record takes where none is given, and the translations of all other such fields,
which are the text of one list or object. -/
inductive Brings (settings : Settings) (e : Entity) (input : Json.Members) (creating : Bool) :
    String → String → Prop
  | given {f : Field} {s : String} (hf : f ∈ e.fields) (htype : f.type = .text ∨ f.type = .longText)
    (hsingle : f.multilingual = false) (hs : supplied input f = some (.str s)) :
    Brings settings e input creating f.column s
  | default {f : Field} {s : String} (hcreating : creating = true) (hf : f ∈ e.fields)
    (htype : f.type = .text ∨ f.type = .longText) (hsingle : f.multilingual = false)
    (hnone : supplied input f = none) (hs : f.default = some (.str s)) :
    Brings settings e input creating f.column s
  | translations {v : Json} (hmultilingual : e.hasMultilingual = true)
    (hv : Json.find settings.translationsColumn input = some v)
    (hnested : v.isArr = true ∨ ∃ members, v = .obj members) :
    Brings settings e input creating settings.translationsColumn v.text

section

variable {settings : Settings} {catalog : Catalog} {e : Entity} {links : LinkMap}
  {input : Json.Members} {creating : Bool} {p : Prepared} {f : Field} {column s : String}

theorem asText_nested {v : Json} (h : v.isArr = true ∨ ∃ members, v = .obj members) :
    asText v = .str v.text := by
  cases v with
  | arr | obj => rfl
  | null | bool | num | str => rcases h with h | ⟨members, h⟩ <;> cases h

/-- A text that is accepted for a field of texts is stored as it is. -/
theorem mem_columns_of_prepare (h : prepare settings catalog e links input creating = .ok p)
    (herrors : p.errors = []) (hs : Brings settings e input creating column s) :
    (column, .str s) ∈ p.columns := by
  have hfield {f : Field} (hf : f ∈ e.fields) (htype : f.type = .text ∨ f.type = .longText)
      (hsingle : f.multilingual = false) (hs : taken input creating f = some (.str s)) :
      (f.column, .str s) ∈ p.columns := by
    have hvirtual : f.isVirtual = false := by
      rw [Field.isVirtual]
      rcases htype with htype | htype <;> rw [htype]
    have hconnection : f.isConnection = false := by
      rw [Field.isConnection, Field.connection?]
      rcases htype with htype | htype <;> rw [htype] <;> rfl
    have hvalue : columnValue f (.str s) = .str s := by
      rcases htype with htype | htype <;> simp only [columnValue, htype]
    have hmem := (accepted_of_prepare h herrors hf hvirtual hsingle hs).column hconnection
    rwa [hvalue] at hmem
  cases hs with
  | given hf htype hsingle hs => exact hfield hf htype hsingle (taken_of_supplied hs)
  | default hcreating hf htype hsingle hnone hs =>
    subst hcreating
    exact hfield hf htype hsingle (taken_of_default hnone hs)
  | translations hmultilingual hv hnested =>
    obtain ⟨inputs, -, -, -, hcolumns⟩ := exists_of_prepare h
    rw [hcolumns, if_pos hmultilingual, hv]
    refine List.mem_append_right _ (List.mem_singleton.2 ?_)
    rw [← asText_nested hnested]

end

end Write

/-! ## Saving -/

/-- What a statement sets in one row. -/
def Sql.Write.row : Sql.Write → List Assignment
  | insert _ row | update _ row _ => row
  | insertPair _ _ _ | delete _ _ => []

/-- The object and the values of a call that saves a record, and whether the record is new. -/
def Call.saves? : Call → Option (String × Json × Bool)
  | create entity values => some (entity, values, true)
  | update entity _ values => some (entity, values, false)
  | _ => none

namespace Session

open Write

/-- Whether the first of some statements, if there is one, sets columns to their values and holds
nothing else than these values and keys. -/
def SetsFirst (columns : List (String × Json)) : List Sql.Write → Prop
  | [] => True
  | w :: _ => assignments columns <+: w.row ∧
    ∃ keys : List Json, data w.sql = (columns.flatMap fun c => dataOf c.2) ++ keys.flatMap dataOf

theorem SetsFirst.of_beginning {columns : List (String × Json)} {ws us : List Sql.Write}
    (h : SetsFirst columns ws) (hus : us <+: ws) : SetsFirst columns us := by
  cases us with
  | nil => trivial
  | cons w us =>
    obtain ⟨rest, rfl⟩ := hus
    exact h

theorem setsFirst_newRow (settings : Settings) (table : String) (columns : List (String × Json))
    (rest : List Sql.Write) : SetsFirst columns
      (.insert table (assignments columns ++ newTimes settings) :: rest) :=
  ⟨List.prefix_append _ _, [], by rw [data_newRow, List.flatMap_nil, List.append_nil]⟩

theorem Update.setsFirst_rowWrites (u : Update) (settings : Settings)
    (hcolumns : u.prepared.columns ≠ []) (rest : List Sql.Write) :
    SetsFirst u.prepared.columns (u.rowWrites settings ++ rest) := by
  have hrow : ∀ times : List Assignment,
      (assignments u.prepared.columns ++ times).isEmpty = false := by
    intro times
    cases hc : u.prepared.columns with
    | nil => exact absurd hc hcolumns
    | cons => rfl
  rw [Update.rowWrites, hrow, if_neg (by simp)]
  exact ⟨List.prefix_append _ _, [u.base.key], by simp [data_changedRow]⟩

variable {s : Session} {caller : Caller} {entity : String} {values : Json} {t : List Exchange}
  {catalog : Catalog} {e : Entity} {input : Json.Members} {column text : String} {v : Json}

/-- Whether a column is set to a value wherever the values of a record are accepted. -/
def Sets (s : Session) (catalog : Catalog) (e : Entity) (input : Json.Members) (creating : Bool)
    (column : String) (v : Json) : Prop :=
  ∀ links p, prepare s.settings catalog e links input creating = .ok p → p.errors = [] →
    (column, v) ∈ p.columns

section

variable (hcatalog : ∀ c, t.head? = some ⟨.catalog, c⟩ → c = catalog)
  (he : catalog.entity entity = .ok e) (hinput : inputMembers values = .ok input)
include hcatalog he hinput

/-- A program that checks the values of a record goes on with what is known of them. -/
theorem exists_prepared {α : Type} {creating : Bool} {a : α}
    {next : Catalog → Entity → LinkMap → Json.Members → Prepared → Program α}
    (h : (do
      let catalog ← Program.catalog
      let e ← Program.ofResult (catalog.entity entity)
      let links ← Program.linksOf entity
      let input ← Program.ofResult (inputMembers values)
      let p ← Program.ofResult (prepare s.settings catalog e links input creating)
      next catalog e links input p : Program α).Runs t (.ok a)) :
    ∃ links p u, prepare s.settings catalog e links input creating = .ok p ∧
      (next catalog e links input p).Runs u (.ok a) := by
  obtain ⟨c, t₁, rfl, h₁⟩ := Program.Runs.catalog_bind_iff.1 h
  obtain rfl := hcatalog c rfl
  obtain ⟨e', hobject, h₂⟩ := Program.Runs.ofResult_bind_ok.1 h₁
  cases he.symm.trans hobject
  obtain ⟨_, t₃, links, rfl, -, h₃⟩ := Program.Runs.bind_ok.1 h₂
  obtain ⟨input', hmembers, h₄⟩ := Program.Runs.ofResult_bind_ok.1 h₃
  cases hinput.symm.trans hmembers
  obtain ⟨p, hp, h₅⟩ := Program.Runs.ofResult_bind_ok.1 h₄
  exact ⟨links, p, t₃, hp, h₅⟩

theorem setsFirst_createPlan {plan : Plan SaveOutcome}
    (hs : s.Sets catalog e input true column v)
    (h : (s.createPlan entity values caller).Runs t (.ok plan)) :
    ∃ columns, (column, v) ∈ columns ∧
      ∀ number, SetsFirst columns (plan.statements number) := by
  obtain ⟨links, p, u, hprepare, hrest⟩ := exists_prepared hcatalog he hinput h
  split at hrest
  · cases hrest.2
    exact ⟨[(column, v)], by simp, fun _ => trivial⟩
  · rename_i herrors
    obtain ⟨_, _, own, rfl, -, -, hplan⟩ := Program.Runs.bind_ok.1 hrest
    cases hplan
    have hmem := hs links p hprepare (by simpa using herrors)
    exact ⟨_, List.mem_append_right own hmem, fun _ => setsFirst_newRow ..⟩

theorem setsFirst_updatePlan {key : Json} {plan : Plan SaveOutcome}
    (hs : s.Sets catalog e input false column v)
    (h : (s.updatePlan entity key values caller).Runs t (.ok plan)) :
    ∃ columns, (column, v) ∈ columns ∧
      ∀ number, SetsFirst columns (plan.statements number) := by
  obtain ⟨links, p, u, hprepare, hrest⟩ := exists_prepared hcatalog he hinput h
  split at hrest
  · cases hrest.2
    exact ⟨[(column, v)], by simp, fun _ => trivial⟩
  · rename_i herrors
    obtain ⟨_, _, base, rfl, -, hrest⟩ := Program.Runs.bind_ok.1 hrest
    obtain ⟨_, _, stored, rfl, -, -, hplan⟩ := Program.Runs.bind_ok.1 hrest
    cases hplan
    have hmem := hs links p hprepare (by simpa using herrors)
    exact ⟨_, hmem, fun _ => Update.setsFirst_rowWrites _ _ (List.ne_nil_of_mem hmem) _⟩

/-- The first statement of a call that saves a record sets what its values are accepted as. -/
theorem setsFirst_of_sets {call : Call} {creating : Bool} {r : Result Unit}
    (hcall : call.saves? = some (entity, values, creating))
    (hs : s.Sets catalog e input creating column v)
    (h : (call.program s caller).Runs t r) :
    ∃ columns, (column, v) ∈ columns ∧ SetsFirst columns (Exchange.writes t) := by
  have hplanned {planning : Program (Plan SaveOutcome)}
      (hplanning : call.plan? s caller = some (Plan.map (fun _ => ()) <$> planning))
      (hplan : ∀ before plan, (∀ c, before.head? = some ⟨.catalog, c⟩ → c = catalog) →
        planning.Runs before (.ok plan) → ∃ columns, (column, v) ∈ columns ∧
          ∀ number, SetsFirst columns (plan.statements number)) :
      ∃ columns, (column, v) ∈ columns ∧ SetsFirst columns (Exchange.writes t) := by
    obtain ⟨⟨error, -, -, hnone⟩ | ⟨plan, before, rest, rfl, hbefore, hnone, hstart, -⟩, -⟩ :=
      writesAsPlanned_of_runs hplanning h
    · exact ⟨[(column, v)], by simp, hnone ▸ trivial⟩
    · obtain ⟨r', hrun, hr⟩ := Program.Runs.map_iff.1 hbefore
      cases r' with
      | error error => cases hr
      | ok plan' =>
        cases hr
        have hfirst (c : Catalog) (hc : before.head? = some ⟨.catalog, c⟩) : c = catalog := by
          refine hcatalog c ?_
          rw [List.head?_append, hc]
          rfl
        obtain ⟨columns, hmem, hsets⟩ := hplan before plan' hfirst hrun
        refine ⟨columns, hmem, ?_⟩
        rw [Exchange.writes_append, hnone, List.nil_append]
        refine (hsets (Exchange.firstNumber rest)).of_beginning ?_
        cases plan' <;> exact hstart
  cases call with
  | create entity' values' =>
    cases hcall
    exact hplanned rfl fun before plan hbefore hrun =>
      setsFirst_createPlan hbefore he hinput hs hrun
  | update entity' key values' =>
    cases hcall
    exact hplanned rfl fun before plan hbefore hrun =>
      setsFirst_updatePlan hbefore he hinput hs hrun
  | find | count | delete | relate | unrelate | user | roles | scopes | scopesOf | displayNames =>
    cases hcall

/-- The first statement of a call that saves a record sets the texts that are given for its fields.
-/
theorem setsFirst_of_saves {call : Call} {creating : Bool} {r : Result Unit}
    (hcall : call.saves? = some (entity, values, creating))
    (hs : Brings s.settings e input creating column text)
    (h : (call.program s caller).Runs t r) :
    ∃ columns, (column, .str text) ∈ columns ∧ SetsFirst columns (Exchange.writes t) :=
  setsFirst_of_sets hcatalog he hinput hcall
    (fun _ _ hprepare herrors => mem_columns_of_prepare hprepare herrors hs) h

end

end Session

/-- Wherever a username, a key that was read or a text of a record comes into a statement, it is
there as one datum, and this is the quoted text, unless the text is the call of a function. Alone
and in every statement of a session without calculated fields a quoted text is read back as that
text.

* where users, their roles and their names are read, a username is quoted whatever it looks like;
* the rule for a username holds it as one value, whatever the column of the field stands for: beside
  what the field is compared by, inside a pattern where the field names several users;
* so does the rule for keys that were read, with the ids of the options that they name; a flag is
  compared with zero, and the constant with nothing;
* a record is found by its key, linked records by the keys of their owners, and the links of a row
  by a value of the row;
* links are written with values of the row and keys that are wanted or were read;
* the first statement that saves a record sets the texts that it brings, its translations as one
  text. -/
theorem texts_are_quoted :
    (∀ s, dataOf (.str s) = [.text s] ↔ isCall s.toList = false) ∧
    (∀ v : Json, (v.isArr = true ∨ ∃ members, v = .obj members) →
      dataOf (.str v.text) = [.text v.text]) ∧
    (∀ s, scan .normal (chars [.text s]) = ([.text s.toList], .normal)) ∧
    (∀ s caller (call : Call), (call.program s caller).Meets Request.Uncalculated
      (fun r => ∀ sql ∈ r.statement?, ∀ a b text, sql = a ++ .text text :: b →
        scan .normal sql.toText.toList = (tokens a ++ .text text.toList :: tokens b, .normal))
      fun _ => True) ∧
    (∀ (d : Directory) username usernames,
      data (d.userSelect username).sql = [.text username, .number (.int 1)] ∧
      data (d.rolesSelect username).sql = [.text username] ∧
      data (d.namesSelect usernames).sql = usernames.map .text) ∧
    (∀ env frame (f : Field) username negated p, f.isUser = true →
      (Compile.condition env frame (Reduce.userRule f username negated)).result = .ok (some p) →
      (f.column = Rule.constantKey ∧ data p.sql = [] ∨
        Compile.HoldsOne [] (.str username) (data p.sql) ∨
        ∃ inner e table g x, Compile.subject frame f.column none = .ok (.field e table g) ∧
          (Compile.fieldExpr env inner frame e table g).result = .ok x ∧
          Compile.HoldsOne (data x.sql) (Compile.stored g (.str username)) (data p.sql)) ∧
      ∀ e table, f.column ≠ Rule.constantKey →
        Compile.subject frame f.column none = .ok (.field e table f) →
        ∃ x, (∀ inner, (Compile.fieldExpr env inner frame e table f).result = .ok x) ∧
          data p.sql = (if f.isMultiValued then [] else data x.sql) ++
            Compile.keyData f (data x.sql) negated (.str username)) ∧
    (∀ env inner frame key op keys joined p, op ∈ Compile.keyOperators →
      (∀ k ∈ keys, Compile.IsScalar k) →
      (Compile.rule env inner frame ⟨key, op, .arr keys, joined⟩).result = .ok (some p) →
      key = Rule.constantKey ∧ data p.sql = [] ∨ data p.sql = keys.flatMap dataOf ∨
        ∃ e table f x, Compile.subject frame key joined = .ok (.field e table f) ∧
          (Compile.fieldExpr env inner frame e table f).result = .ok x ∧
          (f.type = .boolean → data p.sql = data x.sql ++ [.number (.int 0)]) ∧
          (f.type ≠ .boolean →
            data p.sql = (if f.isMultiValued ∨ keys = [] then [] else data x.sql) ++
              keys.flatMap (Compile.keyData f (data x.sql) op.isNegative))) ∧
    (∀ env e key p, Compile.IsScalar key →
      (Compile.condition env (Compile.Frame.base e) (byKey key)).result = .ok (some p) →
      data p.sql = dataOf key) ∧
    (∀ l keys, data (Linked.select l keys).1.sql = keys.flatMap dataOf) ∧
    (∀ b v statement, Write.currentSelect b v = some statement →
      data statement.sql = dataOf (b.valueOf v.link.keys.baseColumn)) ∧
    (∀ b l keyColumn k, ∀ w ∈ Write.relate b l keyColumn k ++ Write.unrelate b l keyColumn k,
      Write.HoldsOnly (fun v => b.Has v ∨ v = k) w) ∧
    (∀ b (v : Write.LinkValues) current, ∀ w ∈ Write.relink b v current,
      Write.HoldsOnly (fun k => b.Has k ∨ k ∈ v.keys ∨ k ∈ current) w) ∧
    (∀ (b : Write.Base) links,
      ∀ w ∈ Write.leaveJunctions b links ++ [.delete b.entity.table [b.isRow]],
        Write.HoldsOnly b.Has w) ∧
    ∀ (s : Session) caller (call : Call) entity values creating t r,
      call.saves? = some (entity, values, creating) → (call.program s caller).Runs t r →
      ∀ catalog e input column text, t.head? = some ⟨.catalog, catalog⟩ →
        catalog.entity entity = .ok e → Write.inputMembers values = .ok input →
        Write.Brings s.settings e input creating column text →
        ∃ columns, (column, .str text) ∈ columns ∧
          Session.SetsFirst columns (Exchange.writes t) := by
  refine ⟨dataOf_str_iff, fun v hv => (dataOf_str_iff _).2 (isCall_text hv), fun s => ?_,
    fun s caller call => ?_, fun d username usernames =>
      ⟨d.data_userSelect username, d.data_rolesSelect username, d.data_namesSelect usernames⟩,
    fun env frame f username negated p hf h => ⟨Compile.holdsOne_userRule h,
      fun e table hkey hs => Compile.data_userRule hf hkey hs h⟩,
    fun env inner frame key op keys joined p hop hkeys h =>
      Compile.data_rule_keys hop hkeys h,
    fun env e key p hkey h => Compile.data_byKey hkey h, Linked.data_select,
    fun b v statement h => Write.data_currentSelect h, fun b l keyColumn k => ?_,
    Write.holdsOnly_relink, Write.holdsOnly_delete, ?_⟩
  · have hsealed : Sealed [.text s] := by simp
    exact hsealed.scan_chars
  · refine (call.composed_program s caller).weaken fun r hr sql hsql a b text htext => ?_
    rw [(Request.Composed.isReadBack hr sql hsql).scan_toText, htext, tokens_text]
  · rw [List.forall_mem_append]
    exact ⟨Write.holdsOnly_relate b l keyColumn k, Write.holdsOnly_unrelate b l keyColumn k⟩
  · intro s caller call entity values creating t r hcall h catalog e input column text hhead he
      hinput hs
    have hcatalog (c : Catalog) (hc : t.head? = some ⟨.catalog, c⟩) : c = catalog := by
      rw [hhead] at hc
      cases hc
      rfl
    exact Session.setsFirst_of_saves hcatalog he hinput hcall hs h

/-- The name of o'neil is quoted where notes are asked for theirs, and so is the title of a new one.
-/
theorem texts_are_quoted_note :
    let owner := Field.new "o" "owner" (.user false)
    let title := Field.new "t" "title" .text
    let note := Entity.new "note" "Note" "NOTE" [owner, title]
    let catalog : Catalog := ⟨[note], [], []⟩
    let env : Compile.Env := ⟨{}, catalog, LinkMap.ofCatalog {} catalog, "en", []⟩
    let compiled := Compile.condition env (Compile.Frame.base note)
      (Reduce.userRule owner "o'neil" false)
    let s : Session := ⟨{}, {}, .tenant⟩
    let system : Caller := ⟨none, "en", true⟩
    let input := [("title", Json.str "It is NOW()"), ("uuid", .str "n1")]
    let call : Call := .create "note" (.obj input)
    let answer := Request.steady catalog (LinkMap.ofCatalog {} catalog) fun _ => [input]
    let t := ((call.program s system).transcript answer).1
    (∃ p, compiled.result = .ok (some p) ∧ data p.sql = [.text "o'neil"]) ∧
      (call.program s system).Runs t (.ok ()) ∧
      ∃ columns, ("title", .str "It is NOW()") ∈ columns ∧
        Session.SetsFirst columns (Exchange.writes t) ∧
        dataOf (.str "It is NOW()") = [.text "It is NOW()"] := by
  intro owner title note catalog env compiled s system input call answer t
  obtain ⟨hquoted, -, -, -, -, huser, -, -, -, -, -, -, -, hsaves⟩ := texts_are_quoted
  refine ⟨⟨_, rfl, ?_⟩, ?_⟩
  · obtain ⟨x, hx, hdata⟩ := (huser env (Compile.Frame.base note) owner "o'neil" false _
      rfl rfl).2 note "NOTE" (by decide) rfl
    have hcolumn : Sql.Expr.column ⟨"NOTE", "owner"⟩ = x :=
      Except.ok.inj (hx fun _ _ => .pure none)
    subst hcolumn
    exact hdata
  · have hrun : (call.program s system).Runs t (.ok ()) := by
      apply Program.Runs.of_transcript
      dsimp only [s, system, owner, title, note, catalog, input, call, answer]
      rfl
    have hbrings : Write.Brings s.settings note input true title.column "It is NOW()" :=
      .given (List.mem_cons_of_mem owner List.mem_cons_self) (.inl rfl) rfl rfl
    obtain ⟨columns, hmem, hsets⟩ := hsaves s system call "note" (.obj input) true t (.ok ()) rfl
      hrun catalog note input "title" "It is NOW()" rfl rfl rfl hbrings
    exact ⟨hrun, columns, hmem, hsets, (hquoted _).2 rfl⟩

/-- A user and a title that look like calls are passed on as calls. The name of one of several users
and the label of an option stand there in another form, and so do the texts of several languages. -/
theorem texts_in_other_forms :
    let owner := Field.new "o" "owner" (.user false)
    let watchers := Field.new "w" "watchers" (.user true)
    let state := Field.new "s" "state" (.list [⟨"o", "Open"⟩] false)
    let done := Field.new "d" "done" .boolean
    let title := Field.new "t" "title" .text
    let body : Field := { Field.new "b" "body" .longText with multilingual := true }
    let note := Entity.new "note" "Note" "NOTE" [owner, watchers, state, done, title, body]
    let catalog : Catalog := ⟨[note], [], []⟩
    let env : Compile.Env := ⟨{}, catalog, LinkMap.ofCatalog {} catalog, "en", []⟩
    let held (c : Condition) (ds : List Piece) : Prop := ∃ p,
      (Compile.condition env (Compile.Frame.base note) c).result = .ok (some p) ∧ data p.sql = ds
    let among (column key : String) : Condition := .ofRule column .in (.arr [.str key])
    let s : Session := ⟨{}, {}, .tenant⟩
    let system : Caller := ⟨none, "en", true⟩
    let sent (column : String) (v : Json) : List (List Piece) :=
      let input := [(column, v), ("uuid", .str "n1")]
      let answer := Request.steady catalog (LinkMap.ofCatalog {} catalog) fun _ => [input]
      let call : Call := .create "note" (.obj input)
      (Exchange.writes ((call.program s system).transcript answer).1).map fun w => data w.sql
    held (Reduce.userRule owner "NOW()" false) [.call "NOW()".toList] ∧
      held (among "owner" "NOW()") [.call "NOW()".toList] ∧
      sent "title" (.str "NOW()") = [[.text "n1", .call "NOW()".toList]] ∧
      held (Reduce.userRule watchers "ann" false) [.text "%\"ann\"%"] ∧
      held (among "state" "Open") [.text "o"] ∧
      held (among "done" "no") [.number (.int 0)] ∧
      sent "translations" (.arr [.obj [("body", .str "Hi")]]) =
        [[.text "n1", .text "[\x7b\"body\":\"Hi\"\x7d]"]] := by
  intro owner watchers state done title body note catalog env held among s system sent
  refine ⟨⟨_, rfl, rfl⟩, ⟨_, rfl, rfl⟩, ?_, ⟨_, rfl, rfl⟩, ⟨_, rfl, rfl⟩, ⟨_, rfl, rfl⟩, ?_⟩
  all_goals
    dsimp only [sent, s, system, owner, watchers, state, done, title, body, note, catalog]
    rfl

end CatalogQuery
