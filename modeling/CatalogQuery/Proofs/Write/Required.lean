import CatalogQuery.Proofs.Json.Text
import CatalogQuery.Proofs.Link.Mirror
import CatalogQuery.Proofs.Write.Accepted
import CatalogQuery.Proofs.Write.Several

/-!
# Values of required fields

A required field is refused where it has no value, and what it takes is looked at before it is turned
into what is stored. Main statements: the values of a record are refused for exactly the offences of its
fields, in their order; and a value that is there and fits the type of its field is stored as something,
unless it is hollow: it names nothing, though it is no empty text or list itself.
-/

namespace CatalogQuery.Write

/-! ## Offences -/

/-- What a field is refused for: it is computed and given a value, it is required and has none, or its
value does not fit. Fields whose values are kept per language are not looked at. -/
def offence? (input : Json.Members) (creating : Bool) (f : Field) : Option FieldError :=
  if f.isVirtual then
    ((supplied input f).filter (!·.isNull)).map fun _ => ⟨f.column, "Computed fields are read-only"⟩
  else if f.multilingual then none
  else
    match taken input creating f with
    | none => if creating && f.required then some ⟨f.column, "Value is required"⟩ else none
    | some v =>
      if f.required && lacksValue v then some ⟨f.column, "Value is required"⟩
      else (f.type.check v).map fun fault => ⟨f.column, fault.message⟩

section

variable {catalog : Catalog} {links : LinkMap} {f : Field} {v : Json} {i : FieldInput}
  {input : Json.Members} {creating : Bool}

/-- A value is refused for what the field offends against. -/
theorem error?_accept (h : accept catalog links f v = .ok i) :
    i.error? = if f.required && lacksValue v then some ⟨f.column, "Value is required"⟩
      else (f.type.check v).map fun fault => ⟨f.column, fault.message⟩ := by
  cases accepts_of_accept h with
  | blank hrequired hlacks =>
    rw [hrequired, hlacks]
    rfl
  | fault hpresent hcheck =>
    rw [hpresent, hcheck]
    rfl
  | unlinked hpresent hcheck | links hpresent hcheck | column hpresent hcheck =>
    rw [hpresent, hcheck]
    rfl

theorem error?_fieldInput (h : fieldInput catalog links input creating f = .ok i) :
    i.error? = offence? input creating f := by
  rw [offence?]
  split
  · rename_i hvirtual
    rw [fieldInput, if_pos hvirtual] at h
    cases hsupplied : supplied input f with
    | none =>
      rw [hsupplied] at h
      cases h
      rfl
    | some v =>
      rw [hsupplied] at h
      cases v <;> cases h <;> rfl
  rename_i hvirtual
  split
  · rename_i hmultilingual
    rw [fieldInput, if_neg hvirtual, if_pos hmultilingual] at h
    cases h
    rfl
  rename_i hmultilingual
  rw [fieldInput_of_plain (by simpa using hvirtual) (by simpa using hmultilingual)] at h
  cases htaken : taken input creating f with
  | none =>
    rw [htaken] at h
    cases h
    dsimp only
    split <;> rfl
  | some v =>
    rw [htaken] at h
    exact error?_accept h

end

/-- The values of a record are refused for the offences of its fields, in order. -/
theorem errors_of_prepare {settings : Settings} {catalog : Catalog} {e : Entity} {links : LinkMap}
    {input : Json.Members} {creating : Bool} {p : Prepared}
    (h : prepare settings catalog e links input creating = .ok p) :
    p.errors = e.fields.filterMap (offence? input creating) := by
  obtain ⟨inputs, hinputs, herrors, -, -⟩ := exists_of_prepare h
  rw [herrors]
  have hall := Result.mapM_ok.1 hinputs
  clear hinputs herrors
  generalize e.fields = fields at hall
  induction hall with
  | nil => rfl
  | cons hfield _ ih => rw [List.filterMap_cons, List.filterMap_cons, error?_fieldInput hfield, ih]

section

variable {catalog : Catalog} {links : LinkMap}
  (hlinks : ∀ l ∈ links.links, ∃ target, catalog.entity l.target = .ok target)

include hlinks

theorem exists_accept (f : Field) (v : Json) : ∃ i, accept catalog links f v = .ok i := by
  rw [accept]
  split
  · exact ⟨_, rfl⟩
  split
  · exact ⟨_, rfl⟩
  split
  · split
    · exact ⟨_, rfl⟩
    · rename_i l hl
      obtain ⟨target, htarget⟩ := hlinks l (LinkMap.mem_of_get hl)
      rw [htarget]
      exact ⟨_, rfl⟩
  · exact ⟨_, rfl⟩

/-- Where the links lead to objects of the catalog, checking the values of a record comes to an end. -/
theorem exists_prepare (settings : Settings) {e : Entity} (input : Json.Members) (creating : Bool) :
    ∃ p, prepare settings catalog e links input creating = .ok p := by
  have hfield (f : Field) : ∃ i, fieldInput catalog links input creating f = .ok i := by
    rw [fieldInput]
    repeat' split
    all_goals first | exact ⟨_, rfl⟩ | exact exists_accept hlinks f _
  obtain ⟨inputs, hinputs⟩ : ∃ inputs,
      e.fields.mapM (fieldInput catalog links input creating) = .ok inputs := by
    cases h : e.fields.mapM (fieldInput catalog links input creating) with
    | ok inputs => exact ⟨inputs, rfl⟩
    | error err =>
      obtain ⟨f, -, hf⟩ := Result.exists_of_mapM_error h
      obtain ⟨i, hi⟩ := hfield f
      cases hi.symm.trans hf
  exact ⟨_, by rw [prepare, hinputs]⟩

end

/-! ## What is stored -/

/-- Whether a value that is there and fits the type of its field names nothing all the same: a user
without an id, an option by the empty text, or no user at all where several may be named. -/
inductive Hollow (f : Field) : Json → Prop
  | user {members : Json.Members} (htype : f.type = .user false)
      (hid : lacksValue ((Json.find "id" members).getD .null) = true) : Hollow f (.obj members)
  | users {v : Json} (htype : f.type = .user true) (hnobody : Users.usernames v = []) : Hollow f v
  | option {options : List ListOption} {multiple : Bool} {s : String}
      (htype : f.type = .list options multiple) (hid : ListOption.idOf options s = some "") :
    Hollow f (.str s)

/-- Whether a column of a field holds nothing: no value, or the array of no users. -/
def HoldsNothing (f : Field) (cell : Json) : Prop :=
  lacksValue cell = true ∨ f.type = .user true ∧ cell = arrayText []

theorem lacksValue_of_text {v : Json} (h : v.plain = v.text) (hblank : v.isBlank = false) :
    lacksValue (.str v.text) = false := by
  have htext : v.text ≠ "" := h ▸ Json.plain_ne_empty hblank
  simpa [lacksValue] using htext

theorem lacksValue_arrayText (texts : List String) : lacksValue (arrayText texts) = false :=
  lacksValue_of_text (v := Json.strings texts) rfl rfl

theorem lacksValue_asText {v : Json} (h : lacksValue v = false) : lacksValue (asText v) = false := by
  cases v with
  | arr items => exact lacksValue_of_text (v := .arr items) rfl rfl
  | obj members => exact lacksValue_of_text (v := .obj members) rfl rfl
  | null | bool | num | str => exact h

/-- A value of a field that is no connection is stored as something, unless it is hollow. -/
theorem not_holdsNothing_columnValue {f : Field} {v : Json} (hvirtual : f.isVirtual = false)
    (hconnection : f.isConnection = false) (hlacks : lacksValue v = false)
    (hcheck : f.type.check v = none) (hhollow : ¬ Hollow f v) :
    ¬ HoldsNothing f (columnValue f v) := by
  obtain ⟨id, column, label, type, multilingual, required, default⟩ := f
  have hkept {type : FieldType} {cell : Json} (htype : type ≠ .user true)
      (hcell : lacksValue cell = false) :
      ¬ HoldsNothing ⟨id, column, label, type, multilingual, required, default⟩ cell := by
    rintro (h | ⟨h, -⟩)
    · rw [hcell] at h
      cases h
    · exact htype h
  -- Nothing is stored of an option without an id, and of users or a user that are nobody.
  cases type with
  | text | longText | uuid | number | autoIndex | date | dateTime => exact hkept (by simp) hlacks
  | formula | calculate => cases hvirtual
  | connection => cases hconnection
  | json => exact hkept (by simp) (lacksValue_asText hlacks)
  | boolean =>
    refine hkept (by simp) ?_
    cases v with
    | null => cases hlacks
    | bool | num | str | arr | obj => rfl
  | list options multiple =>
    refine hkept (by simp) ?_
    cases v with
    | null => cases hlacks
    | bool | num | obj => cases hcheck
    | str s =>
      cases hid : ListOption.idOf options s with
      | none => simp [FieldType.check, FieldType.checkOption, Json.isNull, hid] at hcheck
      | some o =>
        have ho : o ≠ "" := fun h => hhollow (.option rfl (h ▸ hid))
        simpa [columnValue, optionId, hid, lacksValue] using ho
    | arr items =>
      cases multiple with
      | true => exact lacksValue_arrayText _
      | false => cases hcheck
  | user multiple =>
    cases multiple with
    | true =>
      rintro (h | ⟨-, h⟩)
      · rw [columnValue_users rfl, lacksValue_arrayText] at h
        cases h
      · rw [columnValue_users rfl] at h
        exact hhollow (.users rfl ((holdsArray_arrayText _).unique (h ▸ holdsArray_arrayText [])))
    | false =>
      refine hkept (by simp) ?_
      cases v with
      | null => cases hlacks
      | bool | num | arr => cases hcheck
      | str s => exact hlacks
      | obj members => exact Bool.eq_false_iff.2 fun h => hhollow (.user rfl h)

/-- A field comes to no other column than its own. -/
theorem column_of_fieldInput {catalog : Catalog} {links : LinkMap} {input : Json.Members}
    {creating : Bool} {f : Field} {column : String} {cell : Json}
    (h : fieldInput catalog links input creating f = .ok (.column column cell)) : column = f.column := by
  obtain hi | ⟨_, hi⟩ | ⟨v, haccepts⟩ := accepts_of_fieldInput h
  · cases hi
  · cases hi
  · cases haccepts
    rfl

/-- Whether a field has its column for itself: nothing else of the object is stored there. -/
structure HasColumn (settings : Settings) (e : Entity) (f : Field) : Prop where
  fields : ∀ g ∈ e.fields, g.column = f.column → g = f
  translations : e.hasMultilingual = true → f.column ≠ settings.translationsColumn

/-- Whether the value that a required field takes is there and is kept: as something in the column of the
field unless it is hollow, or as the wanted keys of its link unless it names no record. -/
structure Keeps (settings : Settings) (e : Entity) (links : LinkMap) (f : Field) (v : Json)
    (columns : List (String × Json)) (wanted : List LinkValues) : Prop where
  present : lacksValue v = false
  column : f.isConnection = false → (f.column, columnValue f v) ∈ columns ∧
    (¬ Hollow f v → ¬ HoldsNothing f (columnValue f v))
  alone : f.isConnection = false → HasColumn settings e f →
    ∀ cell, (f.column, cell) ∈ columns → cell = columnValue f v
  links : f.isConnection = true → ∀ l, links.get f.id = some l →
    ∃ w ∈ wanted, w.link = l ∧ (Compile.linkedKeys v w.keyColumn ≠ [] → w.keys ≠ [])

section

variable {settings : Settings} {catalog : Catalog} {e : Entity} {links : LinkMap}
  {input : Json.Members} {creating : Bool} {p : Prepared} {f : Field} {v : Json}

/-- What is stored in the column is what the field comes to. -/
theorem HasColumn.fieldInput (h : HasColumn settings e f)
    (hprepare : prepare settings catalog e links input creating = .ok p) {cell : Json}
    (hcell : (f.column, cell) ∈ p.columns) :
    fieldInput catalog links input creating f = .ok (.column f.column cell) := by
  obtain ⟨inputs, hinputs, -, -, hcolumns⟩ := exists_of_prepare hprepare
  rw [hcolumns] at hcell
  rcases List.mem_append.1 hcell with hcell | hcell
  · obtain ⟨i, hi, hcolumn⟩ := List.mem_filterMap.1 hcell
    obtain ⟨g, hg, hfield⟩ := exists_of_forall₂ (Result.mapM_ok.1 hinputs).flip hi
    cases i with
    | column =>
      cases hcolumn
      cases h.fields g hg (column_of_fieldInput hfield).symm
      exact hfield
    | nothing | refused | links => cases hcolumn
  · split at hcell
    · rename_i hmultilingual
      obtain ⟨_, -, htranslations⟩ := Option.map_eq_some_iff.1 (Option.mem_toList.1 hcell)
      exact absurd (congrArg Prod.fst htranslations).symm (h.translations hmultilingual)
    · cases hcell

theorem Keeps.of_prepare (h : prepare settings catalog e links input creating = .ok p)
    (herrors : p.errors = []) (hf : f ∈ e.fields) (hrequired : f.required = true)
    (hvirtual : f.isVirtual = false) (hmultilingual : f.multilingual = false)
    (hv : taken input creating f = some v) : Keeps settings e links f v p.columns p.links := by
  have haccepted := accepted_of_prepare h herrors hf hvirtual hmultilingual hv
  have hpresent : lacksValue v = false := by
    simpa [hrequired] using haccepted.present
  refine ⟨hpresent, fun hconnection => ⟨haccepted.column hconnection, ?_⟩,
    fun hconnection halone cell hcell => ?_, fun hconnection l hl => ?_⟩
  · exact not_holdsNothing_columnValue hvirtual hconnection hpresent haccepted.fits
  · -- Nothing else is stored in the column, so the cell is what the value comes to.
    have hfield := halone.fieldInput h hcell
    rw [fieldInput_of_plain hvirtual hmultilingual, hv] at hfield
    cases accepts_of_accept hfield
    rfl
  · obtain ⟨target, -, hmem⟩ := haccepted.links hconnection l hl
    exact ⟨wantedOf l target v, hmem, rfl, fun hkeys hnil => hkeys (Json.distinct_eq_nil.1 hnil)⟩

end

/-- A required field of a new record takes a value if nothing is refused. -/
theorem exists_taken_of_offence? {input : Json.Members} {f : Field} (hrequired : f.required = true)
    (hvirtual : f.isVirtual = false) (hmultilingual : f.multilingual = false)
    (h : offence? input true f = none) : ∃ v, taken input true f = some v := by
  cases htaken : taken input true f with
  | some v => exact ⟨v, rfl⟩
  | none => simp [offence?, hvirtual, hmultilingual, htaken, hrequired] at h

end CatalogQuery.Write
