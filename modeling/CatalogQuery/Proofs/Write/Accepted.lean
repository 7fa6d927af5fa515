import CatalogQuery.Proofs.Session.Outcomes
import CatalogQuery.Write.Values

/-!
# Values that are accepted

The values of a record are checked field by field and then put together. Main statements: what a value
that is there comes to, case by case; and where no value of the record is refused, the value that a field
takes fits and is kept, as the wanted keys of a link or in the column of the field.
-/

namespace CatalogQuery

theorem Field.isVirtual_of_connection {f : Field} {c : Connection} (h : f.connection? = some c) :
    f.isVirtual = false := by
  rw [Field.connection?] at h
  split at h
  · rename_i htype
    rw [Field.isVirtual, htype]
  · cases h

namespace Write

/-! ## One field -/

/-- The records that a value links to. -/
def wantedOf (l : Link) (target : Entity) (x : Json) : LinkValues :=
  let keyColumn := l.keys.linkedColumn target
  ⟨l, keyColumn, Json.distinct [] (Compile.linkedKeys x keyColumn)⟩

/-- The value that a field takes: the one that is given, or the default in a new record. -/
def taken (input : Json.Members) (creating : Bool) (f : Field) : Option Json :=
  (supplied input f).or (if creating then f.default else none)

section

variable {catalog : Catalog} {links : LinkMap} {f : Field} {v : Json} {i : FieldInput}
  {input : Json.Members} {creating : Bool}

theorem taken_of_supplied (h : supplied input f = some v) : taken input creating f = some v := by
  rw [taken, h]
  rfl

theorem taken_of_default (h : supplied input f = none) (hdefault : f.default = some v) :
    taken input true f = some v := by
  rw [taken, h, hdefault]
  rfl

/-- What a value that is there comes to: it is refused, it is left out with a connection that leads
nowhere, or it is kept as links or in a column. -/
inductive Accepts (catalog : Catalog) (links : LinkMap) (f : Field) (v : Json) : FieldInput → Prop
  | blank (hrequired : f.required = true) (hlacks : lacksValue v = true) :
    Accepts catalog links f v (required f)
  | fault {fault : ValueFault} (hpresent : (f.required && lacksValue v) = false)
      (hcheck : f.type.check v = some fault) :
    Accepts catalog links f v (.refused ⟨f.column, fault.message⟩)
  | unlinked (hpresent : (f.required && lacksValue v) = false) (hcheck : f.type.check v = none)
      (hconnection : f.isConnection = true) (hnone : links.get f.id = none) :
    Accepts catalog links f v .nothing
  | links {l : Link} {target : Entity} (hpresent : (f.required && lacksValue v) = false)
      (hcheck : f.type.check v = none) (hconnection : f.isConnection = true)
      (hl : links.get f.id = some l) (htarget : catalog.entity l.target = .ok target) :
    Accepts catalog links f v (.links (wantedOf l target v))
  | column (hpresent : (f.required && lacksValue v) = false) (hcheck : f.type.check v = none)
      (hconnection : f.isConnection = false) :
    Accepts catalog links f v (.column f.column (columnValue f v))

theorem accepts_of_accept (h : accept catalog links f v = .ok i) : Accepts catalog links f v i := by
  rw [accept] at h
  split at h
  · rename_i hlacks
    cases h
    rw [Bool.and_eq_true] at hlacks
    exact .blank hlacks.1 hlacks.2
  rename_i hpresent
  rw [Bool.not_eq_true] at hpresent
  split at h
  · rename_i hcheck
    cases h
    exact .fault hpresent hcheck
  rename_i hcheck
  split at h
  · rename_i hconnection
    split at h
    · rename_i hnone
      cases h
      exact .unlinked hpresent hcheck hconnection hnone
    · rename_i hl
      split at h
      · cases h
      · rename_i htarget
        cases h
        exact .links hpresent hcheck hconnection hl htarget
  · rename_i hconnection
    cases h
    exact .column hpresent hcheck (by simpa using hconnection)

/-- What a field comes to once it is neither computed nor kept per language. -/
theorem fieldInput_of_plain (hvirtual : f.isVirtual = false) (hmultilingual : f.multilingual = false) :
    fieldInput catalog links input creating f =
      match taken input creating f with
      | some v => accept catalog links f v
      | none => .ok (if creating && f.required then required f else .nothing) := by
  rw [fieldInput, hvirtual, hmultilingual, taken]
  cases supplied input f with
  | some v => rfl
  | none =>
    cases creating with
    | false => rfl
    | true => cases f.default <;> rfl

/-- A field comes to nothing or is refused, unless it takes a value that comes to something. -/
theorem accepts_of_fieldInput (h : fieldInput catalog links input creating f = .ok i) :
    i = .nothing ∨ (∃ error, i = .refused error) ∨ ∃ v, Accepts catalog links f v i := by
  rw [fieldInput] at h
  split at h
  · split at h <;> cases h
    · exact .inl rfl
    · exact .inl rfl
    · exact .inr (.inl ⟨_, rfl⟩)
  split at h
  · cases h
    exact .inl rfl
  split at h
  · exact .inr (.inr ⟨_, accepts_of_accept h⟩)
  split at h
  · split at h
    · exact .inr (.inr ⟨_, accepts_of_accept h⟩)
    · cases h
      split
      · exact .inr (.inl ⟨_, rfl⟩)
      · exact .inl rfl
  · cases h
    exact .inl rfl

end

/-! ## All fields -/

namespace FieldInput

/-- The links of an accepted value. -/
def links? : FieldInput → Option LinkValues
  | links v => some v
  | _ => none

def column? : FieldInput → Option (String × Json)
  | column name value => some (name, value)
  | _ => none

def error? : FieldInput → Option FieldError
  | refused error => some error
  | _ => none

end FieldInput

/-- What the fields come to is divided without a change of order. -/
theorem foldl_add (inputs : List FieldInput) (p : Prepared) :
    inputs.foldl Prepared.add p =
      ⟨p.columns ++ inputs.filterMap FieldInput.column?, p.links ++ inputs.filterMap FieldInput.links?,
        p.errors ++ inputs.filterMap FieldInput.error?⟩ := by
  induction inputs generalizing p with
  | nil => simp
  | cons i rest ih =>
    cases i <;> simp [ih, Prepared.add, FieldInput.column?, FieldInput.links?, FieldInput.error?,
      List.filterMap_cons]

section

variable {settings : Settings} {catalog : Catalog} {e : Entity} {links : LinkMap}
  {input : Json.Members} {creating : Bool} {p : Prepared} {f : Field} {v : Json}

/-- What the fields come to makes up what is accepted. Translations come after the other columns and
are not refused. -/
theorem exists_of_prepare (h : prepare settings catalog e links input creating = .ok p) :
    ∃ inputs, e.fields.mapM (fieldInput catalog links input creating) = .ok inputs ∧
      p.errors = inputs.filterMap FieldInput.error? ∧
      p.links = inputs.filterMap FieldInput.links? ∧
      p.columns = inputs.filterMap FieldInput.column? ++
        if e.hasMultilingual then
          ((Json.find settings.translationsColumn input).map fun v =>
            (settings.translationsColumn, asText v)).toList
        else [] := by
  rw [prepare] at h
  cases hinputs : e.fields.mapM (fieldInput catalog links input creating) with
  | error e =>
    rw [hinputs] at h
    cases h
  | ok inputs =>
    have hparts : inputs.foldl Prepared.add Prepared.empty =
        ⟨inputs.filterMap FieldInput.column?, inputs.filterMap FieldInput.links?,
          inputs.filterMap FieldInput.error?⟩ := foldl_add inputs Prepared.empty
    rw [hinputs] at h
    dsimp only at h
    rw [hparts] at h
    refine ⟨inputs, rfl, ?_⟩
    split at h
    · rename_i hmultilingual
      rw [if_pos hmultilingual]
      split at h <;> rename_i hfind <;> cases h <;> rw [hfind]
      · exact ⟨rfl, rfl, rfl⟩
      · exact ⟨rfl, rfl, (List.append_nil _).symm⟩
    · rename_i hmultilingual
      cases h
      rw [if_neg hmultilingual]
      exact ⟨rfl, rfl, (List.append_nil _).symm⟩

/-- Whether a value of a field fits and is among what is kept of a record: as the wanted keys of the
link of the field, if it has one, or else in its column. -/
structure Accepted (catalog : Catalog) (links : LinkMap) (f : Field) (v : Json) (p : Prepared) :
    Prop where
  present : (f.required && lacksValue v) = false
  fits : f.type.check v = none
  links : f.isConnection = true → ∀ l, links.get f.id = some l →
    ∃ target, catalog.entity l.target = .ok target ∧ wantedOf l target v ∈ p.links
  column : f.isConnection = false → (f.column, columnValue f v) ∈ p.columns

/-- The value that a field takes is kept where no value of the record is refused. -/
theorem accepted_of_prepare (h : prepare settings catalog e links input creating = .ok p)
    (herrors : p.errors = []) (hf : f ∈ e.fields) (hvirtual : f.isVirtual = false)
    (hmultilingual : f.multilingual = false) (hv : taken input creating f = some v) :
    Accepted catalog links f v p := by
  obtain ⟨inputs, hinputs, herrors', hlinks, hcolumns⟩ := exists_of_prepare h
  obtain ⟨i, hi, hfield⟩ := exists_of_forall₂ (Result.mapM_ok.1 hinputs) hf
  have hrefused : i.error? = none := by
    rw [herrors'] at herrors
    exact List.filterMap_eq_nil_iff.1 herrors i hi
  rw [fieldInput_of_plain hvirtual hmultilingual, hv] at hfield
  -- Of what the value may have come to, the two refusals are ruled out.
  cases accepts_of_accept hfield with
  | blank | fault => cases hrefused
  | unlinked hpresent hfits hconnection hnone =>
    exact ⟨hpresent, hfits, by simp [hnone], by simp [hconnection]⟩
  | @links _ target hpresent hfits hconnection hl htarget =>
    refine ⟨hpresent, hfits, fun _ l' hl' => ?_, by simp [hconnection]⟩
    cases hl.symm.trans hl'
    refine ⟨target, htarget, ?_⟩
    rw [hlinks]
    exact List.mem_filterMap.2 ⟨_, hi, rfl⟩
  | column hpresent hfits hconnection =>
    refine ⟨hpresent, hfits, by simp [hconnection], fun _ => ?_⟩
    rw [hcolumns]
    exact List.mem_append_left _ (List.mem_filterMap.2 ⟨_, hi, rfl⟩)

/-- A value that is given for a connection becomes its wanted keys when no value is refused. -/
theorem mem_links_of_prepare (h : prepare settings catalog e links input false = .ok p)
    (herrors : p.errors = []) (hf : f ∈ e.fields) {c : Connection}
    (hconnection : f.connection? = some c) (hmultilingual : f.multilingual = false)
    (hv : supplied input f = some v) {l : Link} (hl : links.get f.id = some l) :
    ∃ target, catalog.entity l.target = .ok target ∧ f.type.check v = none ∧
      wantedOf l target v ∈ p.links := by
  have haccepted := accepted_of_prepare h herrors hf (Field.isVirtual_of_connection hconnection)
    hmultilingual (taken_of_supplied hv)
  have hisConnection : f.isConnection = true := by
    rw [Field.isConnection, hconnection]
    rfl
  obtain ⟨target, htarget, hmem⟩ := haccepted.links hisConnection l hl
  exact ⟨target, htarget, haccepted.fits, hmem⟩

/-- The keys of wanted records are of the column by which the link knows them. -/
theorem keyColumn_of_prepare (h : prepare settings catalog e links input creating = .ok p) :
    ∀ w ∈ p.links, ∃ target, catalog.entity w.link.target = .ok target ∧
      w.keyColumn = w.link.keys.linkedColumn target := by
  obtain ⟨inputs, hinputs, -, hlinks, -⟩ := exists_of_prepare h
  intro w hw
  rw [hlinks] at hw
  obtain ⟨i, hi, hlink⟩ := List.mem_filterMap.1 hw
  obtain ⟨f, -, hf⟩ := exists_of_forall₂ (Result.mapM_ok.1 hinputs).flip hi
  obtain rfl | ⟨error, rfl⟩ | ⟨v, haccepts⟩ := accepts_of_fieldInput hf
  · cases hlink
  · cases hlink
  cases haccepts with
  | blank | fault | unlinked | column => cases hlink
  | links _ _ _ _ htarget =>
    cases hlink
    exact ⟨_, htarget, rfl⟩

end

end Write

end CatalogQuery
