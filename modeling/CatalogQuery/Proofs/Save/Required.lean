import CatalogQuery.Proofs.Save.FailStop
import CatalogQuery.Proofs.Save.FoundFirst
import CatalogQuery.Proofs.Write.Required

/-!
# Saving required fields

A record is saved with something in each required field, or its values are refused and nothing is
written. Main statement: a call that saves values comes to the offences of the fields, in their order,
where there are any; otherwise what it writes keeps the value of every required field.
-/

namespace CatalogQuery

open Sql Write

namespace Write

/-- Whether a field has to have a value of its own. Computed fields have none, and those that are kept
per language are stored in another place. -/
structure Demands (f : Field) : Prop where
  required : f.required = true
  stored : f.isVirtual = false
  single : f.multilingual = false

end Write

namespace Session

/-- The metadata and the values that a call goes by. -/
structure Opening where
  catalog : Catalog
  links : LinkMap
  entity : Entity
  input : Json.Members

namespace Opening

/-- Whether a run that saves values of an object goes by these, as its first requests find them out. -/
structure Of (o : Opening) (entity : String) (values : Json) (t : List Exchange) : Prop where
  object : o.catalog.entity entity = .ok o.entity
  members : inputMembers values = .ok o.input
  requests : ∃ (links : Links) (rest : List Exchange),
    t = ⟨.catalog, o.catalog⟩ :: ⟨.links, links⟩ :: ⟨.consult entity, ()⟩ :: rest ∧
    links entity = .ok o.links

/-- Whether the links lead to objects of the catalog. -/
def Leads (o : Opening) : Prop :=
  ∀ l ∈ o.links.links, ∃ target, o.catalog.entity l.target = .ok target

def offences (o : Opening) (creating : Bool) : List FieldError :=
  o.entity.fields.filterMap (offence? o.input creating)

/-- Whether every required field that takes a value, as in a new record each does, has it kept by what
is stored. -/
def Stores (o : Opening) (settings : Settings) (creating : Bool) (columns : List (String × Json))
    (wanted : List LinkValues) : Prop :=
  ∀ f ∈ o.entity.fields, Demands f →
    (creating = true → ∃ v, taken o.input creating f = some v) ∧
    ∀ v, taken o.input creating f = some v → Keeps settings o.entity o.links f v columns wanted

variable {o : Opening} {entity : String} {values : Json} {t : List Exchange}

/-- The links of a catalog lead to objects of it. -/
theorem leads_of_resolve {settings : Settings}
    (h : o.links = (LinkMap.resolve settings o.catalog o.entity).1) : o.Leads := by
  intro l hl
  rw [h] at hl
  obtain ⟨f, -, c, -, hlink⟩ := LinkMap.mem_resolve.1 hl
  obtain ⟨target, htarget, hid, -, -, -⟩ := Link.exists_of_ofField hlink
  have hnamed : target.id = c.target := by simpa using List.find?_some htarget
  refine ⟨target, ?_⟩
  rw [hid, hnamed, Catalog.entity, htarget]

/-- What a call that saves values goes by is settled by its run. -/
theorem Of.unique {o' : Opening} (h : o.Of entity values t) (h' : o'.Of entity values t) :
    o = o' := by
  obtain ⟨links, rest, rfl, hlinks⟩ := h.requests
  obtain ⟨links', rest', ht, hlinks'⟩ := h'.requests
  obtain ⟨c, m, e, input⟩ := o
  obtain ⟨c', m', e', input'⟩ := o'
  cases ht
  cases hlinks.symm.trans hlinks'
  cases h.object.symm.trans h'.object
  cases h.members.symm.trans h'.members
  rfl

theorem Stores.of_prepare {settings : Settings} {creating : Bool} {p : Prepared}
    (h : prepare settings o.catalog o.entity o.links o.input creating = .ok p) (herrors : p.errors = []) :
    o.Stores settings creating p.columns p.links := by
  intro f hf hdemands
  refine ⟨fun hcreating => ?_, fun v hv => ?_⟩
  · subst hcreating
    rw [errors_of_prepare h, List.filterMap_eq_nil_iff] at herrors
    exact exists_taken_of_offence? hdemands.required hdemands.stored hdemands.single (herrors f hf)
  · exact .of_prepare h herrors hf hdemands.required hdemands.stored hdemands.single hv

end Opening

section

variable {s : Session} {caller : Caller} {entity : String} {values : Json} {t : List Exchange}
  {creating : Bool} {α : Type} {next : Catalog → Entity → LinkMap → Json.Members → Prepared → Program α}

/-- The beginning that saving values has, whatever comes after the check of the values. -/
def opening (s : Session) (entity : String) (values : Json) (creating : Bool)
    (next : Catalog → Entity → LinkMap → Json.Members → Prepared → Program α) : Program α := do
  let catalog ← Program.catalog
  let e ← Program.ofResult (catalog.entity entity)
  let links ← Program.linksOf entity
  let input ← Program.ofResult (inputMembers values)
  let p ← Program.ofResult (prepare s.settings catalog e links input creating)
  next catalog e links input p

theorem exists_opening {a : α} (h : (s.opening entity values creating next).Runs t (.ok a)) :
    ∃ o : Opening, o.Of entity values t := by
  obtain ⟨catalog, t₁, rfl, h₁⟩ := Program.Runs.catalog_bind_iff.1 h
  obtain ⟨e, hobject, h₂⟩ := Program.Runs.ofResult_bind_ok.1 h₁
  obtain ⟨_, t₃, map, rfl, hmap, h₃⟩ := Program.Runs.bind_ok.1 h₂
  obtain ⟨links, rfl, hlinks⟩ := Program.Runs.linksOf_iff.1 hmap
  obtain ⟨input, hinput, -⟩ := Program.Runs.ofResult_bind_ok.1 h₃
  exact ⟨⟨catalog, map, e, input⟩, hobject, hinput, links, t₃, rfl, hlinks.symm⟩

/-- Once it is known what a call goes by, it fails with the check of its values or goes on with what
comes of it. -/
theorem runs_opening {o : Opening} (ho : o.Of entity values t) {r : Result α}
    (h : (s.opening entity values creating next).Runs t r) :
    (∃ error, prepare s.settings o.catalog o.entity o.links o.input creating = .error error ∧
      r = .error error) ∨
    ∃ p u, prepare s.settings o.catalog o.entity o.links o.input creating = .ok p ∧
      (next o.catalog o.entity o.links o.input p).Runs u r ∧ Exchange.writes t = Exchange.writes u := by
  obtain ⟨links, rest, rfl, hlinks⟩ := ho.requests
  obtain ⟨catalog, t₁, ht, h⟩ := Program.Runs.catalog_bind_iff.1 h
  cases ht
  rw [ho.object] at h
  obtain ⟨known, t₂, ht, h⟩ := h
  cases ht
  obtain ⟨_, t₃, ht, h⟩ := h
  cases ht
  replace h : (Program.ofResult (links entity) >>= fun map => do
      let input ← Program.ofResult (inputMembers values)
      let p ← Program.ofResult (prepare s.settings o.catalog o.entity map input creating)
      next o.catalog o.entity map input p : Program α).Runs rest r := h
  rw [hlinks, ho.members] at h
  replace h : (Program.ofResult (prepare s.settings o.catalog o.entity o.links o.input creating) >>=
    next o.catalog o.entity o.links o.input).Runs rest r := h
  cases hprepare : prepare s.settings o.catalog o.entity o.links o.input creating with
  | error error =>
    rw [hprepare] at h
    exact .inl ⟨error, rfl, h.2⟩
  | ok p =>
    rw [hprepare] at h
    exact .inr ⟨p, rest, rfl, h, rfl⟩

/-- What is done with values that are checked: they are refused, or what is accepted is saved. -/
def refusing (body : Catalog → Entity → LinkMap → Json.Members → Prepared → Program SaveOutcome)
    (catalog : Catalog) (e : Entity) (links : LinkMap) (input : Json.Members) (p : Prepared) :
    Program SaveOutcome :=
  if !p.errors.isEmpty then pure (.invalid p.errors) else body catalog e links input p

variable {body : Catalog → Entity → LinkMap → Json.Members → Prepared → Program SaveOutcome}
  {o : Opening}

/-- Values are refused for the offences of the fields, where there are any. -/
theorem invalid_of_offences (ho : o.Of entity values t) (hleads : o.Leads)
    (hoffences : o.offences creating ≠ []) {r : Result SaveOutcome}
    (h : (s.opening entity values creating (refusing body)).Runs t r) :
    r = .ok (.invalid (o.offences creating)) := by
  rcases runs_opening ho h with ⟨error, herror, -⟩ | ⟨p, u, hp, hrest, -⟩
  · obtain ⟨p, hp⟩ := exists_prepare hleads s.settings o.input creating
    cases hp.symm.trans herror
  · have herrors : p.errors = o.offences creating := errors_of_prepare hp
    rw [refusing, if_pos (by simpa [herrors] using hoffences)] at hrest
    rw [hrest.2, herrors]

/-- What comes to an outcome has refused the values for their offences and written nothing, or there are
none and what is accepted is saved. -/
theorem refused_or_saved
    (hsaves : ∀ c e m i p, (body c e m i p).Yields fun outcome => ∃ row, outcome = .saved row)
    {outcome : SaveOutcome}
    (h : (s.opening entity values creating (refusing body)).Runs t (.ok outcome)) :
    ∃ o : Opening, o.Of entity values t ∧
      ((o.offences creating ≠ [] ∧ outcome = .invalid (o.offences creating) ∧
          Exchange.writes t = []) ∨
        ∃ p row u, prepare s.settings o.catalog o.entity o.links o.input creating = .ok p ∧
          p.errors = [] ∧ o.offences creating = [] ∧ outcome = .saved row ∧
          (body o.catalog o.entity o.links o.input p).Runs u (.ok (.saved row)) ∧
          Exchange.writes t = Exchange.writes u) := by
  obtain ⟨o, ho⟩ := exists_opening h
  refine ⟨o, ho, ?_⟩
  rcases runs_opening ho h with ⟨_, -, herror⟩ | ⟨p, u, hp, hrest, hwrites⟩
  · cases herror
  have herrors : p.errors = o.offences creating := errors_of_prepare hp
  rw [refusing] at hrest
  split at hrest
  · rename_i hrefused
    obtain ⟨rfl, hinvalid⟩ := hrest
    cases hinvalid
    refine .inl ⟨by simpa [herrors] using hrefused, by rw [herrors], hwrites⟩
  · rename_i haccepted
    have hnone : p.errors = [] := by simpa using haccepted
    obtain ⟨row, rfl⟩ := (hsaves _ _ _ _ _).of_runs hrest
    exact .inr ⟨p, row, u, hp, hnone, herrors ▸ hnone, rfl, hrest, hwrites⟩

end

/-! ## Creating and updating -/

/-- The calls that save values: of a new record, or of the record with a key. -/
inductive Saving where
  | create
  | update (key : Json)

namespace Saving

def program (s : Session) (entity : String) (values : Json) (caller : Caller) :
    Saving → Program SaveOutcome
  | create => s.create entity values caller
  | update key => s.update entity key values caller

def creating : Saving → Bool
  | create => true
  | update _ => false

/-- What a call writes of columns and wanted links: a new row and all its links, or, once the record is
found, the columns and those links that differ. -/
def Writes (s : Session) (entity : String) (values : Json) (caller : Caller) (t : List Exchange)
    (o : Opening) (columns : List (String × Json)) (wanted : List LinkValues) : Saving → Prop
  | create => ∃ (own : List (String × Json)) (base : Base), (∀ c ∈ own, c.1 = o.entity.keyColumn) ∧
    Exchange.writes t =
      .insert o.entity.table (assignments (own ++ columns) ++ newTimes s.settings) ::
        wanted.flatMap fun v => v.keys.flatMap (Write.relate base v.link v.keyColumn)
  | update key => ∃ u : Update, u.Of s entity key values caller t ∧
    u.entity = o.entity ∧ u.prepared.columns = columns ∧ u.prepared.links = wanted ∧
    Exchange.writes t = u.rowWrites s.settings ++ u.relinks u.pairs

/-- What is done with values that are accepted. -/
def body (s : Session) (entity : String) (caller : Caller) :
    Saving → Catalog → Entity → LinkMap → Json.Members → Prepared → Program SaveOutcome
  | create => fun _ e _ input p => do
    let base ← s.insertRow e input p
    s.executeAll (p.links.flatMap fun v => v.keys.flatMap (Write.relate base v.link v.keyColumn))
    s.saved e base.key caller
  | update key => fun _ e _ _ p => do
    let base ← s.lockedRow e key caller entity
    let current ← p.links.mapM (s.currentKeys base)
    let row := assignments p.columns ++
      if s.settings.updatedAt then [⟨"updated_at", .now⟩] else []
    if !row.isEmpty then
      let _ ← s.execute (.update e.table row [base.isRow])
    s.executeAll ((p.links.zip current).flatMap fun (v, current) => relink base v current)
    s.saved e base.key caller

variable {s : Session} {caller : Caller} {entity : String} {values : Json} {t : List Exchange}

theorem program_eq (v : Saving) : v.program s entity values caller =
    s.opening entity values v.creating (refusing (v.body s entity caller)) := by
  cases v <;> rfl

theorem yields_body (v : Saving) (c : Catalog) (e : Entity) (m : LinkMap) (i : Json.Members)
    (p : Prepared) : (v.body s entity caller c e m i p).Yields fun o => ∃ row, o = .saved row := by
  cases v with
  | create => exact s.yields_create_accepted e i p caller
  | update key => exact s.yields_update_accepted e key p caller entity

theorem key_of_ownColumns {e : Entity} {input : Json.Members} {own : List (String × Json)}
    (h : (ownColumns e input).Runs t (.ok own)) : ∀ c ∈ own, c.1 = e.keyColumn := by
  rw [ownColumns] at h
  split at h
  · obtain ⟨_, _, key, -, -, -, hown⟩ := Program.Runs.bind_ok.1 h
    cases hown
    simp
  · cases h.2
    simp

theorem writes_of_create_body {c : Catalog} {e : Entity} {m : LinkMap} {input : Json.Members}
    {p : Prepared} {row : Row}
    (h : (body s entity caller create c e m input p).Runs t (.ok (.saved row))) :
    ∃ (own : List (String × Json)) (base : Base), (∀ c ∈ own, c.1 = e.keyColumn) ∧
      Exchange.writes t =
        .insert e.table (assignments (own ++ p.columns) ++ newTimes s.settings) ::
          p.links.flatMap fun v => v.keys.flatMap (Write.relate base v.link v.keyColumn) := by
  obtain ⟨t₁, t₂, base, rfl, hinsert, hrest⟩ := Program.Runs.bind_ok.1 h
  rw [insertRow_eq] at hinsert
  obtain ⟨t₃, t₄, own, rfl, hown, hinsert⟩ := Program.Runs.bind_ok.1 hinsert
  obtain ⟨t₅, t₆, number, rfl, hexecute, rfl, -⟩ := Program.Runs.bind_ok.1 hinsert
  have hlinks := (writes_of_executeAll_bind (s.onlyReads_saved ..) hrest).2 _ rfl
  have hkey : Exchange.writes t₃ = [] := (s.onlyReads_ownColumns e input).writes_eq_nil hown
  refine ⟨own, base, key_of_ownColumns hown, ?_⟩
  rw [Exchange.writes_append, Exchange.writes_append, Exchange.writes_append, hkey,
    Program.Runs.execute_ok hexecute, hlinks]
  rfl

theorem opening_of_update {u : Update} {key : Json} (h : u.Of s entity key values caller t) :
    Opening.Of ⟨u.catalog, u.links, u.entity, u.input⟩ entity values t := by
  obtain ⟨links, found, read, written, rfl, hlinks, -, -, -⟩ := h.requests
  exact ⟨h.object, h.members, links, _, rfl, hlinks⟩

end Saving

/-- Required means stored. Where a field offends, a call that saves values comes to the offences of the
fields, one each and in their order, and writes nothing. A call that comes to a saved record has found
none: what it has written keeps the value of every required field that is given one, and a new record
has one for each. -/
theorem required_stored (s : Session) (v : Saving) (entity : String) (values : Json) (caller : Caller)
    (t : List Exchange) :
    (∀ o : Opening, o.Of entity values t → o.Leads → o.offences v.creating ≠ [] →
      ∀ r, (v.program s entity values caller).Runs t r → r = .ok (.invalid (o.offences v.creating))) ∧
    ∀ outcome, (v.program s entity values caller).Runs t (.ok outcome) →
      ∃ o : Opening, o.Of entity values t ∧
        ((o.offences v.creating ≠ [] ∧ outcome = .invalid (o.offences v.creating) ∧
            Exchange.writes t = []) ∨
          o.offences v.creating = [] ∧ (∃ row, outcome = .saved row) ∧
            ∃ columns wanted, v.Writes s entity values caller t o columns wanted ∧
              o.Stores s.settings v.creating columns wanted) := by
  refine ⟨fun o ho hleads hoffences r h => ?_, fun outcome h => ?_⟩
  · rw [v.program_eq] at h
    exact invalid_of_offences ho hleads hoffences h
  have hrun := h
  rw [v.program_eq] at h
  obtain ⟨o, ho, hrefused | ⟨p, row, u, hp, herrors, hnone, rfl, hbody, hwrites⟩⟩ :=
    refused_or_saved v.yields_body h
  · exact ⟨o, ho, .inl hrefused⟩
  refine ⟨o, ho, .inr ⟨hnone, ⟨row, rfl⟩, p.columns, p.links, ?_, .of_prepare hp herrors⟩⟩
  cases v with
  | create =>
    obtain ⟨own, base, hown, hrow⟩ := Saving.writes_of_create_body hbody
    exact ⟨own, base, hown, hwrites.trans hrow⟩
  | update key =>
    obtain ⟨u, hu⟩ := exists_of_update hrun
    -- Both are found out by the same first requests.
    cases ho.unique (Saving.opening_of_update hu)
    cases hp.symm.trans hu.prepare
    exact ⟨u, hu, rfl, rfl, rfl, hu.writes_eq⟩

/-- A note is created with a title and a tag, and no update takes them away. -/
theorem required_stored_note :
    let s : Session := ⟨{}, {}, .tenant⟩
    let system : Caller := ⟨none, "en", true⟩
    let title := { Field.new "f" "title" .text with required := true }
    let tags := { Field.new "g" "tags" (.connection (.between "tag" .many .many)) with required := true }
    let note := Entity.new "note" "Note" "NOTE" [title, tags]
    let tag := Entity.new "tag" "Tag" "TAG" []
    let catalog : Catalog := ⟨[note, tag], [], []⟩
    let row : Row := [("uuid", .str "n1")]
    let answer := Request.steady catalog (LinkMap.ofCatalog {} catalog) fun _ => [row]
    let values : Json := .obj [("tags", .arr [.str "t1"]), ("title", .str "a"), ("uuid", .str "n1")]
    let blank : Json := .obj [("tags", .arr []), ("title", .str "")]
    let update := (Saving.update (.str "n1")).program s "note" blank system
    let t := ((Saving.create.program s "note" values system).transcript answer).1
    let u := (update.transcript answer).1
    (∃ o : Opening, o.Of "note" values t ∧ o.offences true = [] ∧
        ∃ columns wanted, Saving.create.Writes s "note" values system t o columns wanted ∧
          o.Stores {} true columns wanted) ∧
      update.Runs u (.ok (.invalid
        [⟨"title", "Value is required"⟩, ⟨"tags", "Value is required"⟩])) := by
  intro s system title tags note tag catalog row answer values blank update t u
  constructor
  · have hresult : ((Saving.create.program s "note" values system).transcript answer).2 =
        .ok (.saved row) := by
      dsimp only [s, system, title, tags, note, tag, catalog, row, answer, values]
      rfl
    have hrun := (Program.Runs.iff_transcript.2 (Prod.ext (rfl : _ = t) hresult)).1
    obtain ⟨o, ho, ⟨-, hinvalid, -⟩ | ⟨hnone, -, hstored⟩⟩ :=
      (required_stored s .create "note" values system t).2 _ hrun
    · cases hinvalid
    · exact ⟨o, ho, hnone, hstored⟩
  · let o : Opening := ⟨catalog, (LinkMap.resolve {} catalog note).1, note,
      [("tags", .arr []), ("title", .str "")]⟩
    have hrun : update.Runs u (update.transcript answer).2 :=
      (Program.Runs.iff_transcript.2 rfl).1
    have ho : o.Of "note" blank u := ⟨rfl, rfl, LinkMap.ofCatalog {} catalog, [], by
      dsimp only [u, update, s, system, title, tags, note, tag, catalog, row, answer, blank]
      rfl, rfl⟩
    have hinvalid := (required_stored s (.update (.str "n1")) "note" blank system u).1 o ho
      (Opening.leads_of_resolve rfl) (by decide +kernel) _ hrun
    rw [hinvalid] at hrun
    exact hrun

/-- What is kept per language is not looked at, and what names nothing counts as a value until it is
stored: a note is created without a title, with an owner that is null and without any tag. -/
theorem required_not_stored :
    let s : Session := ⟨{}, {}, .tenant⟩
    let system : Caller := ⟨none, "en", true⟩
    let title := { Field.new "f" "title" .text with required := true, multilingual := true }
    let owner := { Field.new "h" "owner" (.user false) with required := true }
    let tags := { Field.new "g" "tags" (.connection (.between "tag" .many .many)) with required := true }
    let note := Entity.new "note" "Note" "NOTE" [title, owner, tags]
    let tag := Entity.new "tag" "Tag" "TAG" []
    let catalog : Catalog := ⟨[note, tag], [], []⟩
    let row : Row := [("uuid", .str "n1")]
    let answer := Request.steady catalog (LinkMap.ofCatalog {} catalog) fun _ => [row]
    let values : Json := .obj [("owner", .obj [("id", .null)]), ("tags", .arr [.null]),
      ("uuid", .str "n1")]
    let t := ((s.create "note" values system).transcript answer).1
    (∀ f ∈ note.fields, f.required = true ∧ f.isVirtual = false) ∧
      (s.create "note" values system).Runs t (.ok (.saved row)) ∧
      Exchange.writes t = [.insert "NOTE" [setTo "uuid" (.str "n1"), setTo "owner" .null,
        ⟨"created_at", .now⟩, ⟨"updated_at", .now⟩]] := by
  intro s system title owner tags note tag catalog row answer values t
  have hresult : ((s.create "note" values system).transcript answer).2 = .ok (.saved row) := by
    dsimp only [s, system, title, owner, tags, note, tag, catalog, row, answer, values]
    rfl
  refine ⟨by decide, (Program.Runs.iff_transcript.2 (Prod.ext (rfl : _ = t) hresult)).1, ?_⟩
  dsimp only [t, s, system, title, owner, tags, note, tag, catalog, row, answer, values]
  rfl

end Session

end CatalogQuery
