import CatalogQuery.Link.Resolve
import CatalogQuery.Proofs.Reduce.Substitution
import CatalogQuery.Proofs.Save.Statements
import CatalogQuery.Proofs.Session.ReadOnly

/-!
# Changing what was found

A record that exists is looked up under its lock before it is changed. Main statement: nothing is
written before the lookup has found the record among those that the caller may see, nothing at all
where it has not, and values that are refused are refused before anything is sent.
-/

namespace CatalogQuery

open Program (Silent)

namespace Session

variable {s : Session} {entity : String} {key : Json} {caller : Caller}

/-! ## Looking up -/

/-- Looks a record up under its lock, among those that the caller may see. -/
def lockedFind (s : Session) (entity : String) (key : Json) (caller : Caller) :
    Program (Option Row) := do
  Program.lock entity key.plain
  s.findOne entity key .none caller

theorem lockedRow_eq (s : Session) (e : Entity) (key : Json) (caller : Caller) (entity : String) :
    s.lockedRow e key caller entity = (do
      let found ← s.lockedFind entity key caller
      let row ← orNotFound e key found
      pure ⟨e, row, ((Json.find e.keyColumn row).filter (!Write.lacksValue ·)).getD key⟩) := by
  simp only [lockedRow, lockedFind, bind_assoc]

theorem onlyReads_lockedFind (s : Session) (entity : String) (key : Json) (caller : Caller) :
    s.OnlyReads (s.lockedFind entity key caller) :=
  (OnlyReads.lock ..).bind fun _ => s.onlyReads_findOne ..

/-- A lookup takes the lock before anything else. -/
theorem exists_of_lockedFind {t : List Exchange} {r : Result (Option Row)}
    (h : (s.lockedFind entity key caller).Runs t r) :
    ∃ u, t = ⟨.lock entity key.plain, ()⟩ :: u ∧
      (s.findOne entity key .none caller).Runs u r := by
  obtain ⟨answer, u, rfl, h⟩ := h
  exact ⟨u, rfl, h⟩

/-- Whether a run comes to the condition on one record among those that the caller may see: the one of
its key, narrowed to what was found that the caller sees, with placeholders resolved. -/
def NarrowsToSight (s : Session) (entity : String) (key : Json) (caller : Caller)
    (t : List Exchange) (c : Condition) : Prop :=
  (Reduce.reduce s entity (byKey key) caller).Runs t (.ok c) ∧
  ∃ (catalog : Catalog) (e : Entity) (u v : List Exchange) (sight : Sight)
    (nodes : List Condition),
    t = ⟨.catalog, catalog⟩ :: (u ++ v) ∧ catalog.entity entity = .ok e ∧
    (s.sight caller).Runs u (.ok sight) ∧
    c = Reduce.substituted (sight.narrow e (byKey key)) nodes

/-- Whether a run looks a record up: under the lock, the first row is read of those with the key that
the caller may see. -/
def ReadsUnderLock (s : Session) (entity : String) (key : Json) (caller : Caller)
    (t : List Exchange) (found : Option Row) : Prop :=
  ∃ (catalog : Catalog) (e : Entity) (reducing filtering compiling read : List Exchange)
    (c : Condition) (filters : List (String × Condition)) (links : Links)
    (statement : Sql.Select) (rows : List Row),
    t = ⟨.lock entity key.plain, ()⟩ :: ⟨.catalog, catalog⟩ ::
      (reducing ++ (filtering ++ (compiling ++ read))) ∧
    catalog.entity entity = .ok e ∧
    s.NarrowsToSight entity key caller reducing c ∧
    Exchange.Quiet compiling ∧
    (findSelect (s.env catalog links caller filters) e
      (FindOptions.paginate { condition := byKey key } 0 1) c).result = .ok statement ∧
    Program.IsRead s.channel statement s.settings.readRetries read (.ok rows) ∧
    found = rows.head?

theorem narrowsToSight_of_runs {t : List Exchange} {c : Condition}
    (h : (Reduce.reduce s entity (byKey key) caller).Runs t (.ok c)) :
    s.NarrowsToSight entity key caller t c := by
  refine ⟨h, ?_⟩
  obtain ⟨catalog, e, sight, nodes, u, v, rfl, he, hsight, -, rfl⟩ := Reduce.runs_reduce.1 h
  exact ⟨catalog, e, u, v, sight, nodes, rfl, he, hsight, rfl⟩

theorem readsUnderLock_of_runs {t : List Exchange} {found : Option Row}
    (h : (s.lockedFind entity key caller).Runs t (.ok found)) :
    s.ReadsUnderLock entity key caller t found := by
  obtain ⟨u, rfl, hone⟩ := exists_of_lockedFind h
  obtain ⟨t₁, t₂, rows, rfl, hfind, rfl, hfound⟩ := Program.Runs.bind_ok.1 hone
  cases hfound
  obtain ⟨catalog, t₁, rfl, h₁⟩ := Program.Runs.catalog_bind_iff.1 hfind
  obtain ⟨e, hentity, h₂⟩ := Program.Runs.ofResult_bind_ok.1 h₁
  obtain ⟨reducing, t₃, c, rfl, hreduce, h₃⟩ := Program.Runs.bind_ok.1 h₂
  obtain ⟨filtering, t₄, filters, rfl, -, h₄⟩ := Program.Runs.bind_ok.1 h₃
  obtain ⟨compiling, t₅, statement, rfl, hselect, h₅⟩ := Program.Runs.bind_ok.1 h₄
  obtain ⟨read, t₆, read', rfl, hread, h₆⟩ := Program.Runs.bind_ok.1 h₅
  -- A lookup attaches nothing to the rows that were read.
  rw [Linked.populate, if_pos (.inr rfl)] at h₆
  obtain ⟨rfl, hrows⟩ := h₆
  cases hrows
  obtain ⟨links, -, hresult⟩ := Program.Runs.withLinks_iff.1 hselect
  exact ⟨catalog, e, reducing, filtering, compiling, read, c, filters, links, statement, rows,
    by simp, hentity, narrowsToSight_of_runs hreduce, Silent.withLinks.quiet hselect,
    hresult.symm, Program.Runs.fetch_ok hread, rfl⟩

/-! ## Nothing before the lookup -/

variable {α β : Type} {name : String}

/-- How a run goes that looks a record up before it sends anything else. -/
inductive FoundFirst (s : Session) (entity : String) (key : Json) (caller : Caller)
    (name : String) {α : Type} : List Exchange → Result α → Prop
  /-- It ends before the lookup. -/
  | unsent {t : List Exchange} {r : Result α} (ht : Exchange.Quiet t) :
    FoundFirst s entity key caller name t r
  /-- It ends with the failure of the lookup. -/
  | failed {before found : List Exchange} {error : QueryError} (hbefore : Exchange.Quiet before)
    (hfound : (s.lockedFind entity key caller).Runs found (.error error)) :
    FoundFirst s entity key caller name (before ++ found) (.error error)
  /-- It ends with the lookup that finds nothing. -/
  | missing {before found : List Exchange} (hbefore : Exchange.Quiet before)
    (hfound : (s.lockedFind entity key caller).Runs found (.ok none)) :
    FoundFirst s entity key caller name (before ++ found) (.error (.recordNotFound name))
  /-- It goes on with the row that is found. -/
  | found {before found rest : List Exchange} {row : Row} {r : Result α}
    (hbefore : Exchange.Quiet before)
    (hfound : (s.lockedFind entity key caller).Runs found (.ok (some row))) :
    FoundFirst s entity key caller name (before ++ (found ++ rest)) r

/-- Whether a program looks a record up before it sends anything else. -/
def FindsFirst (s : Session) (entity : String) (key : Json) (caller : Caller) (name : String)
    (p : Program α) : Prop :=
  ∀ t r, p.Runs t r → FoundFirst s entity key caller name t r

theorem FoundFirst.quiet_append {t u : List Exchange} {r : Result α} (hu : Exchange.Quiet u)
    (h : FoundFirst s entity key caller name t r) :
    FoundFirst s entity key caller name (u ++ t) r := by
  cases h with
  | unsent ht => exact .unsent (hu.append ht)
  | failed hbefore hfound =>
    rw [← List.append_assoc]
    exact .failed (hu.append hbefore) hfound
  | missing hbefore hfound =>
    rw [← List.append_assoc]
    exact .missing (hu.append hbefore) hfound
  | found hbefore hfound =>
    rw [← List.append_assoc]
    exact .found (hu.append hbefore) hfound

namespace FindsFirst

theorem silent {p : Program α} (hp : p.Silent) : s.FindsFirst entity key caller name p :=
  fun _ _ h => .unsent (hp.quiet h)

theorem next {p : Program α} {f : α → Program β} (hp : p.Silent)
    (hf : ∀ a, s.FindsFirst entity key caller name (f a)) :
    s.FindsFirst entity key caller name (p >>= f) := by
  intro t r h
  rcases Program.Runs.bind_iff.1 h with ⟨e, hfirst, rfl⟩ | ⟨t₁, t₂, a, rfl, hfirst, hrest⟩
  · exact .unsent (hp.quiet hfirst)
  · exact (hf a t₂ r hrest).quiet_append (hp.quiet hfirst)

/-- The rest is as it may be once the record is found. -/
theorem lockedRow {e : Entity} {f : Write.Base → Program β} :
    s.FindsFirst entity key caller (recordName e key)
      (s.lockedRow e key caller entity >>= f) := by
  intro t r h
  rw [lockedRow_eq, bind_assoc] at h
  rcases Program.Runs.bind_iff.1 h with ⟨error, hfound, rfl⟩ | ⟨found, rest, row, rfl, hfound, h⟩
  · exact .failed .nil hfound
  cases row with
  | none =>
    obtain ⟨rfl, rfl⟩ := h
    rw [List.append_nil]
    exact .missing .nil hfound
  | some row => exact .found .nil hfound

end FindsFirst

namespace FoundFirst

variable {t : List Exchange} {r : Result α}

/-- What is made of the outcome changes no failure. -/
theorem map (h : FoundFirst s entity key caller name t r) (f : α → β) :
    FoundFirst s entity key caller name t (f <$> r) := by
  cases h with
  | unsent ht => exact .unsent ht
  | failed hbefore hfound => exact .failed hbefore hfound
  | missing hbefore hfound => exact .missing hbefore hfound
  | found hbefore hfound => exact .found hbefore hfound

/-- There is one lookup at most. -/
theorem lookup_unique {before before' found found' rest rest' : List Exchange}
    {answer answer' : Result (Option Row)} (hbefore : Exchange.Quiet before)
    (hfound : (s.lockedFind entity key caller).Runs found answer)
    (hbefore' : Exchange.Quiet before')
    (hfound' : (s.lockedFind entity key caller).Runs found' answer')
    (h : before ++ (found ++ rest) = before' ++ (found' ++ rest')) :
    rest = rest' ∧ answer = answer' := by
  obtain ⟨u, rfl, -⟩ := exists_of_lockedFind hfound
  obtain ⟨u', rfl, -⟩ := exists_of_lockedFind hfound'
  -- The lock is the first request that is not quiet, so both begin in the same place.
  obtain ⟨-, heq⟩ := hbefore.append_cons_inj hbefore' id id h
  exact (hfound.append_inj hfound' heq).2

theorem not_quiet {before found rest : List Exchange} {answer : Result (Option Row)}
    (hfound : (s.lockedFind entity key caller).Runs found answer) :
    ¬ Exchange.Quiet (before ++ (found ++ rest)) := by
  obtain ⟨u, rfl, -⟩ := exists_of_lockedFind hfound
  intro h
  exact h ⟨.lock entity key.plain, ()⟩ (by simp)

/-- Before a write the record was found. -/
theorem of_write (h : FoundFirst s entity key caller name t r) {before after : List Exchange}
    {x : Exchange} (ht : t = before ++ x :: after) (hx : x.write? ≠ none) :
    ∃ first found rest row, before = first ++ (found ++ rest) ∧ Exchange.Quiet first ∧
      (s.lockedFind entity key caller).Runs found (.ok (some row)) := by
  have hwrites (u : List Exchange) (hu : Exchange.writes u = []) : x ∉ u := fun hmem =>
    hx (List.filterMap_eq_nil_iff.1 hu x hmem)
  have hlookup {first found : List Exchange} {answer : Result (Option Row)}
      (hfirst : Exchange.Quiet first)
      (hfound : (s.lockedFind entity key caller).Runs found answer) : x ∉ first ++ found := by
    refine hwrites _ ?_
    rw [Exchange.writes_append, hfirst.writes_eq_nil,
      (onlyReads_lockedFind s entity key caller).writes_eq_nil hfound]
    rfl
  cases h with
  | unsent hquiet => exact absurd (by simp [ht]) (hwrites _ hquiet.writes_eq_nil)
  | failed hfirst hfound | missing hfirst hfound =>
    exact absurd (by simp [ht]) (hlookup hfirst hfound)
  | @found first found rest row _ hfirst hfound =>
    rw [← List.append_assoc] at ht
    obtain ⟨middle, rfl, -⟩ | ⟨middle, hmiddle, hrest⟩ := List.append_eq_append_iff.1 ht
    · exact ⟨first, found, middle, row, List.append_assoc .., hfirst, hfound⟩
    cases middle with
    | nil =>
      rw [List.append_nil] at hmiddle
      exact ⟨first, found, [], row, by rw [List.append_nil, hmiddle], hfirst, hfound⟩
    | cons y middle =>
      obtain ⟨rfl, -⟩ := List.cons.inj hrest
      exact absurd (by simp [hmiddle]) (hlookup hfirst hfound)

/-- Where the record is not found the run ends, and says so. -/
theorem of_none (h : FoundFirst s entity key caller name t r) {before found rest : List Exchange}
    (ht : t = before ++ (found ++ rest)) (hbefore : Exchange.Quiet before)
    (hfound : (s.lockedFind entity key caller).Runs found (.ok none)) :
    rest = [] ∧ r = .error (.recordNotFound name) := by
  cases h with
  | unsent hquiet => exact absurd (ht ▸ hquiet) (not_quiet hfound)
  | @failed first found' error hfirst hfound' =>
    rw [← List.append_nil found'] at ht
    cases (lookup_unique hfirst hfound' hbefore hfound ht).2
  | @missing first found' hfirst hfound' =>
    rw [← List.append_nil found'] at ht
    exact ⟨(lookup_unique hfirst hfound' hbefore hfound ht).1.symm, rfl⟩
  | found hfirst hfound' => cases (lookup_unique hfirst hfound' hbefore hfound ht).2

end FoundFirst

/-! ## Changes -/

/-- How a run goes that changes a record of an object: no object is known by that id, or the record is
looked up before anything else is sent. -/
def Changes (s : Session) (entity : String) (key : Json) (caller : Caller) (t : List Exchange)
    (r : Result α) : Prop :=
  Exchange.Quiet t ∨ ∃ (catalog : Catalog) (e : Entity) (u : List Exchange),
    t = ⟨.catalog, catalog⟩ :: u ∧ catalog.entity entity = .ok e ∧
    FoundFirst s entity key caller (recordName e key) t r

theorem Changes.of_runs {f : Catalog → Entity → Program α} {t : List Exchange} {r : Result α}
    (hf : ∀ catalog e, s.FindsFirst entity key caller (recordName e key) (f catalog e))
    (h : (do
      let catalog ← Program.catalog
      let e ← Program.ofResult (catalog.entity entity)
      f catalog e).Runs t r) : s.Changes entity key caller t r := by
  obtain ⟨catalog, u, rfl, hrest⟩ := Program.Runs.catalog_bind_iff.1 h
  have hcatalog : Exchange.Quiet [⟨.catalog, catalog⟩] := List.forall_mem_singleton.2 trivial
  rcases Program.Runs.bind_iff.1 hrest with ⟨error, he, -⟩ | ⟨t₁, t₂, e, rfl, he, hlast⟩
  · obtain ⟨rfl, -⟩ := Program.Runs.ofResult_iff.1 he
    exact .inl hcatalog
  · obtain ⟨rfl, hentity⟩ := Program.Runs.ofResult_iff.1 he
    exact .inr ⟨catalog, e, t₂, rfl, hentity.symm, (hf catalog e t₂ r hlast).quiet_append hcatalog⟩

theorem changes_of_update {values : Json} {t : List Exchange} {r : Result SaveOutcome}
    (h : (s.update entity key values caller).Runs t r) : s.Changes entity key caller t r := by
  refine .of_runs (fun catalog e => ?_) h
  refine .next (Silent.linksOf entity) fun links => .next Silent.ofResult fun input =>
    .next Silent.ofResult fun p => ?_
  split
  · exact .silent (.pure _)
  · exact .lockedRow

theorem changes_of_delete {t : List Exchange} {r : Result Unit}
    (h : (s.delete entity key caller).Runs t r) : s.Changes entity key caller t r :=
  .of_runs (fun _ _ => .next (Silent.linksOf entity) fun _ => .lockedRow) h

theorem changes_of_changeLinks {field : String} {linked : Json} {add : Bool}
    {t : List Exchange} {r : Result Unit}
    (h : (s.changeLinks entity key field linked caller add).Runs t r) :
    s.Changes entity key caller t r := by
  refine .of_runs (fun catalog e => .next (Silent.linksOf entity) fun links => ?_) h
  split
  · exact .silent Silent.ofResult
  · exact .next Silent.ofResult fun target => .lockedRow

/-! ## Refused values -/

/-- Whether a program that refuses values has sent nothing. -/
def RefusesFirst (p : Program SaveOutcome) : Prop :=
  ∀ t errors, p.Runs t (.ok (.invalid errors)) → Exchange.Quiet t

namespace RefusesFirst

theorem silent {p : Program SaveOutcome} (hp : p.Silent) : RefusesFirst p :=
  fun _ _ h => hp.quiet h

theorem next {p : Program α} {f : α → Program SaveOutcome} (hp : p.Silent)
    (hf : ∀ a, RefusesFirst (f a)) : RefusesFirst (p >>= f) := by
  intro t errors h
  obtain ⟨t₁, t₂, a, rfl, hfirst, hrest⟩ := Program.Runs.bind_ok.1 h
  exact (hp.quiet hfirst).append (hf a t₂ errors hrest)

/-- A program that comes to saved records only refuses nothing. -/
theorem saved {p : Program SaveOutcome} (hp : p.Yields fun o => ∃ row, o = .saved row) :
    RefusesFirst p := by
  intro t errors h
  obtain ⟨row, hrow⟩ := hp.of_runs h
  cases hrow

end RefusesFirst

theorem yields_saved (s : Session) (e : Entity) (key : Json) (caller : Caller) :
    (s.saved e key caller).Yields fun o => ∃ row, o = .saved row := by
  rw [saved]
  refine .next fun found => ?_
  rw [map_eq_pure_bind]
  exact .next fun row => .pure ⟨row, rfl⟩

/-- Values that are accepted come to a saved record only. -/
theorem yields_create_accepted (s : Session) (e : Entity) (input : Json.Members)
    (p : Write.Prepared) (caller : Caller) :
    (do
      let base ← s.insertRow e input p
      s.executeAll (p.links.flatMap fun v => v.keys.flatMap (Write.relate base v.link v.keyColumn))
      s.saved e base.key caller : Program SaveOutcome).Yields fun o => ∃ row, o = .saved row :=
  .next fun _ => .next fun _ => s.yields_saved ..

theorem yields_update_accepted (s : Session) (e : Entity) (key : Json)
    (p : Write.Prepared) (caller : Caller) (entity : String) :
    (do
      let base ← s.lockedRow e key caller entity
      let current ← p.links.mapM (s.currentKeys base)
      let row := assignments p.columns ++
        if s.settings.updatedAt then [⟨"updated_at", .now⟩] else []
      if !row.isEmpty then
        let _ ← s.execute (.update e.table row [base.isRow])
      s.executeAll ((p.links.zip current).flatMap fun (v, current) => Write.relink base v current)
      s.saved e base.key caller : Program SaveOutcome).Yields fun o => ∃ row, o = .saved row := by
  refine .next fun base => .next fun current => ?_
  dsimp only
  generalize (assignments p.columns ++
    if s.settings.updatedAt then [⟨"updated_at", .now⟩] else []) = row
  split
  · exact .next fun _ => .next fun _ => s.yields_saved ..
  · exact .next fun _ => s.yields_saved ..

theorem refusesFirst_create (s : Session) (entity : String) (values : Json) (caller : Caller) :
    RefusesFirst (s.create entity values caller) := by
  refine .next Silent.catalog fun catalog => .next Silent.ofResult fun e => ?_
  refine .next (Silent.linksOf entity) fun links => .next Silent.ofResult fun input => ?_
  refine .next Silent.ofResult fun p => ?_
  split
  · exact .silent (.pure _)
  · exact .saved (s.yields_create_accepted e input p caller)

theorem refusesFirst_update (s : Session) (entity : String) (key values : Json)
    (caller : Caller) : RefusesFirst (s.update entity key values caller) := by
  refine .next Silent.catalog fun catalog => .next Silent.ofResult fun e => ?_
  refine .next (Silent.linksOf entity) fun links => .next Silent.ofResult fun input => ?_
  refine .next Silent.ofResult fun p => ?_
  split
  · exact .silent (.pure _)
  · exact .saved (s.yields_update_accepted e key p caller entity)

end Session

/-! ## Whatever is asked for -/

/-- The object and the key of the record that a call changes, if it is one that exists. -/
def Call.changed? : Call → Option (String × Json)
  | update entity key _ | delete entity key | relate entity key _ _ | unrelate entity key _ _ =>
    some (entity, key)
  | _ => none

theorem Call.changes_of_runs {s : Session} {caller : Caller} {call : Call} {entity : String}
    {key : Json} (h : call.changed? = some (entity, key)) {t : List Exchange} {r : Result Unit}
    (hrun : (call.program s caller).Runs t r) : s.Changes entity key caller t r := by
  cases call with
  | update _ _ values =>
    cases h
    obtain ⟨r, hupdate, rfl⟩ := Program.Runs.map_iff.1 hrun
    rcases Session.changes_of_update hupdate with hquiet | ⟨catalog, e, u, ht, he, hfound⟩
    · exact .inl hquiet
    · exact .inr ⟨catalog, e, u, ht, he, hfound.map _⟩
  | delete =>
    cases h
    exact Session.changes_of_delete hrun
  | relate | unrelate =>
    cases h
    exact Session.changes_of_changeLinks hrun
  | find | count | create | user | roles | scopes | scopesOf | displayNames => cases h

/-- Records that exist are changed only where they are seen. Before each statement that writes, the
lookup of the record has given a row; where it gives none, that is the error and nothing was written.
A lookup that comes to its end holds the lock of the record and reads those with its key that the
caller may see. What refuses its values has sent nothing at all, be it to read or to write. -/
theorem Session.changes_what_is_seen (s : Session) (caller : Caller) :
    (∀ (call : Call) (entity : String) (key : Json), call.changed? = some (entity, key) →
      ∀ (t : List Exchange) (r : Result Unit), (call.program s caller).Runs t r →
        (∀ before x after, t = before ++ x :: after → x.write? ≠ none →
          ∃ first found rest row, before = first ++ (found ++ rest) ∧ Exchange.Quiet first ∧
            (s.lockedFind entity key caller).Runs found (.ok (some row))) ∧
        ∀ before found rest, t = before ++ (found ++ rest) → Exchange.Quiet before →
          (s.lockedFind entity key caller).Runs found (.ok none) →
          Exchange.writes t = [] ∧ ∃ (catalog : Catalog) (e : Entity) (u : List Exchange),
            t = ⟨.catalog, catalog⟩ :: u ∧ catalog.entity entity = .ok e ∧
            r = .error (.recordNotFound (Session.recordName e key))) ∧
    (∀ (entity : String) (key : Json) (t : List Exchange) (found : Option Row),
      (s.lockedFind entity key caller).Runs t (.ok found) →
      s.ReadsUnderLock entity key caller t found) ∧
    (∀ (entity : String) (values : Json) (errors : List FieldError) (t : List Exchange),
      (s.create entity values caller).Runs t (.ok (.invalid errors)) → Exchange.Quiet t) ∧
    ∀ (entity : String) (key values : Json) (errors : List FieldError) (t : List Exchange),
      (s.update entity key values caller).Runs t (.ok (.invalid errors)) → Exchange.Quiet t := by
  refine ⟨fun call entity key hcall t r hrun => ?_, fun _ _ _ _ => readsUnderLock_of_runs,
    fun entity values errors t => refusesFirst_create s entity values caller t errors,
    fun entity key values errors t => refusesFirst_update s entity key values caller t errors⟩
  constructor
  · intro before x after ht hx
    rcases Call.changes_of_runs hcall hrun with hquiet | ⟨catalog, e, u, -, -, hfound⟩
    · have hunsent : FoundFirst s entity key caller "" t r := .unsent hquiet
      exact hunsent.of_write ht hx
    · exact hfound.of_write ht hx
  · intro before found rest ht hbefore hlookup
    rcases Call.changes_of_runs hcall hrun with hquiet | ⟨catalog, e, u, hu, he, hfound⟩
    · exact absurd (ht ▸ hquiet) (FoundFirst.not_quiet hlookup)
    obtain ⟨rfl, hr⟩ := hfound.of_none ht hbefore hlookup
    refine ⟨?_, catalog, e, u, hu, he, hr⟩
    rw [ht, Exchange.writes_append, Exchange.writes_append, hbefore.writes_eq_nil,
      (onlyReads_lockedFind s entity key caller).writes_eq_nil hlookup]
    rfl

/-- A note is deleted where it is found. -/
theorem Session.changes_what_is_seen_note :
    let s : Session := ⟨{}, {}, .tenant⟩
    let system : Caller := ⟨none, "en", true⟩
    let catalog : Catalog := ⟨[Entity.new "note" "Note" "NOTE" []], [], []⟩
    let answer (rows : List Row) :=
      Request.steady catalog (LinkMap.ofCatalog {} catalog) fun _ => rows
    let t (rows : List Row) :=
      ((s.delete "note" (.str "n1") system).transcript (answer rows)).1
    let row : Row := [("uuid", .str "n1")]
    (s.delete "note" (.str "n1") system).Runs (t [])
      (.error (.recordNotFound "Note 'n1'")) ∧ Exchange.writes (t []) = [] ∧
    Exchange.writes (t [row]) = [.delete "NOTE" [Sql.columnIs "uuid" (.str "n1")]] ∧
    ∃ first found rest row', (t [row]).dropLast = first ++ (found ++ rest) ∧ Exchange.Quiet first ∧
      (s.lockedFind "note" (.str "n1") system).Runs found (.ok (some row')) := by
  intro s system catalog answer t row
  have hall := (s.changes_what_is_seen system).1 (.delete "note" (.str "n1")) "note" (.str "n1") rfl
  have hmissing : (s.delete "note" (.str "n1") system).Runs (t [])
      (.error (.recordNotFound "Note 'n1'")) := by
    refine .of_transcript ?_
    dsimp only [s, system, catalog, answer]
    rfl
  have hnone : (s.lockedFind "note" (.str "n1") system).Runs
      ((s.lockedFind "note" (.str "n1") system).transcript (answer [])).1 (.ok none) := by
    refine .of_transcript ?_
    dsimp only [s, system, catalog, answer]
    rfl
  have hfound : (s.delete "note" (.str "n1") system).Runs (t [row]) (.ok ()) := by
    refine .of_transcript ?_
    dsimp only [s, system, catalog, answer, row]
    rfl
  have hsplit : t [] = [⟨.catalog, catalog⟩, ⟨.links, LinkMap.ofCatalog {} catalog⟩,
      ⟨.consult "note", ()⟩] ++
        (((s.lockedFind "note" (.str "n1") system).transcript (answer [])).1 ++ []) := by
    dsimp only [t, s, system, catalog, answer]
    rfl
  have hlast : t [row] = (t [row]).dropLast ++
      [⟨.execute .tenant (.delete "NOTE" [Sql.columnIs "uuid" (.str "n1")]), .ok 0⟩] := by
    dsimp only [t, s, system, catalog, answer, row]
    rfl
  have hwrites : Exchange.writes (t [row]) =
      [.delete "NOTE" [Sql.columnIs "uuid" (.str "n1")]] := by
    dsimp only [t, s, system, catalog, answer, row]
    rfl
  refine ⟨hmissing, ?_, hwrites, ?_⟩
  · exact ((hall (t []) _ hmissing).2 _ _ _ hsplit (by simp [Exchange.Quiet, Request.Quiet])
      hnone).1
  · exact (hall (t [row]) _ hfound).1 _ _ _ hlast (by simp [Exchange.write?])

end CatalogQuery
