import CatalogQuery.Proofs.Reduce.Unreplaced
import CatalogQuery.Proofs.Save.Data
import CatalogQuery.Proofs.Save.FailStop

/-!
# Creates that fail

A create checks before it writes, and reads the new record back after it. Main statement: when it
fails for another reason than the database, either nothing is written or all of it is, and then what
fails is to compute a field of the record.
-/

namespace CatalogQuery

/-- The kinds of failures that the metadata or the values of a caller bring about. -/
def QueryError.ofMetadata : List String :=
  ["Configuration", "ObjectNotFound", "FieldNotFound", "InvalidInput", "InvalidCondition"]

theorem QueryError.sql_not_ofMetadata (statement : String) (failure : DatabaseFailure) :
    (QueryError.sql statement failure).kind ∉ ofMetadata := by
  simp [kind, ofMetadata]

theorem QueryError.recordNotFound_not_ofMetadata (record : String) :
    (QueryError.recordNotFound record).kind ∉ ofMetadata := by
  simp [kind, ofMetadata]

theorem Traced.exists_of_mapM_error {α β : Type} {f : α → Traced β} {as : List α}
    {error : QueryError} (h : (as.mapM f).result = .error error) :
    ∃ a ∈ as, (f a).result = .error error := by
  have hall : (as.mapM f).FailsAs fun error => ∃ a ∈ as, (f a).result = .error error :=
    .mapM fun a ha _ he => ⟨a, ha, he⟩
  exact hall error h

/-! ## Compiling a record's own statement -/

/-- The condition of one record compiles whatever its key is. -/
theorem Compile.exists_condition_byKey (env : Env) (e : Entity) (key : Json) :
    ∃ p, (condition env (Frame.base e) (byKey key)).result = .ok p := by
  rw [condition_byKey]
  exact ⟨_, rfl⟩

/-- A record is not read when a computed field of it has no expression, or its object no links. -/
theorem exists_of_findSelect_error {env : Compile.Env} {e : Entity} {key : Json}
    {error : QueryError}
    (h : (findSelect env e (FindOptions.paginate { condition := byKey key } 0 1)
      (byKey key)).result = .error error) :
    env.links e.id = .error error ∨ ∃ links f, env.links e.id = .ok links ∧ f ∈ e.fields ∧
      f.isVirtual = true ∧
      (Compile.virtualExpr env (Compile.Frame.base e) links f).result = .error error := by
  rw [findSelect] at h
  rcases Traced.result_bind_error.1 h with h | ⟨⟨source, frame⟩, hsource, h⟩
  · cases h
  cases hsource
  rcases Traced.result_bind_error.1 h with h | ⟨computed, -, h⟩
  · rw [Compile.virtualColumns] at h
    rcases Traced.result_bind_error.1 h with h | ⟨links, hlinks, h⟩
    · exact .inl h
    obtain ⟨f, hf, h⟩ := Traced.exists_of_mapM_error h
    obtain ⟨hmem, hvirtual⟩ := List.mem_filter.1 hf
    rcases Traced.result_bind_error.1 h with h | ⟨x, -, h⟩
    · exact .inr ⟨links, f, hlinks, hmem, hvirtual, h⟩
    · cases h
  obtain ⟨p, hp⟩ := Compile.exists_condition_byKey env e key
  rcases Traced.result_bind_error.1 h with h | ⟨filter, -, h⟩
  · rw [hp] at h
    cases h
  · cases h

/-! ## Reading a record back -/

/-- Why the record of an object cannot be read, from the answers in a run: its links are unknown, the
filter of one of its formula fields cannot be reduced, or one of its computed fields has no expression.
-/
inductive Unreadable (s : Session) (e : Entity) (caller : Caller) (t : List Exchange)
    (error : QueryError) : Prop
  | unlinked {links : Links} (hlinks : ⟨.links, links⟩ ∈ t) (h : links e.id = .error error)
  | filter {catalog : Catalog} {links : Links} {known : LinkMap} {f : Field} {formula : Formula}
    {d : Condition} {l : Link} {u : List Exchange} (hcatalog : ⟨.catalog, catalog⟩ ∈ t)
    (hlinks : ⟨.links, links⟩ ∈ t) (hknown : links e.id = .ok known) (hf : f ∈ e.fields)
    (htype : f.type = .formula formula) (hd : formula.filter = some d)
    (hl : known.get formula.field = some l) (hu : u <:+: t)
    (h : (Reduce.reduceTree ⟨s, catalog, caller, .everything⟩ catalog.storedFilters [] l.target
      d).Runs u (.error error)) : Unreadable s e caller t error
  | column {catalog : Catalog} {links : Links} {known : LinkMap}
    {filters : List (String × Condition)} {f : Field} (hcatalog : ⟨.catalog, catalog⟩ ∈ t)
    (hlinks : ⟨.links, links⟩ ∈ t) (hknown : links e.id = .ok known) (hf : f ∈ e.fields)
    (hvirtual : f.isVirtual = true)
    (h : (Compile.virtualExpr (s.env catalog links caller filters) (Compile.Frame.base e) known
      f).result = .error error) : Unreadable s e caller t error

/-- A run of reducing filters that fails has failed over one of them. -/
theorem Reduce.exists_of_fieldFilters_error {ctx : Context} {links : LinkMap} {fields : List Field}
    {filters : List (String × Condition)} {t : List Exchange} {error : QueryError}
    (h : (fieldFilters ctx links fields filters).Runs t (.error error)) :
    ∃ f formula d l u, f ∈ fields ∧ f.type = .formula formula ∧ formula.filter = some d ∧
      links.get formula.field = some l ∧ u <:+: t ∧
      (reduceTree ctx ctx.catalog.storedFilters [] l.target d).Runs u (.error error) := by
  induction fields generalizing filters t with
  | nil => cases h.2
  | cons f rest ih =>
    rw [fieldFilters_cons] at h
    cases hpending : pending? links f with
    | none =>
      rw [hpending] at h
      obtain ⟨g, formula, d, l, u, hg, hlater⟩ := ih h
      exact ⟨g, formula, d, l, u, List.mem_cons_of_mem f hg, hlater⟩
    | some p =>
      rw [hpending] at h
      obtain ⟨formula, d, l, htype, hd, hl, rfl⟩ := exists_of_pending? hpending
      rcases Program.Runs.bind_iff.1 h with ⟨error', hd', herror⟩ | ⟨t₁, t₂, c, rfl, -, h⟩
      · cases herror
        exact ⟨f, formula, d, l, t, by simp, htype, hd, hl, List.infix_rfl, hd'⟩
      · obtain ⟨g, formula, d, l, u, hg, htype, hd, hl, hu, hrun⟩ := ih h
        exact ⟨g, formula, d, l, u, List.mem_cons_of_mem f hg, htype, hd, hl,
          hu.trans (List.suffix_append t₁ t₂).isInfix, hrun⟩

namespace Unreadable

variable {s : Session} {e : Entity} {caller : Caller} {t u : List Exchange} {error : QueryError}

/-- What is wrong with a part of a run is wrong with the run. -/
theorem of_part (h : Unreadable s e caller u error) (hu : u <:+: t) :
    Unreadable s e caller t error := by
  have hmem {x : Exchange} (hx : x ∈ u) : x ∈ t := hu.subset hx
  cases h with
  | unlinked hlinks h => exact .unlinked (hmem hlinks) h
  | filter hcatalog hlinks hknown hf htype hd hl hv h =>
    exact .filter (hmem hcatalog) (hmem hlinks) hknown hf htype hd hl (hv.trans hu) h
  | column hcatalog hlinks hknown hf hvirtual h =>
    exact .column (hmem hcatalog) (hmem hlinks) hknown hf hvirtual h

theorem of_formulaFilters (h : (Reduce.formulaFilters s [e] caller).Runs t (.error error)) :
    Unreadable s e caller t error := by
  obtain ⟨catalog, u, rfl, hfilters⟩ := Program.Runs.catalog_bind_iff.1 h
  rw [Reduce.entityFilters] at hfilters
  rcases Program.Runs.bind_iff.1 hfilters with
    ⟨error', hknown, herror⟩ | ⟨u₁, u₂, known, rfl, hknown, hfields⟩
  · cases herror
    obtain ⟨links, rfl, hlinks⟩ := Program.Runs.linksOf_iff.1 hknown
    exact .unlinked (by simp) hlinks.symm
  obtain ⟨links, rfl, hlinks⟩ := Program.Runs.linksOf_iff.1 hknown
  rcases Program.Runs.bind_iff.1 hfields with ⟨error', hreduce, herror⟩ | ⟨u₃, u₄, _, rfl, -, hend⟩
  · cases herror
    obtain ⟨f, formula, d, l, v, hf, htype, hd, hl, hv, hrun⟩ :=
      Reduce.exists_of_fieldFilters_error hreduce
    have hpart := hv.trans (List.suffix_append
      [⟨.catalog, catalog⟩, ⟨.links, links⟩, ⟨.consult e.id, ()⟩] u₂).isInfix
    exact .filter (by simp) (by simp) hlinks.symm hf htype hd
      hl hpart hrun
  · cases hend.2

theorem of_readRow {key : Json} (h : (s.readRow e key caller).Runs t (.error error))
    (hkind : error.kind ∈ QueryError.ofMetadata) : Unreadable s e caller t error := by
  rw [Session.readRow] at h
  obtain ⟨catalog, u, rfl, hrest⟩ := Program.Runs.catalog_bind_iff.1 h
  rcases Program.Runs.bind_iff.1 hrest with
    ⟨error', hfilters, herror⟩ | ⟨u₁, u₂, filters, rfl, -, hrest⟩
  · cases herror
    exact (of_formulaFilters hfilters).of_part (List.suffix_cons _ u).isInfix
  rcases Program.Runs.bind_iff.1 hrest with
    ⟨error', hcompiled, herror⟩ | ⟨u₃, u₄, statement, rfl, -, hread⟩
  · cases herror
    obtain ⟨links, rfl, hselect⟩ := Program.Runs.withLinks_iff.1 hcompiled
    rcases exists_of_findSelect_error hselect.symm with
      hunlinked | ⟨known, f, hknown, hf, hvirtual, hexpr⟩
    · exact .unlinked (by simp) (show links e.id = _ from hunlinked)
    · exact .column (by simp) (by simp) (show links e.id = _ from hknown) hf hvirtual hexpr
  rcases Program.Runs.bind_iff.1 hread with ⟨error', hfetch, herror⟩ | ⟨u₅, u₆, rows, rfl, -, hend⟩
  · cases herror
    obtain ⟨answer, -, hanswer⟩ := Program.Runs.fetch hfetch
    cases answer with
    | ok rows => cases hanswer
    | error failure =>
      cases hanswer
      exact absurd hkind (QueryError.sql_not_ofMetadata _ failure)
  · cases hend.2

/-- A record that is not there is no fault of the metadata. -/
theorem of_saved {key : Json} (h : (s.saved e key caller).Runs t (.error error))
    (hkind : error.kind ∈ QueryError.ofMetadata) : Unreadable s e caller t error := by
  rcases Program.Runs.bind_iff.1 h with ⟨error', hread, herror⟩ | ⟨u₁, u₂, found, rfl, -, hfound⟩
  · cases herror
    exact of_readRow hread hkind
  obtain ⟨r, hfound, hr⟩ := Program.Runs.map_iff.1 hfound
  cases found with
  | some row =>
    cases hfound.2
    cases hr
  | none =>
    rw [Session.orNotFound] at hfound
    cases (Program.Runs.ofResult_iff.1 hfound).2
    cases hr
    exact absurd hkind (QueryError.recordNotFound_not_ofMetadata _)

/-- An object that is linked somewhere and has no computed fields can be read. -/
theorem elim (h : Unreadable s e caller t error) (hstored : ∀ f ∈ e.fields, f.isVirtual = false)
    (hlinked : ∀ links : Links, ⟨.links, links⟩ ∈ t → ∃ known, links e.id = .ok known) : False := by
  cases h with
  | unlinked hlinks h =>
    obtain ⟨known, hknown⟩ := hlinked _ hlinks
    cases hknown.symm.trans h
  | filter _ _ _ hf htype _ _ _ _ =>
    have hvirtual := hstored _ hf
    rw [Field.isVirtual, htype] at hvirtual
    cases hvirtual
  | column _ _ _ hf hvirtual _ =>
    cases (hstored _ hf).symm.trans hvirtual

end Unreadable

/-! ## What a create leaves behind -/

namespace Session

variable {s : Session} {entity : String} {values : Json} {caller : Caller} {t : List Exchange}
  {error : QueryError}

/-- A create plans nothing, or a row with its links and after that a read of the record. -/
theorem exists_of_createPlan {plan : Plan SaveOutcome}
    (h : (s.createPlan entity values caller).Runs t (.ok plan)) :
    ∃ (catalog : Catalog) (e : Entity), t.head? = some ⟨.catalog, catalog⟩ ∧
      catalog.entity entity = .ok e ∧
      ((∃ errors, plan = .listed [] (pure (.invalid errors))) ∨
        ∃ row others, ∃ key : Nat → Json,
          plan = .numbered row others fun number => s.saved e (key number) caller) := by
  obtain ⟨catalog, u, rfl, hentity⟩ := Program.Runs.catalog_bind_iff.1 h
  obtain ⟨e, he, hlinks⟩ := Program.Runs.ofResult_bind_ok.1 hentity
  refine ⟨catalog, e, rfl, he, ?_⟩
  obtain ⟨_, u, links, rfl, -, hinput⟩ := Program.Runs.bind_ok.1 hlinks
  obtain ⟨input, -, hprepare⟩ := Program.Runs.ofResult_bind_ok.1 hinput
  obtain ⟨p, -, hplan⟩ := Program.Runs.ofResult_bind_ok.1 hprepare
  split at hplan
  · cases hplan.2
    exact .inl ⟨_, rfl⟩
  · obtain ⟨_, u, own, rfl, -, hplan⟩ := Program.Runs.bind_ok.1 hplan
    cases hplan.2
    exact .inr ⟨_, _, _, rfl⟩

/-- Writing fails with a statement that the database refused. -/
theorem exists_of_executeAll_error {ws : List Sql.Write}
    (h : (s.executeAll ws).Runs t (.error error)) :
    ∃ statement failure, error = .sql statement failure := by
  induction ws generalizing t with
  | nil => cases h.2
  | cons w ws ih =>
    rcases Program.Runs.bind_iff.1 h with ⟨error', hw, herror⟩ | ⟨t₁, t₂, number, rfl, -, hrest⟩
    · cases herror
      rcases runs_execute hw with ⟨number, -, hr⟩ | ⟨failure, -, hr⟩
      · cases hr
      · cases hr
        exact ⟨_, failure, rfl⟩
    · exact ih hrest

/-- A row with its links is written to the end unless the database fails. -/
theorem exists_of_carryOut_error {α : Type} {row : Sql.Write} {others : Nat → List Sql.Write}
    {last : Nat → Program α}
    (h : (s.carryOut (.numbered row others last)).Runs t (.error error))
    (hkind : error.kind ∈ QueryError.ofMetadata) :
    ∃ number written after, t = written ++ after ∧
      Exchange.writes written = row :: others number ∧ (last number).Runs after (.error error) := by
  rcases Program.Runs.bind_iff.1 h with ⟨error', hrow, herror⟩ | ⟨t₁, t₂, number, rfl, hrow, hrest⟩
  · cases herror
    rcases runs_execute hrow with ⟨number, -, hr⟩ | ⟨failure, -, hr⟩
    · cases hr
    · cases hr
      exact absurd hkind (QueryError.sql_not_ofMetadata _ failure)
  rcases Program.Runs.bind_iff.1 hrest with ⟨error', hall, herror⟩ | ⟨t₃, t₄, _, rfl, hall, hlast⟩
  · cases herror
    obtain ⟨w, failure, rfl⟩ := exists_of_executeAll_error hall
    exact absurd hkind (QueryError.sql_not_ofMetadata _ failure)
  refine ⟨number, t₁ ++ t₃, t₄, (List.append_assoc ..).symm, ?_, hlast⟩
  rw [Exchange.writes_append, Program.Runs.execute_ok hrow, writes_of_executeAll hall]
  rfl

/-- A create that fails, and not because of the database, has written nothing or has written all that
it planned, the row and its links, and could not read the record back: its links are unknown by then,
the filter of a formula field cannot be reduced or a computed field has no expression. What is wrong
with the values or with a connection that is written is seen before, so that an object without
computed fields is left as it is. -/
theorem create_fails_unwritten_or_unread (h : (s.create entity values caller).Runs t (.error error))
    (hkind : error.kind ∈ QueryError.ofMetadata) :
    (Exchange.writes t = [] ∨ ∃ catalog e plan number before written after,
      t = before ++ (written ++ after) ∧ t.head? = some ⟨.catalog, catalog⟩ ∧
      catalog.entity entity = .ok e ∧
      (s.createPlan entity values caller).Runs before (.ok plan) ∧
      Exchange.writes t = plan.statements number ∧
      Exchange.writes written = plan.statements number ∧ Unreadable s e caller after error) ∧
    ∀ (catalog : Catalog) e, t.head? = some ⟨.catalog, catalog⟩ → catalog.entity entity = .ok e →
      (∀ f ∈ e.fields, f.isVirtual = false) →
      (∀ links : Links, ⟨.links, links⟩ ∈ t → ∃ known, links e.id = .ok known) →
      Exchange.writes t = [] := by
  have hreads := s.onlyReads_createPlan entity values caller
  rw [create_eq] at h
  rcases Program.Runs.bind_iff.1 h with ⟨error', hplan, herror⟩ | ⟨before, t₂, plan, rfl, hplan, hrest⟩
  · have hnone := hreads.writes_eq_nil hplan
    exact ⟨.inl hnone, fun _ _ _ _ _ _ => hnone⟩
  have hnone := hreads.writes_eq_nil hplan
  obtain ⟨catalog, e, hhead, he, ⟨errors, rfl⟩ | ⟨row, others, key, rfl⟩⟩ := exists_of_createPlan hplan
  · cases hrest.2
  obtain ⟨number, written, after, rfl, hwritten, hlast⟩ := exists_of_carryOut_error hrest hkind
  have hunread : Unreadable s e caller after error := .of_saved hlast hkind
  have hfirst : (before ++ (written ++ after)).head? = some ⟨.catalog, catalog⟩ := by
    rw [List.head?_append, hhead]
    rfl
  have hwrites : Exchange.writes (before ++ (written ++ after)) = row :: others number := by
    rw [Exchange.writes_append, Exchange.writes_append, hnone, hwritten,
      (s.onlyReads_saved e (key number) caller).writes_eq_nil hlast, List.append_nil, List.nil_append]
  refine ⟨.inr ⟨catalog, e, _, number, before, written, after, rfl, hfirst, he, hplan, hwrites,
    hwritten, hunread⟩, fun catalog' e' hhead' he' hstored hlinked => ?_⟩
  cases hfirst.symm.trans hhead'
  cases he.symm.trans he'
  refine (hunread.elim hstored fun links hlinks => hlinked links ?_).elim
  exact List.mem_append_right _ (List.mem_append_right _ hlinks)

/-- A note is written with its tag, but its total names no column and cannot be read back. A note
without a total is refused before it is written, for values that are no object. -/
theorem create_fails_unwritten_or_unread_note :
    let tags := Field.new "f" "tags" (.connection (.between "tag" .many .many))
    let total := Field.new "x" "total" (.calculate "\x7bmissing\x7d * 2")
    let note := Entity.new "note" "Note" "NOTE" [tags, total]
    let tag := Entity.new "tag" "Tag" "TAG" []
    let catalog : Catalog := ⟨[note, tag], [], []⟩
    let s : Session := ⟨{}, {}, .tenant⟩
    let system : Caller := ⟨none, "en", true⟩
    let answer := Request.steady catalog (LinkMap.ofCatalog {} catalog) fun _ => []
    let values : Json := .obj [("tags", .str "t1"), ("uuid", .str "n1")]
    let ran := (s.create "note" values system).transcript answer
    let error : QueryError := .configuration (.unknownOperand "Note" "missing")
    let refused := (s.create "tag" (.arr []) system).transcript answer
    let error' : QueryError := .invalidInput (.valuesNotObject (.arr []))
    (s.create "note" values system).Runs ran.1 (.error error) ∧ error.kind ∈ QueryError.ofMetadata ∧
      (∃ after, Unreadable s note system after error) ∧
      (s.create "tag" (.arr []) system).Runs refused.1 (.error error') ∧
      error'.kind ∈ QueryError.ofMetadata ∧ Exchange.writes refused.1 = [] := by
  intro tags total note tag catalog s system answer values ran error refused error'
  have hran : (s.create "note" values system).Runs ran.1 (.error error) := by
    apply Program.Runs.of_transcript
    dsimp only [s, system, tags, total, note, tag, catalog, values, answer, error]
    rfl
  have hrefused : (s.create "tag" (.arr []) system).Runs refused.1 (.error error') := by
    apply Program.Runs.of_transcript
    dsimp only [s, system, tags, total, note, tag, catalog, values, answer, error']
    rfl
  have hkind : error.kind ∈ QueryError.ofMetadata := by decide
  have hkind' : error'.kind ∈ QueryError.ofMetadata := by decide
  refine ⟨hran, hkind, ?_, hrefused, hkind', ?_⟩
  · rcases (create_fails_unwritten_or_unread hran hkind).1 with
      hnone | ⟨catalog', e, plan, number, before, written, after, heq, hhead, he, -, -, -, hunread⟩
    · cases hnone
    · have hcatalog : ran.1.head? = some ⟨.catalog, catalog⟩ := rfl
      cases hcatalog.symm.trans hhead
      have hnote : catalog.entity "note" = .ok note := rfl
      cases hnote.symm.trans he
      exact ⟨after, hunread⟩
  · refine (create_fails_unwritten_or_unread hrefused hkind').2 catalog tag rfl rfl
      (fun f hf => by cases hf) fun links hlinks => ?_
    have hanswer : links = LinkMap.ofCatalog {} catalog :=
      (Program.Runs.iff_transcript.2 (rfl : _ = (refused.1, refused.2))).2 _ hlinks
    subst hanswer
    exact ⟨_, rfl⟩

/-- A note whose total names no column is there when its creation has failed. -/
theorem create_fails_after_writing :
    let total := Field.new "x" "total" (.calculate "\x7bmissing\x7d * 2")
    let note := Entity.new "note" "Note" "NOTE" [total]
    let catalog : Catalog := ⟨[note], [], []⟩
    let s : Session := ⟨{}, {}, .tenant⟩
    let system : Caller := ⟨none, "en", true⟩
    let answer := Request.steady catalog (LinkMap.ofCatalog {} catalog) fun _ => []
    let ran := (s.create "note" (.obj [("uuid", .str "n1")]) system).transcript answer
    let error : QueryError := .configuration (.unknownOperand "Note" "missing")
    (s.create "note" (.obj [("uuid", .str "n1")]) system).Runs ran.1 (.error error) ∧
      error.kind = "Configuration" ∧ (Exchange.writes ran.1).map (·.sql.toText) =
        ["INSERT INTO `NOTE` (`uuid`, `created_at`, `updated_at`) VALUES ('n1', NOW(), NOW())"] := by
  intro total note catalog s system answer ran error
  refine ⟨?_, rfl, ?_⟩
  · apply Program.Runs.of_transcript
    dsimp only [s, system, total, note, catalog, answer, error]
    rfl
  · dsimp only [s, system, total, note, catalog, answer, ran]
    decide +kernel

end Session

end CatalogQuery
