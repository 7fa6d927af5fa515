import CatalogQuery.Proofs.Reduce.Scopes
import CatalogQuery.Proofs.Save.FailStop
import CatalogQuery.Proofs.Save.FoundFirst

/-!
# Callers who may not write

Records are changed only where the caller sees them. Main statement: a caller who is not logged in, not
known, not active or without a scope on the object changes and deletes nothing; what such a caller
creates is written, since a create asks for no scopes.
-/

namespace CatalogQuery

open Reduce Sql

/-! ## What the directory says -/

theorem Scope.mem_of_mem_distinct {seen : List String} {scopes : List Scope} {scope : Scope}
    (h : scope ∈ distinct seen scopes) : scope ∈ scopes := by
  induction scopes generalizing seen with
  | nil => exact h
  | cons first rest ih =>
    unfold distinct at h
    split at h
    · exact List.mem_cons_of_mem _ (ih h)
    · rcases List.mem_cons.1 h with rfl | h
      · exact List.mem_cons_self
      · exact List.mem_cons_of_mem _ (ih h)

namespace Directory

variable {d : Directory} {channel : Channel}

/-- Scopes are read for users only who are known and active. -/
theorem exists_of_scopesOf {username : String} {t : List Exchange} {scopes : List Scope}
    (h : (d.scopesOf channel username).Runs t (.ok scopes)) :
    ∃ rows row roles u, ⟨.fetch channel (d.userSelect username), .ok rows⟩ ∈ t ∧
      rows.head? = some row ∧ (UserRecord.ofRow username row).isActive = true ∧
      (∀ x ∈ u, x ∈ t) ∧ (d.scopes channel roles).Runs u (.ok scopes) := by
  obtain ⟨t₁, t₂, found, rfl, huser, hrest⟩ := Program.Runs.bind_ok.1 h
  obtain ⟨t₃, t₄, rows, rfl, hfetch, rfl, hfound⟩ := Program.Runs.bind_ok.1 huser
  have hrows := (Program.Runs.fetch_ok hfetch).mem
  cases hhead : rows.head? with
  | none =>
    rw [hhead] at hfound
    cases hfound
    cases hrest.2
  | some row =>
    rw [hhead] at hfound
    cases hfound
    by_cases hactive : (UserRecord.ofRow username row).isActive = true
    · simp only [Option.map_some, hactive, Bool.not_true, Bool.false_eq_true, if_false] at hrest
      obtain ⟨t₅, t₆, roles, rfl, -, hscopes⟩ := Program.Runs.bind_ok.1 hrest
      exact ⟨rows, row, roles, t₆, by simp [hrows], hhead, hactive, by simp +contextual, hscopes⟩
    · simp only [Option.map_some, hactive, Bool.not_false, if_true] at hrest
      cases hrest.2

/-- Each scope is that of a row that was read. -/
theorem mem_of_scopes {roles : List Role} {t : List Exchange} {scopes : List Scope}
    (h : (d.scopes channel roles).Runs t (.ok scopes)) {scope : Scope} (hscope : scope ∈ scopes) :
    ∃ rows read, ⟨.fetch channel (d.scopesSelect roles), .ok rows⟩ ∈ t ∧
      rows.mapM Scope.ofRow = .ok read ∧ scope ∈ read := by
  rw [Directory.scopes] at h
  split at h
  · cases h.2
    cases hscope
  · obtain ⟨t₁, t₂, rows, rfl, hfetch, hrest⟩ := Program.Runs.bind_ok.1 h
    obtain ⟨t₃, t₄, read, rfl, hread, -, hdistinct⟩ := Program.Runs.bind_ok.1 hrest
    cases hdistinct
    have hrows := (Program.Runs.fetch_ok hfetch).mem
    exact ⟨rows, read, by simp [hrows], (Program.Runs.ofResult_iff.1 hread).2.symm,
      Scope.mem_of_mem_distinct hscope⟩

end Directory

namespace Session

/-- Why a caller may change nothing of an object, by what the directory answers in a run. -/
inductive Unauthorised (s : Session) (caller : Caller) (entity : String) (t : List Exchange) : Prop
  /-- The caller is not logged in. -/
  | anonymous (h : caller.username = none)
  | unknown {username : String} (h : caller.username = some username)
    (hrows : ∀ rows, ⟨.fetch s.channel (s.directory.userSelect username), .ok rows⟩ ∈ t → rows = [])
  | inactive {username : String} (h : caller.username = some username)
    (hrows : ∀ rows, ⟨.fetch s.channel (s.directory.userSelect username), .ok rows⟩ ∈ t →
      ∀ row ∈ rows.head?, (UserRecord.ofRow username row).isActive = false)
  /-- No scope of the caller's roles covers the object. -/
  | uncovered {username : String} (h : caller.username = some username)
    (hscopes : ∀ roles rows scopes,
      ⟨.fetch s.channel (s.directory.scopesSelect roles), .ok rows⟩ ∈ t →
      rows.mapM Scope.ofRow = .ok scopes → ∀ scope ∈ scopes, scope.covers entity = false)

/-- Whether nothing was found where nothing can be. -/
def FindsNoneForFalse (t : List Exchange) : Prop :=
  ∀ channel (statement : Select) rows, ⟨.fetch channel statement, .ok rows⟩ ∈ t →
    statement.filter = some (.constant false) → rows = []

variable {s : Session} {caller : Caller} {entity : String} {t : List Exchange}

/-- What such a caller sees of an object is nothing at all. -/
theorem narrow_of_unauthorised (hsystem : caller.isSystem = false) {e : Entity}
    (h : s.Unauthorised caller e.id t) {u : List Exchange} (hu : ∀ x ∈ u, x ∈ t) {sight : Sight}
    (hsight : (s.sight caller).Runs u (.ok sight)) (c : Condition) :
    sight.narrow e c = Condition.constant false := by
  rw [Session.sight, hsystem, if_neg Bool.false_ne_true] at hsight
  cases hname : caller.username with
  | none =>
    rw [hname] at hsight
    cases hsight.2
    rfl
  | some username =>
    rw [hname] at hsight
    obtain ⟨r, hscopesOf, hr⟩ := Program.Runs.map_iff.1 hsight
    cases r with
    | error e => cases hr
    | ok scopes =>
      cases hr
      obtain ⟨rows, row, roles, v, hrows, hhead, hactive, hv, hscopes⟩ :=
        Directory.exists_of_scopesOf hscopesOf
      apply narrow_of_not_covered
      intro scope hscope
      cases h with
      | anonymous h => cases hname.symm.trans h
      | unknown h hnone =>
        cases hname.symm.trans h
        rw [hnone rows (hu _ hrows)] at hhead
        cases hhead
      | inactive h hinactive =>
        cases hname.symm.trans h
        cases hactive.symm.trans (hinactive rows (hu _ hrows) row hhead)
      | uncovered h huncovered =>
        obtain ⟨rows, read, hread, hof, hmem⟩ := Directory.mem_of_scopes hscopes hscope
        exact huncovered roles rows read (hu _ (hv _ hread)) hof scope hmem

/-- The statement of a condition that nothing satisfies. -/
theorem filter_of_findSelect {env : Compile.Env} {e : Entity} {o : FindOptions}
    {statement : Select}
    (h : (findSelect env e o (Condition.constant false)).result = .ok statement) :
    statement.filter = some (.constant false) := by
  rw [findSelect] at h
  obtain ⟨⟨source, frame⟩, -, h⟩ := Traced.result_bind_ok.1 h
  obtain ⟨computed, -, h⟩ := Traced.result_bind_ok.1 h
  obtain ⟨filter, hfilter, h⟩ := Traced.result_bind_ok.1 h
  obtain ⟨order, -, h⟩ := Traced.result_bind_ok.1 h
  rw [condition_constant] at hfilter
  cases hfilter
  cases h
  rfl

/-- Such a caller's lookup of a record finds none. -/
theorem lockedFind_of_unauthorised (hsystem : caller.isSystem = false)
    (hcaller : s.Unauthorised caller entity t) (hfalse : FindsNoneForFalse t) {key : Json}
    {u : List Exchange} (hu : ∀ x ∈ u, x ∈ t) {found : Option Row}
    (h : (s.lockedFind entity key caller).Runs u (.ok found)) : found = none := by
  obtain ⟨catalog, e, reducing, filtering, compiling, read, c, filters, links, statement, rows, rfl,
    -, ⟨-, catalog', e', seen, rest, sight, nodes, rfl, he', hsight, rfl⟩, -, hselect, hread, rfl⟩ :=
    readsUnderLock_of_runs h
  have hnarrow : sight.narrow e' (byKey key) = Condition.constant false := by
    apply narrow_of_unauthorised (t := t) (u := seen) hsystem ?_ ?_ hsight
    · rw [Catalog.id_of_entity he']
      exact hcaller
    · intro x hx
      apply hu
      simp [hx]
  rw [hnarrow, (substituted_of_resolved (resolved_constant false)).2 nodes] at hselect
  have hrows : rows = [] := by
    apply hfalse s.channel statement rows (hu _ _) (filter_of_findSelect hselect)
    simp [hread.mem]
  rw [hrows, List.head?_nil]

/-- What a create is going to write does not depend on who asks. -/
theorem createPlan_caller (s : Session) (entity : String) (values : Json)
    (caller caller' : Caller) :
    Plan.statements <$> s.createPlan entity values caller =
      Plan.statements <$> s.createPlan entity values caller' := by
  simp only [createPlan, map_bind]
  refine bind_congr fun catalog => bind_congr fun e => bind_congr fun links => ?_
  refine bind_congr fun input => bind_congr fun p => ?_
  by_cases herrors : p.errors.isEmpty
  · simp only [herrors, Bool.not_true, Bool.false_eq_true, if_false, map_bind, map_pure]
    refine bind_congr fun own => congrArg pure ?_
    funext number
    simp only [Plan.statements]
  · simp only [herrors, Bool.not_false, if_true, map_pure]

/-- A caller who is not logged in, not known, not active or without a scope on the object changes,
deletes and relinks none of its records, where the database finds nothing for a false condition. A
create asks for no scopes, so what it writes is the same for every caller. -/
theorem unauthorised_changes_nothing {s : Session} {caller : Caller}
    (hsystem : caller.isSystem = false) :
    (∀ (call : Call) (entity : String) (key : Json), call.changed? = some (entity, key) →
      ∀ (t : List Exchange) (r : Result Unit), (call.program s caller).Runs t r →
        s.Unauthorised caller entity t → FindsNoneForFalse t → Exchange.writes t = []) ∧
    ∀ (entity : String) (values : Json) (caller' : Caller),
      Plan.statements <$> s.createPlan entity values caller =
        Plan.statements <$> s.createPlan entity values caller' := by
  refine ⟨fun call entity key hcall t r hrun hcaller hfalse => ?_,
    fun entity values => s.createPlan_caller entity values caller⟩
  rcases Call.changes_of_runs hcall hrun with hquiet | ⟨catalog, e, u, -, -, hfound⟩
  · exact hquiet.writes_eq_nil
  apply List.filterMap_eq_nil_iff.2
  intro x hx
  by_contra hwrite
  obtain ⟨before, after, ht⟩ := List.append_of_mem hx
  -- Before a write the record was found, and such a caller finds none.
  obtain ⟨first, found, rest, row, hbefore, -, hlookup⟩ := hfound.of_write ht hwrite
  have hmem : ∀ y ∈ found, y ∈ t := by
    intro y hy
    simp [ht, hbefore, hy]
  cases lockedFind_of_unauthorised hsystem hcaller hfalse hmem hlookup

/-- Nobody is known by the name of the caller, who does not delete a note. -/
theorem unauthorised_changes_nothing_note :
    let s : Session := ⟨{}, {}, .tenant⟩
    let eve : Caller := ⟨some "eve", "en", false⟩
    let catalog : Catalog := ⟨[.new "note" "Note" "NOTE" []], [], []⟩
    let answer := Request.steady catalog (LinkMap.ofCatalog {} catalog) fun _ => []
    let call : Call := .delete "note" (.str "n1")
    let t := ((call.program s eve).transcript answer).1
    eve.isSystem = false ∧ (call.program s eve).Runs t (.error (.security (.unknownUser "eve"))) ∧
      s.Unauthorised eve "note" t ∧ FindsNoneForFalse t ∧ Exchange.writes t = [] := by
  intro s eve catalog answer call t
  have htranscript : (call.program s eve).transcript answer =
      (t, .error (.security (.unknownUser "eve"))) := by
    dsimp only [s, eve, catalog, answer, call, t]
    rfl
  obtain ⟨hrun, hanswers⟩ := Program.Runs.iff_transcript.2 htranscript
  have hnone (channel : Channel) (statement : Select) (rows : List Row)
      (h : ⟨.fetch channel statement, .ok rows⟩ ∈ t) : rows = [] := by
    have h : Except.ok rows = (Except.ok [] : Except DatabaseFailure (List Row)) := hanswers _ h
    cases h
    rfl
  have hcaller : s.Unauthorised eve "note" t := .unknown rfl fun rows => hnone _ _ rows
  have hfalse : FindsNoneForFalse t := fun channel statement rows h _ => hnone channel statement rows h
  refine ⟨rfl, hrun, hcaller, hfalse, ?_⟩
  exact (unauthorised_changes_nothing rfl).1 call "note" (.str "n1") rfl t _ hrun hcaller hfalse

/-- What callers without any right write nevertheless: nobody is known by the name of the one who
creates a note, and the database gives a row for a false condition to the other, who is not logged in
and deletes one. -/
theorem unauthorised_writes :
    let s : Session := ⟨{}, {}, .tenant⟩
    let catalog : Catalog := ⟨[.new "note" "Note" "NOTE" []], [], []⟩
    let row : Row := [("uuid", .str "n1")]
    (let eve : Caller := ⟨some "eve", "en", false⟩
    let answer := Request.steady catalog (LinkMap.ofCatalog {} catalog) fun statement =>
      match statement.filter with
      | some (.compare _ _ _) => if statement.source.table = "NOTE" then [row] else []
      | _ => []
    let call : Call := .create "note" (.obj row)
    let t := ((call.program s eve).transcript answer).1
    (call.program s eve).Runs t (.ok ()) ∧ s.Unauthorised eve "note" t ∧ FindsNoneForFalse t ∧
      Exchange.writes t = [.insert "NOTE" [Write.setTo "uuid" (.str "n1"), ⟨"created_at", .now⟩,
        ⟨"updated_at", .now⟩]]) ∧
    (let nobody : Caller := ⟨none, "en", false⟩
    let answer := Request.steady catalog (LinkMap.ofCatalog {} catalog) fun _ => [row]
    let call : Call := .delete "note" (.str "n1")
    let t := ((call.program s nobody).transcript answer).1
    (call.program s nobody).Runs t (.ok ()) ∧ s.Unauthorised nobody "note" t ∧
      Exchange.writes t = [.delete "NOTE" [columnIs "uuid" (.str "n1")]]) := by
  intro s catalog row
  constructor
  · intro eve answer call t
    have htranscript : (call.program s eve).transcript answer = (t, .ok ()) := by
      dsimp only [s, eve, catalog, row, answer, call, t]
      rfl
    obtain ⟨hrun, hanswers⟩ := Program.Runs.iff_transcript.2 htranscript
    refine ⟨hrun, .unknown rfl fun rows h => ?_, fun channel statement rows h hfilter => ?_, ?_⟩
    · cases (hanswers _ h : Except.ok rows = (Except.ok [] : Except DatabaseFailure (List Row)))
      rfl
    · obtain ⟨distinct, columns, source, filter, order, limit, offset⟩ := statement
      cases hfilter
      cases (hanswers _ h : Except.ok rows = (Except.ok [] : Except DatabaseFailure (List Row)))
      rfl
    · dsimp only [t, s, eve, catalog, row, answer, call]
      rfl
  · intro nobody answer call t
    have hrun : (call.program s nobody).Runs t (.ok ()) := by
      apply Program.Runs.of_transcript
      dsimp only [s, nobody, catalog, row, answer, call]
      rfl
    refine ⟨hrun, .anonymous rfl, ?_⟩
    dsimp only [t, s, nobody, catalog, row, answer, call]
    rfl

end Session

end CatalogQuery
