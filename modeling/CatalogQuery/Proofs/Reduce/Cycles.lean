import CatalogQuery.Proofs.Reduce.KeyReads
import CatalogQuery.Proofs.Reduce.Unreplaced
import Mathlib.Logic.Relation

/-!
# Stored filters that reach themselves

The condition of a stored filter names others by its rules of membership. While a tree is reduced,
the ids of the stored filters around it are kept, those of queries and of data collections in one
list. Main statement: reducing fails over a cycle only where a stored filter reaches itself, or
reaches one of the other kind with the same id, and it always fails where one reaches itself.
-/

namespace CatalogQuery.Reduce

open Relation (TransGen ReflTransGen)

/-! ## Which stored filters are named -/

/-- A stored filter by its kind and its id. -/
inductive StoredName where
  | query (id : String)
  | collection (id : String)
deriving DecidableEq

namespace StoredName

def id : StoredName → String
  | query id => id
  | collection id => id

/-- The stored filter of that name, unless there is none or it is over a query that is not there. -/
def source? (catalog : Catalog) : StoredName → Option StoredSource
  | query id => (queryNamed catalog id).result.toOption
  | collection id => (collectionNamed catalog id).result.toOption

/-- Names with the same id are the same or of different kinds. -/
theorem eq_or_kinds {d d' : StoredName} {i : String} (h : d.id = i) (h' : d'.id = i) :
    d = d' ∨ (d = .query i ∧ d' = .collection i ∨ d = .collection i ∧ d' = .query i) := by
  cases d <;> cases d' <;> cases h <;> cases h' <;> simp [id]

end StoredName

/-- The stored filter that a rule of membership names. -/
def named (r : Rule) : Option StoredName :=
  match r.op with
  | .inQuery | .notInQuery => some (.query r.value.plain)
  | .inQueryField | .notInQueryField =>
    (Text.splitAtFirst ':' r.value.plain.toList).map fun (query, _) => .query (String.ofList query)
  | .inDataCollection | .notInDataCollection => some (.collection r.value.plain)
  | _ => none

/-- Whether the condition of a stored filter names another one. -/
def Names (catalog : Catalog) (d d' : StoredName) : Prop :=
  ∃ stored, d.source? catalog = some stored ∧ ∃ r ∈ stored.condition.rules, named r = some d'

/-- Whether a tree leads to a stored filter: it names one that does, over any number of others. -/
def LeadsTo (catalog : Catalog) (c : Condition) (d : StoredName) : Prop :=
  ∃ r ∈ c.rules, ∃ first, named r = some first ∧ ReflTransGen (Names catalog) first d

theorem LeadsTo.next {catalog : Catalog} {c : Condition} {d d' : StoredName}
    (h : LeadsTo catalog c d) (hnames : Names catalog d d') : LeadsTo catalog c d' := by
  obtain ⟨r, hr, first, hfirst, h⟩ := h
  exact ⟨r, hr, first, hfirst, h.tail hnames⟩

/-! ## Looking them up -/

theorem id_of_queryNamed {catalog : Catalog} {id : String} {stored : StoredSource}
    (h : (queryNamed catalog id).result = .ok stored) : stored.id = id := by
  rw [queryNamed] at h
  split at h
  · rename_i q hq
    cases h
    simpa using List.find?_some hq
  · cases h

theorem id_of_collectionNamed {catalog : Catalog} {id : String} {stored : StoredSource}
    (h : (collectionNamed catalog id).result = .ok stored) : stored.id = id := by
  rw [collectionNamed] at h
  split at h
  · rename_i d hd
    have hid : d.id = id := by simpa using List.find?_some hd
    split at h
    · cases h
      exact hid
    · obtain ⟨q, -, h⟩ := Traced.result_bind_ok.1 h
      cases h
      exact hid
  · cases h

theorem toOption_eq_some {α : Type} {r : Result α} {a : α} :
    r.toOption = some a ↔ r = .ok a := by
  cases r <;> simp [Except.toOption]

theorem StoredName.id_of_source? {catalog : Catalog} {d : StoredName} {stored : StoredSource}
    (h : d.source? catalog = some stored) : stored.id = d.id := by
  cases d with
  | query id => exact id_of_queryNamed (toOption_eq_some.1 h)
  | collection id => exact id_of_collectionNamed (toOption_eq_some.1 h)

theorem StoredName.mem_storedIds {catalog : Catalog} {d : StoredName} {stored : StoredSource}
    (h : d.source? catalog = some stored) : d.id ∈ storedIds catalog := by
  rw [← id_of_source? h]
  cases d with
  | query id => exact ensures_queryNamed catalog id stored (toOption_eq_some.1 h)
  | collection id => exact ensures_collectionNamed catalog id stored (toOption_eq_some.1 h)

/-- What is looked up for a rule of membership is the stored filter that it names. -/
theorem yields_named {catalog : Catalog} {r : Rule}
    {source : Program (StoredSource × Option String)} (h : sourceOf catalog r = some source) :
    source.Yields fun found => ∃ d, named r = some d ∧ d.source? catalog = some found.1 := by
  rw [sourceOf.eq_def] at h
  simp only [named.eq_def]
  cases hop : r.op <;> rw [hop] at h <;> cases h
  case inQuery | notInQuery | inDataCollection | notInDataCollection =>
    refine Program.Yields.bind (.withLinks fun _ stored hstored => ?_) fun _ h => .pure h
    exact ⟨_, rfl, toOption_eq_some.2 hstored⟩
  case inQueryField | notInQueryField =>
    refine Program.Yields.bind (.withLinks fun _ found hfound => ?_) fun _ h => .pure h
    obtain ⟨query, field, hsplit, hquery⟩ := queryNamed_of_queryField hfound
    exact ⟨.query (String.ofList query), by rw [hsplit]; rfl, toOption_eq_some.2 hquery⟩

theorem mem_memberships_of_named {r : Rule} {d : StoredName} (h : named r = some d) :
    r.op ∈ memberships := by
  rw [named.eq_def] at h
  split at h <;> first | (cases h; done) | simp [memberships, *]

theorem isPlaceholder_of_named {r : Rule} {d : StoredName} (h : named r = some d) :
    r.op.isPlaceholder = true := by
  have hall : ∀ op ∈ memberships, op.isPlaceholder = true := by decide
  exact hall r.op (mem_memberships_of_named h)

/-! ## A cycle that is found is there -/

/-- Whether a tree leads to a stored filter, and this one to one with the same id: it reaches itself, or
one that is of the other kind. -/
def ComesBack (catalog : Catalog) (c : Condition) (id : String) : Prop :=
  ∃ d d', d.id = id ∧ d'.id = id ∧ LeadsTo catalog c d ∧ TransGen (Names catalog) d d' ∧
    (d.source? catalog).isSome ∧ (d'.source? catalog).isSome

/-- What holds of the stored filters around a tree that names `d` when it is reduced: they are all
different by their ids, and each leads to `d`. -/
structure Around (catalog : Catalog) (c : Condition) (levels : Nat) (visiting : List String)
    (d : StoredName) : Prop where
  nodup : visiting.Nodup
  stored : ∀ id ∈ visiting, id ∈ storedIds catalog
  length : visiting.length + levels = catalog.storedFilters
  leads : ∀ id ∈ visiting, ∃ d', d'.id = id ∧ LeadsTo catalog c d' ∧
    TransGen (Names catalog) d' d ∧ (d'.source? catalog).isSome

theorem Around.nil (catalog : Catalog) (c : Condition) (d : StoredName) :
    Around catalog c catalog.storedFilters [] d := ⟨.nil, by simp, by simp, by simp⟩

theorem Around.comesBack {catalog : Catalog} {c : Condition} {levels : Nat}
    {visiting : List String} {d : StoredName} {stored : StoredSource}
    (h : Around catalog c levels visiting d) (hsource : d.source? catalog = some stored)
    (hmem : d.id ∈ visiting) : ComesBack catalog c d.id := by
  obtain ⟨d', hid, hleads, htrans, hsome⟩ := h.leads d.id hmem
  exact ⟨d', d, hid, rfl, hleads, htrans, hsome, by simp [hsource]⟩

/-- Going on to what a stored filter names puts it among those around. -/
theorem Around.next {catalog : Catalog} {c : Condition} {levels : Nat} {visiting : List String}
    {d d' : StoredName} {stored : StoredSource} (h : Around catalog c (levels + 1) visiting d)
    (hleads : LeadsTo catalog c d) (hsource : d.source? catalog = some stored)
    (hnot : d.id ∉ visiting) (hnames : Names catalog d d') :
    Around catalog c levels (visiting ++ [d.id]) d' where
  nodup := h.nodup.append (List.nodup_singleton _) (by simpa using hnot)
  stored := List.forall_mem_append.2 ⟨h.stored, by simpa using StoredName.mem_storedIds hsource⟩
  length := by
    have hlength := h.length
    simp only [List.length_append, List.length_singleton]
    omega
  leads := by
    refine List.forall_mem_append.2 ⟨fun id hid => ?_, List.forall_mem_singleton.2 ?_⟩
    · obtain ⟨d₀, hid, hleads, htrans, hsome⟩ := h.leads id hid
      exact ⟨d₀, hid, hleads, htrans.tail hnames, hsome⟩
    · exact ⟨d, rfl, hleads, .single hnames, by simp [hsource]⟩

/-- What is said of an error if it is that of a cycle: the last of the ids has come before, and the
tree leads to a stored filter that comes back to it. -/
def CycleFound (catalog : Catalog) (c : Condition) (e : QueryError) : Prop :=
  ∀ chain, e = .configuration (.cyclicFilters chain) → ∃ before id, chain = before ++ [id] ∧
    id ∈ before ∧ ComesBack catalog c id

theorem cycleFound_of_isPlain {catalog : Catalog} {c : Condition} (e : QueryError)
    (h : e.isPlain = true) : CycleFound catalog c e := by
  rintro chain rfl
  cases h

section

variable {t : Tenant} {ctx : Context} {c : Condition}

/-- Compiling meets with no cycle of stored filters. -/
theorem condition_cycleFound (frame : Compile.Frame) (reduced : Condition) :
    (Compile.condition (ctx.env t.links) frame reduced).FailsAs (CycleFound ctx.catalog c) :=
  Compile.failsAs_within cycleFound_of_isPlain (links_of_isPlain cycleFound_of_isPlain)
    (by rintro _ _ _ ⟨⟩) _ _ _

/-- A tree is reduced with the errors of the stored filters that it names. -/
theorem reduceWith_cycleFound (hsight : ctx.sight = .everything) {expand : Expand}
    (entity : String) {c' : Condition}
    (hnamed : ∀ r ∈ c'.rules, ∀ d stored, named r = some d → d.source? ctx.catalog = some stored →
      (expand stored).FailsAs t (CycleFound ctx.catalog c)) :
    (reduceWith ctx expand entity c').FailsAs t (CycleFound ctx.catalog c) := by
  have hchains : ChainsFailAs t ctx (CycleFound ctx.catalog c) :=
    fun e username hop keys _ => condition_cycleFound _ _
  refine failsAs_reduceWith cycleFound_of_isPlain hchains entity c' ?_
  intro e _ r hr source hsource found hfound
  refine ⟨?_, fun _ _ frame _ => condition_cycleFound frame _⟩
  rw [hsight] at hr
  obtain ⟨d, hd, hstored⟩ := (yields_named hsource).of_gives hfound
  exact hnamed r hr d found.1 hd hstored

theorem cyclic_cycleFound {levels : Nat} {visiting : List String} {d : StoredName}
    {stored : StoredSource} (haround : Around ctx.catalog c levels visiting d)
    (hsource : d.source? ctx.catalog = some stored) (hmem : d.id ∈ visiting) :
    (cyclic (visiting ++ [d.id])).FailsAs t (CycleFound ctx.catalog c) := by
  refine failsAs_cyclic fun chain hchain => ?_
  cases hchain
  exact ⟨visiting, d.id, rfl, hmem, haround.comesBack hsource hmem⟩

/-- The induction is on how many stored filters can still lie within each other. -/
theorem expansion_cycleFound (hsight : ctx.sight = .everything) {levels : Nat}
    {visiting : List String} {d : StoredName} {stored : StoredSource}
    (haround : Around ctx.catalog c levels visiting d) (hleads : LeadsTo ctx.catalog c d)
    (hsource : d.source? ctx.catalog = some stored) :
    (expansion ctx levels visiting stored).FailsAs t (CycleFound ctx.catalog c) := by
  induction levels generalizing visiting d stored with
  | zero =>
    -- All stored filters are around it, itself among them.
    rw [expansion, StoredName.id_of_source? hsource]
    exact cyclic_cycleFound haround hsource (mem_of_length_eq haround.nodup haround.stored
      haround.length (StoredName.mem_storedIds hsource))
  | succ levels ih =>
    rw [expansion, StoredName.id_of_source? hsource]
    split
    · rename_i hcontains
      exact cyclic_cycleFound haround hsource (by simpa using hcontains)
    · rename_i hcontains
      rw [reduceTree_eq]
      refine reduceWith_cycleFound hsight _ fun r hr d' stored' hd' hstored' => ?_
      have hnames : Names ctx.catalog d d' := ⟨stored, hsource, r, hr, hd'⟩
      have hnext := haround.next hleads hsource (by simpa using hcontains) hnames
      exact ih hnext (hleads.next hnames) hstored'

theorem reduce_cycleFound (s : Session) (entity : String) {caller : Caller}
    (hsystem : caller.isSystem = true) :
    (reduce s entity c caller).FailsAs t (CycleFound t.catalog c) := by
  rw [reduce]
  refine Program.FailsAs.catalog.bind fun catalog hcatalog => ?_
  rw [hcatalog.catalog, Session.sight, if_pos hsystem]
  refine Program.FailsAs.bind (.ofResult fun err h => ?_) fun e _ => ?_
  · exact cycleFound_of_isPlain err (Catalog.isPlain_entity h)
  rw [pure_bind, reduceTree_eq]
  refine reduceWith_cycleFound rfl entity fun r hr d stored hd hstored => ?_
  exact expansion_cycleFound rfl (.nil _ c d) ⟨r, hr, d, hd, .refl⟩ hstored

end

/-! ## A cycle that is there is found -/

/-- Whether a stored filter is one that reaches itself, or leads to one. -/
def LeadsToCycle (catalog : Catalog) (d : StoredName) : Prop :=
  ∃ d', ReflTransGen (Names catalog) d d' ∧ TransGen (Names catalog) d' d'

/-- On the way around a cycle there is always a next one. -/
theorem LeadsToCycle.exists_names {catalog : Catalog} {d : StoredName}
    (h : LeadsToCycle catalog d) : ∃ d', Names catalog d d' ∧ LeadsToCycle catalog d' := by
  obtain ⟨d', hleads, hcycle⟩ := h
  -- The next one lies on the cycle if this one does, and on the way to it otherwise.
  rcases hleads.cases_head with rfl | ⟨next, hnext, hleads⟩
  · obtain ⟨next, hnext, hback⟩ := TransGen.head'_iff.1 hcycle
    exact ⟨next, hnext, d, hback, hcycle⟩
  · exact ⟨next, hnext, d', hleads, hcycle⟩

section

variable {ctx : Context}

theorem yields_cyclic {post : Condition → Prop} (chain : List String) :
    (cyclic chain).Yields post := .next fun _ => .ofResult (by rintro _ ⟨⟩)

/-- A tree comes to nothing if a stored filter that it names comes to nothing. -/
theorem never_reduceWith (hsight : ctx.sight = .everything) {expand : Expand} (entity : String)
    {c : Condition} {r : Rule} (hr : r ∈ c.rules) {d : StoredName} (hd : named r = some d)
    (hexpand : ∀ stored, d.source? ctx.catalog = some stored →
      (expand stored).Yields fun _ => False) :
    (reduceWith ctx expand entity c).Yields fun _ => False := by
  obtain ⟨source, hsource⟩ := exists_sourceOf ctx.catalog (mem_memberships_of_named hd)
  have hplaceholder (e : Entity) : (placeholder ctx expand e r).Yields fun _ => False := by
    rw [placeholder_of_source hsource]
    refine (yields_named hsource).bind fun found hfound => ?_
    obtain ⟨d', hd', hstored⟩ := hfound
    cases hd.symm.trans hd'
    exact (hexpand found.1 hstored).bind_never
  obtain ⟨i, hi, hri⟩ := List.getElem_of_mem hr
  have hoccurs : (r, i) ∈ occurrences c := by
    rw [mem_occurrences]
    exact ⟨List.mem_zipIdx_iff_getElem?.2 (List.getElem?_eq_some_iff.2 ⟨hi, hri⟩),
      isPlaceholder_of_named hd⟩
  -- What stands before the rule may fail or not: the list never comes to an end after it.
  obtain ⟨before, after, hsplit⟩ := List.append_of_mem hoccurs
  rw [reduceWith_eq, hsight]
  refine .next fun e => ?_
  have hmapM : ((occurrences c).mapM fun o => placeholder ctx expand e o.1).Yields
      fun _ => False := by
    rw [hsplit, List.mapM_append, List.mapM_cons]
    exact .next fun _ => (hplaceholder e).bind_never.bind_never
  exact hmapM.bind_never

theorem never_expansion (hsight : ctx.sight = .everything) (levels : Nat)
    (visiting : List String) {d : StoredName} (hd : LeadsToCycle ctx.catalog d)
    {stored : StoredSource} (hsource : d.source? ctx.catalog = some stored) :
    (expansion ctx levels visiting stored).Yields fun _ => False := by
  induction levels generalizing visiting d stored with
  | zero => exact yields_cyclic _
  | succ levels ih =>
    rw [expansion]
    split
    · exact yields_cyclic _
    · obtain ⟨d', ⟨stored', hstored', r, hr, hnamed⟩, hcycle⟩ := hd.exists_names
      cases hsource.symm.trans hstored'
      rw [reduceTree_eq]
      exact never_reduceWith hsight _ hr hnamed fun stored' hstored' => ih _ hcycle hstored'

end

theorem not_gives_reduce {t : Tenant} {s : Session} {entity : String} {c c' : Condition}
    {caller : Caller} (hsystem : caller.isSystem = true) {d : StoredName}
    (hleads : LeadsTo t.catalog c d) (hcycle : TransGen (Names t.catalog) d d) :
    ¬ (reduce s entity c caller).Gives t c' := by
  intro h
  obtain ⟨r, hr, first, hfirst, hleads⟩ := hleads
  rw [reduce, Program.Gives.bind_iff] at h
  obtain ⟨catalog, hcatalog, h⟩ := h
  cases hcatalog.catalog
  obtain ⟨_, -, h⟩ := Program.Gives.bind_iff.1 h
  rw [Session.sight, if_pos hsystem, pure_bind, reduceTree_eq] at h
  have hnever (stored : StoredSource) (hstored : first.source? t.catalog = some stored) :
      (expansion ⟨s, t.catalog, caller, .everything⟩ t.catalog.storedFilters []
        stored).Yields fun _ => False :=
    never_expansion rfl _ _ ⟨d, hleads, hcycle⟩ hstored
  exact (never_reduceWith rfl entity hr hfirst hnever).of_gives h

/-! ## Cycles -/

/-- While the metadata stays as it is, reducing for the system fails over a cycle only where one of the
ids on the way comes back: a stored filter to which the tree leads reaches itself, or a query and a
data collection share that id and one of them reaches the other. Where a stored filter reaches
itself, neither it nor any that leads to it is ever reduced, and no tree that leads to it is. -/
theorem reduce_cycles (t : Tenant) (s : Session) (entity : String) (c : Condition)
    {caller : Caller} (hsystem : caller.isSystem = true) :
    (∀ u chain, (∀ x ∈ u, x.Under t) →
      (reduce s entity c caller).Runs u (.error (.configuration (.cyclicFilters chain))) →
      ∃ before id, chain = before ++ [id] ∧ id ∈ before ∧
        ((∃ d : StoredName, d.id = id ∧ LeadsTo t.catalog c d ∧ TransGen (Names t.catalog) d d) ∨
        ∃ d d' : StoredName, (d = .query id ∧ d' = .collection id ∨
            d = .collection id ∧ d' = .query id) ∧
          (d.source? t.catalog).isSome ∧ (d'.source? t.catalog).isSome ∧
          LeadsTo t.catalog c d ∧ TransGen (Names t.catalog) d d')) ∧
    (∀ (d d' : StoredName) stored, d.source? t.catalog = some stored →
      ReflTransGen (Names t.catalog) d d' → TransGen (Names t.catalog) d' d' →
      ∀ levels visiting, (expansion ⟨s, t.catalog, caller, .everything⟩ levels visiting
        stored).Yields fun _ => False) ∧
    ∀ d, LeadsTo t.catalog c d → TransGen (Names t.catalog) d d →
      ∀ c', ¬ (reduce s entity c caller).Gives t c' := by
  refine ⟨fun u chain hu hrun => ?_, fun d d' stored hsource hleads hcycle levels visiting =>
    never_expansion rfl levels visiting ⟨d', hleads, hcycle⟩ hsource,
    fun d hleads hcycle c' => not_gives_reduce hsystem hleads hcycle⟩
  obtain ⟨before, id, hchain, hmem, d, d', hid, hid', hleads, htrans, hsome, hsome'⟩ :=
    reduce_cycleFound s entity hsystem u _ hu hrun chain rfl
  refine ⟨before, id, hchain, hmem, ?_⟩
  rcases StoredName.eq_or_kinds hid hid' with rfl | hkinds
  · exact .inl ⟨d, hid, hleads, htrans⟩
  · exact .inr ⟨d, d', hkinds, hsome, hsome', hleads, htrans⟩

/-- Two queries are each about membership in the other. -/
theorem reduce_cycles_mutual :
    let note := Entity.new "note" "Note" "NOTE" []
    let rule (id : String) : Rule := ⟨Rule.selfKey, .inQuery, .str id, none⟩
    let stored (id other : String) : StoredQuery := ⟨id, id, "note", .rule (rule other), []⟩
    let t := Tenant.new {} ⟨[note], [stored "a" "b", stored "b" "a"], []⟩
    let s : Session := ⟨{}, {}, .tenant⟩
    let system : Caller := ⟨none, "en", true⟩
    let reduced := reduce s "note" (.rule (rule "a")) system
    let ctx : Context := ⟨s, t.catalog, system, .everything⟩
    (∃ u, (∀ x ∈ u, x.Under t) ∧
      reduced.Runs u (.error (.configuration (.cyclicFilters ["a", "b", "a"])))) ∧
    (∃ d d' : StoredName, d.id = d'.id ∧ LeadsTo t.catalog (.rule (rule "a")) d ∧
      TransGen (Names t.catalog) d d') ∧
    (expansion ctx 2 [] ⟨"a", "note", .rule (rule "b"), []⟩).Yields (fun _ => False) ∧
    ∀ c, ¬ reduced.Gives t c := by
  intro note rule stored t s system reduced ctx
  have hsystem : system.isSystem = true := rfl
  have hall := reduce_cycles t s "note" (.rule (rule "a")) hsystem
  have hfails : (reduced.transcript (Request.steady t.catalog t.links fun _ => [])).2 =
      .error (.configuration (.cyclicFilters ["a", "b", "a"])) := by
    dsimp only [reduced, t, s, system, stored, rule, note]
    rfl
  obtain ⟨u, hu, hrun⟩ := Program.exists_run_under hfails
  have hnames (id other : String) (hsource : (StoredName.query id).source? t.catalog =
      some ⟨id, "note", .rule (rule other), []⟩) : Names t.catalog (.query id) (.query other) :=
    ⟨_, hsource, rule other, List.mem_singleton_self _, rfl⟩
  have hcycle : TransGen (Names t.catalog) (.query "a") (.query "a") :=
    .tail (.single (hnames "a" "b" rfl)) (hnames "b" "a" rfl)
  have hleads : LeadsTo t.catalog (.rule (rule "a")) (.query "a") :=
    ⟨rule "a", List.mem_singleton_self _, _, rfl, .refl⟩
  have hsource : (StoredName.query "a").source? t.catalog =
      some ⟨"a", "note", .rule (rule "b"), []⟩ := rfl
  refine ⟨⟨u, hu, hrun⟩, ?_, hall.2.1 _ _ _ hsource .refl hcycle 2 [], hall.2.2 _ hleads hcycle⟩
  obtain ⟨before, id, -, -, ⟨d, -, hd, htrans⟩ | ⟨d, d', hkinds, -, -, hd, htrans⟩⟩ :=
    hall.1 u _ hu hrun
  · exact ⟨d, d, rfl, hd, htrans⟩
  · refine ⟨d, d', ?_, hd, htrans⟩
    rcases hkinds with ⟨rfl, rfl⟩ | ⟨rfl, rfl⟩ <;> rfl

/-- A data collection is about membership in a query that has its id and is about nothing. -/
theorem reduce_cycles_shared_id :
    let note := Entity.new "note" "Note" "NOTE" []
    let about (op : RuleOp) : Condition := .rule ⟨Rule.selfKey, op, .str "x", none⟩
    let t := Tenant.new {} ⟨[note], [⟨"x", "Query", "note", .empty, []⟩],
      [⟨"x", "Collection", .object "note", about .inQuery⟩]⟩
    let reduced := reduce ⟨{}, {}, .tenant⟩ "note" (about .inDataCollection) ⟨none, "en", true⟩
    (∃ u, (∀ x ∈ u, x.Under t) ∧
      reduced.Runs u (.error (.configuration (.cyclicFilters ["x", "x"])))) ∧
    ∀ d, ¬ TransGen (Names t.catalog) d d := by
  intro note about t reduced
  have hfails : (reduced.transcript (Request.steady t.catalog t.links fun _ => [])).2 =
      .error (.configuration (.cyclicFilters ["x", "x"])) := by
    dsimp only [reduced, t, about, note]
    rfl
  -- Only the collection names anything, and that is no collection.
  have hnames {d d' : StoredName} (h : Names t.catalog d d') :
      (∃ id, d = .collection id) ∧ d' = .query "x" := by
    obtain ⟨stored, hsource, r, hr, hnamed⟩ := h
    cases d with
    | query id =>
      have hsource := toOption_eq_some.1 hsource
      rw [queryNamed] at hsource
      split at hsource
      · rename_i q hq
        cases List.mem_singleton.1 (List.mem_of_find?_eq_some hq)
        cases hsource
        cases hr
      · cases hsource
    | collection id =>
      have hsource := toOption_eq_some.1 hsource
      rw [collectionNamed] at hsource
      split at hsource
      · rename_i q hq
        cases List.mem_singleton.1 (List.mem_of_find?_eq_some hq)
        cases hsource
        cases List.mem_singleton.1 hr
        cases hnamed
        exact ⟨⟨id, rfl⟩, rfl⟩
      · cases hsource
  refine ⟨Program.exists_run_under hfails, fun d hcycle => ?_⟩
  obtain ⟨next, hnext, -⟩ := TransGen.head'_iff.1 hcycle
  obtain ⟨last, -, hlast⟩ := TransGen.tail'_iff.1 hcycle
  obtain ⟨⟨id, rfl⟩, -⟩ := hnames hnext
  cases (hnames hlast).2

end CatalogQuery.Reduce
