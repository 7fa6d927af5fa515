import CatalogQuery.Proofs.Compile.Unlinked
import CatalogQuery.Proofs.Session.Placeholders
import CatalogQuery.Proofs.Session.Snapshots

/-!
# Finds about connections that lead nowhere

Main statement: a find or a count whose reduced condition has a rule on a connection field without a
link ends in an error, and nothing is read after the filters of the formula fields are reduced.
-/

namespace CatalogQuery

open Compile (IsAbout)

/-! ## The frame of a find -/

namespace Compile

/-- Whether the objects that rules in a frame can be about are those of a catalog. -/
structure Frame.Listed (catalog : Catalog) (frame : Frame) : Prop where
  entity : catalog.entity frame.entity.id = .ok frame.entity
  aliases : ∀ p ∈ frame.aliases, catalog.entity p.2.id = .ok p.2

theorem Frame.Listed.withAlias {catalog : Catalog} {frame : Frame} (h : frame.Listed catalog)
    (name : String) {id : String} {e : Entity} (he : catalog.entity id = .ok e) :
    (frame.withAlias name e).Listed catalog := by
  refine ⟨h.entity, List.forall_mem_cons.2 ⟨?_, h.aliases⟩⟩
  rw [Catalog.id_of_entity he]
  exact he

theorem Frame.Listed.of_isAbout {catalog : Catalog} {frame : Frame} (h : frame.Listed catalog)
    {r : Rule} {e : Entity} {table : String} {f : Field} (hr : IsAbout frame r e table f) :
    catalog.entity e.id = .ok e := by
  have howner := (field_of_subject hr.2).1
  cases hjoined : r.joined with
  | none =>
    rw [hjoined] at howner
    cases howner
    exact h.entity
  | some name =>
    rw [hjoined, owner] at howner
    split at howner
    · rename_i e' halias
      cases howner
      obtain ⟨p, hp, rfl⟩ := Option.map_eq_some_iff.1 halias
      exact h.aliases p (List.mem_of_find?_eq_some hp)
    · cases howner

end Compile

/-- What comes to nothing is an error. -/
theorem Traced.exists_error_of_never {α : Type} {t : Traced α} (h : t.Ensures fun _ => False) :
    ∃ err, t.result = .error err := by
  cases hr : t.result with
  | ok a => exact (h a hr).elim
  | error err => exact ⟨err, rfl⟩

section

variable {env : Compile.Env} {e : Entity}

theorem ensures_joinRequested_listed (links : LinkMap) (joins : List JoinRequest)
    {found : Sql.Source × Compile.Frame} (h : found.2.Listed env.catalog) :
    (joinRequested env e links joins found).Ensures (·.2.Listed env.catalog) := by
  induction joins generalizing found with
  | nil => exact .pure h
  | cons request rest ih =>
    obtain ⟨source, frame⟩ := found
    rw [joinRequested]
    split
    · exact .fail
    · have htarget (id : String) :
          (Compile.entity env id).Ensures fun target => env.catalog.entity id = .ok target :=
        .ofResult fun _ h => h
      exact (htarget _).bind fun target ht => ih (h.withAlias request.called ht)

theorem ensures_findSource_listed (env : Compile.Env) (h : env.catalog.entity e.id = .ok e)
    (joins : List JoinRequest) :
    (findSource env e joins).Ensures (·.2.Listed env.catalog) := by
  have hbase : (Compile.Frame.base e).Listed env.catalog := ⟨h, by simp [Compile.Frame.base]⟩
  rw [findSource]
  split
  · exact .pure hbase
  · exact Traced.Ensures.trivial.bind fun links _ => ensures_joinRequested_listed links joins hbase

/-- Joins do not depend on the filters in force for formula fields. -/
theorem findSource_withFilters (env : Compile.Env) (filters : List (String × Condition))
    (joins : List JoinRequest) :
    findSource { env with filters } e joins = findSource env e joins := by
  have hjoins (links : LinkMap) (found : Sql.Source × Compile.Frame) :
      joinRequested { env with filters } e links joins found =
        joinRequested env e links joins found := by
    induction joins generalizing found with
    | nil => rfl
    | cons request rest ih =>
      obtain ⟨source, frame⟩ := found
      simp only [joinRequested, ih]
      rfl
  simp only [findSource, hjoins]

end

/-! ## The rest of a find -/

namespace Session

variable {s : Session} {catalog : Catalog} {entity : String} {object : Entity} {o : FindOptions}
  {caller : Caller}

/-- The frame in which the condition of a find is compiled, if what it joins is there. -/
def FrameOf (s : Session) (catalog : Catalog) (object : Entity) (o : FindOptions) (caller : Caller)
    (frame : Compile.Frame) : Prop :=
  ∃ source, (findSource (s.env catalog (LinkMap.ofCatalog s.settings catalog) caller []) object
    o.joins).result = .ok (source, frame)

/-- Whether the rest of a run ends in an error and reads nothing for it but what it takes to reduce the
filters of formula fields. -/
def Withheld {α : Type} (s : Session) (catalog : Catalog) (object : Entity) (o : FindOptions)
    (caller : Caller) (rest : List Exchange) (r : Result α) : Prop :=
  (∃ err, r = .error err) ∧ ∃ filtering compiling filters, rest = filtering ++ compiling ∧
    (s.formulaFilters catalog object o caller).Runs filtering filters ∧ Exchange.Quiet compiling

/-- A read whose statement cannot be compiled ends before it is sent. -/
theorem withheld_of_prepared {α : Type}
    {f : Catalog → Entity → Condition → List (String × Condition) → Program α}
    (hobject : catalog.entity entity = .ok object) {c : Condition} {u v : List Exchange} {r : Result α}
    (hreduce : (Reduce.reduce s entity o.condition caller).Runs u (.ok c))
    (hf : ∀ filters w, (∀ x ∈ w, x.GoesBy s.settings catalog) →
      (f catalog object c filters).Runs w r → (∃ err, r = .error err) ∧ Exchange.Quiet w)
    (hv : ∀ x ∈ v, x.GoesBy s.settings catalog)
    (h : Program.Runs (do
      let catalog ← Program.catalog
      let e ← Program.ofResult (catalog.entity entity)
      let c ← Reduce.reduce s entity o.condition caller
      let filters ← s.formulaFilters catalog e o caller
      f catalog e c filters) (⟨.catalog, catalog⟩ :: (u ++ v)) r) :
    Withheld s catalog object o caller v r := by
  obtain ⟨_, t, ht, h⟩ := Program.Runs.catalog_bind_iff.1 h
  cases ht
  rw [hobject] at h
  replace h : (Reduce.reduce s entity o.condition caller >>= fun c =>
    s.formulaFilters catalog object o caller >>= f catalog object c).Runs (u ++ v) r := h
  -- The condition is reduced as it is reduced there.
  have hfiltered : Program.Runs (s.formulaFilters catalog object o caller >>= f catalog object c) v r := by
    rcases Program.Runs.bind_iff.1 h with ⟨err, herror, -⟩ | ⟨u', v', c', huv, hreduce', hrest⟩
    · obtain ⟨-, -, hr⟩ := hreduce.append_inj herror (List.append_nil (u ++ v)).symm
      cases hr
    · obtain ⟨-, rfl, hc⟩ := hreduce.append_inj hreduce' huv
      cases hc
      exact hrest
  rcases Program.Runs.bind_iff.1 hfiltered with ⟨err, herror, rfl⟩ | ⟨t, w, filters, rfl, ht, hw⟩
  · exact ⟨⟨err, rfl⟩, v, [], _, (List.append_nil v).symm, herror, .nil⟩
  · obtain ⟨hr, hquiet⟩ := hf filters w (fun x hx => hv x (List.mem_append_right _ hx)) hw
    exact ⟨hr, t, w, _, rfl, ht, hquiet⟩

/-- What fails to be compiled with the links of a catalog is not gone on with. -/
theorem quiet_of_withLinks {α β : Type} {select : Links → Traced α} {next : α → Program β}
    (hselect : ∃ err, (select (LinkMap.ofCatalog s.settings catalog)).result = .error err)
    {w : List Exchange} {r : Result β} (hw : ∀ x ∈ w, x.GoesBy s.settings catalog)
    (h : (Program.withLinks select >>= next).Runs w r) :
    (∃ err, r = .error err) ∧ Exchange.Quiet w := by
  have hlinks {t : List Exchange} {a : Result α} (hsub : ∀ x ∈ t, x ∈ w)
      (ht : (Program.withLinks select).Runs t a) : ∃ err, a = .error err := by
    obtain ⟨links, rfl, rfl⟩ := Program.Runs.withLinks_iff.1 ht
    have hgoes : links = LinkMap.ofCatalog s.settings catalog :=
      hw ⟨.links, links⟩ (hsub _ List.mem_cons_self)
    rw [hgoes]
    exact hselect
  rcases Program.Runs.bind_iff.1 h with ⟨err, herror, rfl⟩ | ⟨t, w', a, rfl, ht, -⟩
  · exact ⟨⟨err, rfl⟩, Program.Silent.withLinks.quiet herror⟩
  · obtain ⟨err, herror⟩ := hlinks (fun x hx => List.mem_append_left _ hx) ht
    cases herror

section

variable {e : Entity} {f : Field} (hunlinked : Unlinked catalog e f)
  (hobject : catalog.entity entity = .ok object) {c : Condition}
  (hrules : ∀ frame, s.FrameOf catalog object o caller frame →
    ∃ r ∈ c.rules, ∃ table, IsAbout frame r e table f)

include hunlinked hobject hrules

/-- The condition of such a find is not compiled, in whatever frame it has. -/
theorem exists_condition_error (filters : List (String × Condition)) :
    let env := s.env catalog (LinkMap.ofCatalog s.settings catalog) caller filters
    ∀ found, (findSource env object o.joins).result = .ok found →
      ∃ err, (Compile.condition env found.2 c).result = .error err := by
  intro env found hfound
  have hself : catalog.entity object.id = .ok object := by
    rw [Catalog.id_of_entity hobject]
    exact hobject
  have hlisted : found.2.Listed catalog :=
    ensures_findSource_listed env hself o.joins found hfound
  have hframe : s.FrameOf catalog object o caller found.2 :=
    ⟨found.1, (congrArg Traced.result (findSource_withFilters env [] o.joins)).trans hfound⟩
  obtain ⟨r, hr, table, habout⟩ := hrules found.2 hframe
  have hlinks : env.links e.id = .ok (LinkMap.resolve env.settings env.catalog e).1 := by
    show (catalog.entity e.id).map _ = _
    rw [hlisted.of_isAbout habout]
    rfl
  exact Compile.exists_within_error_of_unlinked hunlinked hlinks hr habout _

/-- Neither a find nor a count has a statement for such a condition. -/
theorem exists_select_error (filters : List (String × Condition)) :
    let env := s.env catalog (LinkMap.ofCatalog s.settings catalog) caller filters
    (∃ err, (findSelect env object o c).result = .error err) ∧
      ∃ err, (countSelect env object o c).result = .error err := by
  intro env
  have hcondition : (findSource env object o.joins).Ensures fun found =>
      (Compile.condition env found.2 c).Ensures fun _ => False := by
    intro found hfound p hp
    obtain ⟨err, herror⟩ := exists_condition_error hunlinked hobject hrules filters found hfound
    cases herror.symm.trans hp
  refine ⟨Traced.exists_error_of_never ?_, Traced.exists_error_of_never ?_⟩
  · rw [findSelect]
    exact hcondition.bind fun found hfound => Traced.Ensures.trivial.bind fun computed _ =>
      hfound.bind fun _ h => h.elim
  · rw [countSelect]
    exact hcondition.bind fun found hfound => hfound.bind fun _ h => h.elim

end

/-- Rules on a connection field without a link are never taken for no restriction. A condition with such
a rule is not compiled, whatever its operator and wherever it stands. Where all before it is compiled and it
is no placeholder, the error is one of the metadata and a notice comes with it. A find or a count whose
reduced condition has such a rule ends in an error without reading the records. -/
theorem unlinked_fails_closed {catalog : Catalog} {e : Entity} {f : Field}
    (hunlinked : Unlinked catalog e f) :
    (∀ (env : Compile.Env) (frame : Compile.Frame) (c : Condition) (r : Rule) (table : String)
      (levels : Nat), env.catalog = catalog →
      env.links e.id = .ok (LinkMap.resolve env.settings catalog e).1 → IsAbout frame r e table f →
      (r ∈ c.rules → ∃ err, (Compile.within env levels frame c).result = .error err) ∧
      ∀ before after, c.leaves = before ++ .rule r :: after →
        (∀ b ∈ before, ∃ p, (Compile.within env (levels + 1) frame b).result = .ok p) →
        r.op.isPlaceholder = false →
        let notice := Notice.unresolvedConnection e.id e.name f.id
        notice.kind = "missing_link_target" ∧
        ∃ earlier, Compile.within env (levels + 1) frame c =
          ⟨earlier ++ [.consulted e.id, .noticed notice],
            .error (.configuration (.unresolvedConnection f.id e.name))⟩) ∧
    ∀ (s : Session) (entity : String) (object : Entity) (o : FindOptions) (caller : Caller)
      (c : Condition) (u v : List Exchange), catalog.entity entity = .ok object →
      (Reduce.reduce s entity o.condition caller).Runs u (.ok c) →
      (∀ frame, s.FrameOf catalog object o caller frame →
        ∃ r ∈ c.rules, ∃ table, IsAbout frame r e table f) →
      (∀ x ∈ v, x.GoesBy s.settings catalog) →
      (∀ r, (s.find entity o caller).Runs (⟨.catalog, catalog⟩ :: (u ++ v)) r →
        Withheld s catalog object o caller v r) ∧
      ∀ r, (s.count entity o caller).Runs (⟨.catalog, catalog⟩ :: (u ++ v)) r →
        Withheld s catalog object o caller v r := by
  refine ⟨fun env frame c r table levels hcatalog hlinks habout => ?_,
    fun s entity object o caller c u v hobject hreduce hrules hv => ?_⟩
  · subst hcatalog
    refine ⟨fun hr => Compile.exists_within_error_of_unlinked hunlinked hlinks hr habout levels,
      fun before after hleaves hbefore hop => ⟨rfl, ?_⟩⟩
    exact Compile.within_of_unlinked_first hunlinked hlinks levels hleaves hbefore habout hop
  · have hselect := exists_select_error hunlinked hobject hrules
    exact ⟨fun r h => withheld_of_prepared hobject hreduce
        (fun filters w hw => quiet_of_withLinks (hselect filters).1 hw) hv h,
      fun r h => withheld_of_prepared hobject hreduce
        (fun filters w hw => quiet_of_withLinks (hselect filters).2 hw) hv h⟩

/-- A search for invoices of no customer, where the object of the customers is gone. -/
theorem unlinked_fails_closed_no_customer :
    let f := Field.new "c" "customer" (.connection (.between "customer" .one .many))
    let invoice := Entity.new "invoice" "Invoice" "INVOICE" [.new "n" "number" .text, f]
    let catalog : Catalog := ⟨[invoice], [], []⟩
    let s : Session := ⟨{}, {}, .tenant⟩
    let r : Rule := ⟨"customer", .haveNoRelation, .null, none⟩
    let c := Condition.group .and [.eq "number" (.str "1"), .group .or [.rule r]]
    let o : FindOptions := { condition := c }
    let env := s.env catalog (LinkMap.ofCatalog {} catalog) {} []
    let frame := Compile.Frame.base invoice
    Unlinked catalog invoice f ∧ IsAbout frame r invoice "INVOICE" f ∧ r ∈ c.rules ∧
      (∃ earlier, Compile.within env 1 frame c =
        ⟨earlier ++ [.consulted "invoice", .noticed (.unresolvedConnection "invoice" "Invoice" "c")],
          .error (.configuration (.unresolvedConnection "c" "Invoice"))⟩) ∧
      ∃ u v err, (Reduce.reduce s "invoice" c { isSystem := true }).Runs u (.ok c) ∧
        (s.find "invoice" o { isSystem := true }).Runs (⟨.catalog, catalog⟩ :: (u ++ v)) (.error err) ∧
        Withheld s catalog invoice o { isSystem := true } v (.error err : Result (List Row)) := by
  intro f invoice catalog s r c o env frame
  have hunlinked : Unlinked catalog invoice f :=
    { ids := by decide
      columns := by decide
      omission := rfl }
  have habout : IsAbout frame r invoice "INVOICE" f := ⟨by decide, rfl⟩
  obtain ⟨hcompile, hfind⟩ := unlinked_fails_closed hunlinked
  have hr : r ∈ c.rules := by simp [c, Condition.rules, Condition.rulesOf, Condition.eq, Condition.ofRule]
  refine ⟨hunlinked, habout, hr, ?_, ?_⟩
  · exact ((hcompile env frame c r "INVOICE" 0 rfl rfl habout).2 [_] [] rfl
      (List.forall_mem_singleton.2 ⟨_, rfl⟩) rfl).2
  · let system : Caller := { isSystem := true }
    let answer := Request.steady catalog (LinkMap.ofCatalog {} catalog) fun _ => []
    let u := ((Reduce.reduce s "invoice" c system).transcript answer).1
    let v := ((s.find "invoice" o system).transcript answer).1.drop 2
    have hreduce : (Reduce.reduce s "invoice" c system).Runs u (.ok c) := .of_transcript rfl
    have hfound : (s.find "invoice" o system).transcript answer = (⟨.catalog, catalog⟩ :: (u ++ v),
        .error (.configuration (.unresolvedConnection "c" "Invoice"))) := rfl
    obtain ⟨hrun, hanswers⟩ := Program.Runs.iff_transcript.2 hfound
    have hgoes : ∀ x ∈ v, x.GoesBy {} catalog := by
      intro x hx
      have hx := hanswers x (List.mem_cons_of_mem _ (List.mem_append_right u hx))
      obtain ⟨request, a⟩ := x
      cases request with
      | catalog | links => exact hx
      | consult | notice | fetch | execute | lock | newKey => trivial
    refine ⟨u, v, _, hreduce, hrun, (hfind s "invoice" invoice o system c u v rfl hreduce ?_ hgoes).1 _
      hrun⟩
    rintro frame ⟨source, hframe⟩
    cases hframe
    exact ⟨r, hr, "INVOICE", habout⟩

end Session

end CatalogQuery
