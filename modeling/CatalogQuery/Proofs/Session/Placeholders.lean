import CatalogQuery.Find
import CatalogQuery.Proofs.Reduce.Unreplaced

/-!
# Placeholders that a find comes upon

Main statement: a find or a count fails over an unreplaced placeholder only where one is hidden: in a
filter that a rule carries as its value, or in the filter of a formula field that is reached through
a link or from a stored filter. What stands in the tree of the caller, in a scope, in a stored filter
or in the formula fields of the object and of those joined to it is always replaced.
-/

namespace CatalogQuery

open Compile (Hidden HiddenInField)

namespace Session

variable {t : Tenant} {s : Session} {caller : Caller} {e : Entity} {o : FindOptions}

/-! ## The statement -/

section

variable {env : Compile.Env} {blame : RuleOp → String → Prop}

theorem failsAs_joinRequested {E : QueryError → Prop} (hE : ∀ err, err.isPlain = true → E err)
    (links : LinkMap) (joins : List JoinRequest) (found : Sql.Source × Compile.Frame) :
    (joinRequested env e links joins found).FailsAs E := by
  induction joins generalizing found with
  | nil => exact .pure
  | cons request rest ih =>
    obtain ⟨source, frame⟩ := found
    rw [joinRequested]
    split
    · exact .fail (hE _ rfl)
    · exact (Compile.failsAs_entity hE _).bind fun target _ => ih _

theorem ensures_joinRequested_entity (links : LinkMap) (joins : List JoinRequest)
    (found : Sql.Source × Compile.Frame) :
    (joinRequested env e links joins found).Ensures fun found' =>
      found'.2.entity = found.2.entity := by
  induction joins generalizing found with
  | nil => exact .pure rfl
  | cons request rest ih =>
    obtain ⟨source, frame⟩ := found
    rw [joinRequested]
    split
    · exact .fail
    · exact Traced.Ensures.trivial.bind fun target _ => ih _

theorem ensures_findSource_entity (joins : List JoinRequest) :
    (findSource env e joins).Ensures fun found => found.2.entity = e := by
  rw [findSource]
  split
  · exact .pure rfl
  · exact Traced.Ensures.trivial.bind fun links _ => ensures_joinRequested_entity links joins _

variable (hlinks : ∀ id op key, env.links id ≠ .error (.unreplaced op key))

include hlinks

theorem failsOver_findSource (joins : List JoinRequest) :
    (findSource env e joins).FailsOver blame := by
  rw [findSource]
  split
  · exact .pure
  · refine Traced.FailsOver.bind (fun op key h => absurd h (hlinks e.id op key)) fun links _ => ?_
    exact Traced.failsAs_over.1 (failsAs_joinRequested QueryError.over_of_isPlain links joins _)

variable {reduced : List Entity} (hcovers : Compile.Covers env reduced) {c : Condition}
  (hc : c.Resolved)

include hcovers hc

theorem failsOver_findSelect (he : e ∈ reduced) :
    (findSelect env e o c).FailsOver fun op key => ∃ frame : Compile.Frame, frame.entity = e ∧
      (Hidden env reduced frame c op key ∨ HiddenInField env reduced frame op key) := by
  rw [findSelect]
  refine (failsOver_findSource hlinks o.joins).bind fun found hfound => ?_
  have hframe := ensures_findSource_entity o.joins found hfound
  obtain ⟨source, frame⟩ := found
  have hin : frame.entity ∈ reduced := hframe ▸ he
  have hfield (op : RuleOp) (key : String) (h : HiddenInField env reduced frame op key) :
      ∃ frame : Compile.Frame, frame.entity = e ∧
        (Hidden env reduced frame c op key ∨ HiddenInField env reduced frame op key) :=
    ⟨frame, hframe, .inr h⟩
  dsimp only
  refine ((Compile.failsOver_virtualColumns hlinks hcovers hin).mono hfield).bind
    fun computed _ => ?_
  refine ((Compile.failsOver_condition hlinks hcovers frame hc).mono
    fun _ _ h => ⟨frame, hframe, .inl h⟩).bind fun filter _ => ?_
  exact ((Compile.failsOver_ordering hlinks hcovers hin o.sort).mono hfield).bind
    fun order _ => .pure

theorem failsOver_countSelect :
    (countSelect env e o c).FailsOver fun op key => ∃ frame : Compile.Frame, frame.entity = e ∧
      (Hidden env reduced frame c op key ∨ HiddenInField env reduced frame op key) := by
  rw [countSelect]
  refine (failsOver_findSource hlinks o.joins).bind fun found hfound => ?_
  have hframe := ensures_findSource_entity o.joins found hfound
  obtain ⟨source, frame⟩ := found
  exact ((Compile.failsOver_condition hlinks hcovers frame hc).mono
    fun _ _ h => ⟨frame, hframe, .inl h⟩).bind fun filter _ => .pure

end

/-! ## The rest of a find -/

theorem failsOver_populate {blame : RuleOp → String → Prop} (rows : List Row) (p : Populate)
    (minimal : Bool) : (Linked.populate s e rows p minimal).FailsOver t blame := by
  have hnames (target : Entity) (found : List (String × Row)) :
      (Linked.mergeNames s target found).FailsOver t blame := by
    rw [Linked.mergeNames]
    dsimp only
    split
    · exact .pure
    split
    · exact .pure
    refine Program.FailsOver.bind ?_ fun _ _ => .pure
    rw [Directory.displayNames]
    split
    · exact .pure
    · exact Program.FailsOver.fetch.bind fun _ _ => .pure
  have hread (target : Entity) (l : Link) (keys : List Json) :
      (Linked.read s target l keys minimal).FailsOver t blame := by
    rw [Linked.read]
    split
    · exact .pure
    · exact Program.FailsOver.fetch.bind fun rows _ => hnames _ _
  have hreadAll (catalog : Catalog) (links : List Link) :
      (Linked.readAll s catalog rows minimal links).FailsOver t blame := by
    induction links with
    | nil => exact .pure
    | cons l rest ih =>
      rw [Linked.readAll]
      split
      · exact (hread _ _ _).bind fun _ _ => ih.bind fun _ _ => .pure
      · exact Program.FailsOver.pure.bind fun _ _ => ih.bind fun _ _ => .pure
  rw [Linked.populate]
  split
  · exact .pure
  · refine Program.FailsOver.catalog.bind fun catalog _ => ?_
    exact (Reduce.failsOver_linksOf e.id).bind fun links _ =>
      (hreadAll catalog _).bind fun found _ => .pure

/-- The objects whose formula fields are seen to before a statement on an object is compiled: the
object and those joined to it. -/
def reducedFor (t : Tenant) (e : Entity) (o : FindOptions) : List Entity :=
  e :: o.joins.filterMap fun request =>
    match t.links e.id with
    | .ok links => (links.get request.field).bind fun l => t.catalog.entity? l.target
    | .error _ => none

/-- What is joined is found by the links of the object. -/
theorem failsOver_formulaFilters :
    (s.formulaFilters t.catalog e o caller).FailsOver t
      (Reduce.HiddenBelow t ⟨s, t.catalog, caller, .everything⟩) := by
  rw [formulaFilters]
  split
  · exact Program.FailsOver.pure.bind fun _ _ => Reduce.failsOver_formulaFilters s _ caller
  · refine (Reduce.failsOver_linksOf e.id).bind fun links _ => Program.FailsOver.pure.bind
      fun _ _ => Reduce.failsOver_formulaFilters s _ caller

theorem runs_of_formulaFilters {u : List Exchange} {filters : List (String × Condition)}
    (hu : ∀ x ∈ u, x.Under t) (h : (s.formulaFilters t.catalog e o caller).Runs u (.ok filters)) :
    ∃ v, v <:+: u ∧ (Reduce.formulaFilters s (reducedFor t e o) caller).Runs v (.ok filters) := by
  rw [formulaFilters] at h
  split at h
  · rename_i hnone
    rw [reducedFor, List.isEmpty_iff.1 hnone]
    exact ⟨u, List.infix_rfl, h⟩
  · obtain ⟨u₁, u₂, m, rfl, hm, hrest⟩ := Program.Runs.bind_ok.1 h
    obtain ⟨links, rfl, hlinks⟩ := Program.Runs.linksOf_iff.1 hm
    have hknown : links = t.links := hu ⟨.links, links⟩ (by simp)
    rw [hknown] at hlinks
    rw [reducedFor, ← hlinks]
    exact ⟨u₂, (List.suffix_append _ _).isInfix, hrest⟩

theorem gives_of_formulaFilters {filters : List (String × Condition)}
    (h : (s.formulaFilters t.catalog e o caller).Gives t filters) :
    (Reduce.formulaFilters s (reducedFor t e o) caller).Gives t filters := by
  obtain ⟨u, hu, h⟩ := h
  obtain ⟨v, hv, h⟩ := runs_of_formulaFilters hu h
  exact ⟨v, fun x hx => hu x (hv.subset hx), h⟩

/-! ## Find and count -/

/-- Whether a placeholder is hidden in what the statement of a find or a count is compiled from, or in
what is compiled before it. The conditions that this starts from hold no placeholders. -/
inductive HiddenFor (t : Tenant) (s : Session) (entity : String) (e : Entity) (o : FindOptions)
    (caller : Caller) (op : RuleOp) (key : String) : Prop
  | statement {c : Condition} {filters : List (String × Condition)} {frame : Compile.Frame}
      (hc : (Reduce.reduce s entity o.condition caller).Gives t c) (hresolved : c.Resolved)
      (hfilters : (s.formulaFilters t.catalog e o caller).Gives t filters)
      (hframe : frame.entity = e)
      (h : Hidden (s.env t.catalog t.links caller filters) (reducedFor t e o) frame c op key ∨
        HiddenInField (s.env t.catalog t.links caller filters) (reducedFor t e o) frame op key)
  | before {sight : Sight}
      (h : Reduce.HiddenBelow t ⟨s, t.catalog, caller, sight⟩ op key)

/-- The operator and key of the unreplaced placeholder that a result fails over. -/
def unreplaced? {α : Type} : Result α → Option (RuleOp × String)
  | .error (.invalidCondition (.unresolvedPlaceholder op key)) => some (op, key)
  | _ => none

theorem eq_error_of_unreplaced? {α : Type} {r : Result α} {op : RuleOp} {key : String}
    (h : unreplaced? r = some (op, key)) : r = .error (.unreplaced op key) := by
  rw [unreplaced?.eq_def] at h
  split at h
  · cases h
    rfl
  · cases h

/-- What comes before the statement fails over what is hidden, and so does the statement. -/
theorem failsOver_prepared {α : Type} {entity : String}
    {f : Catalog → Entity → Condition → List (String × Condition) → Program α}
    (hf : ∀ e c filters, t.catalog.entity entity = .ok e →
      (Reduce.reduce s entity o.condition caller).Gives t c →
      (s.formulaFilters t.catalog e o caller).Gives t filters →
      (f t.catalog e c filters).FailsOver t (HiddenFor t s entity e o caller)) :
    Program.FailsOver t (do
      let catalog ← Program.catalog
      let e ← Program.ofResult (catalog.entity entity)
      let c ← Reduce.reduce s entity o.condition caller
      let filters ← s.formulaFilters catalog e o caller
      f catalog e c filters) fun op key =>
      ∃ e, t.catalog.entity entity = .ok e ∧ HiddenFor t s entity e o caller op key := by
  refine Program.FailsOver.catalog.bind fun catalog hcatalog => ?_
  rw [hcatalog.catalog]
  refine (Program.FailsOver.entity entity).bind fun e he => ?_
  have he := Program.Gives.ofResult_iff.1 he
  refine Program.FailsOver.mono (?_ : Program.FailsOver t _ (HiddenFor t s entity e o caller))
    fun op key h => ⟨e, he, h⟩
  refine ((Reduce.failsOver_reduce t s entity o.condition caller).mono fun op key h => ?_).bind
    fun c hc => ?_
  · obtain ⟨sight, h⟩ := h
    exact .before h
  · exact (failsOver_formulaFilters.mono fun op key h => .before h).bind
      fun filters hfilters => hf e c filters he hc hfilters

/-- While the metadata stays as it is, find and count fail over an unreplaced placeholder only where one
is hidden, and nothing that hides one is ever compiled. -/
theorem find_count_failsOver_hidden (t : Tenant) (s : Session) (entity : String) (o : FindOptions)
    (caller : Caller) :
    let blame (op : RuleOp) (key : String) : Prop :=
      ∃ e, t.catalog.entity entity = .ok e ∧ HiddenFor t s entity e o caller op key
    (s.find entity o caller).FailsOver t blame ∧ (s.count entity o caller).FailsOver t blame ∧
    ∀ env reduced frame c op key, Hidden env reduced frame c op key →
      ∀ levels, ∃ e, (Compile.within env levels frame c).result = .error e := by
  refine ⟨?_, ?_, fun _ _ _ _ _ _ h levels => Compile.exists_within_error_of_hidden h levels⟩
  · rw [find]
    refine failsOver_prepared fun e c filters he hc hfilters => ?_
    have hresolved := Reduce.resolved_of_gives_reduce hc
    have hcovers : Compile.Covers (s.env t.catalog t.links caller filters) (reducedFor t e o) :=
      Reduce.covers_of_formulaFilters (gives_of_formulaFilters hfilters) rfl rfl
    refine Program.FailsOver.bind (.withLinks ?_) fun statement _ => ?_
    · refine (failsOver_findSelect t.links_ne hcovers hresolved List.mem_cons_self).mono
        fun op key h => ?_
      obtain ⟨frame, hframe, h⟩ := h
      exact .statement hc hresolved hfilters hframe h
    · exact Program.FailsOver.fetch.bind fun rows _ => failsOver_populate rows _ _
  · rw [count]
    refine failsOver_prepared fun e c filters he hc hfilters => ?_
    have hresolved := Reduce.resolved_of_gives_reduce hc
    have hcovers : Compile.Covers (s.env t.catalog t.links caller filters) (reducedFor t e o) :=
      Reduce.covers_of_formulaFilters (gives_of_formulaFilters hfilters) rfl rfl
    refine Program.FailsOver.bind (.withLinks ?_) fun statement _ =>
      Program.FailsOver.fetch.bind fun rows _ => .pure
    refine (failsOver_countSelect t.links_ne hcovers hresolved).mono fun op key h => ?_
    obtain ⟨frame, hframe, h⟩ := h
    exact .statement hc hresolved hfilters hframe h

/-- A rule that asks for invoices of customers whose manager is the caller. -/
theorem find_count_failsOver_hidden_manager :
    let customer := Entity.new "customer" "Customer" "CUSTOMER" [.new "m" "manager" (.user false)]
    let invoice := Entity.new "invoice" "Invoice" "INVOICE"
      [.new "c" "customer" (.connection ⟨"customer", none, .one, .many, true, none, none⟩)]
    let t := Tenant.new {} ⟨[invoice, customer], [], []⟩
    let s : Session := ⟨{}, {}, .tenant⟩
    let managed := Condition.ofRule "manager" .containCurrentUser .null
    let o : FindOptions := { condition := .ofRule "customer" .haveRelation managed.toJson }
    let env := s.env t.catalog t.links {} []
    (∃ e, t.catalog.entity "invoice" = .ok e ∧
      HiddenFor t s "invoice" e o { isSystem := true } .containCurrentUser "manager") ∧
    Hidden env [invoice] (.base invoice) o.condition .containCurrentUser "manager" ∧
    ∃ e, (Compile.within env 2 (.base invoice) o.condition).result = .error e := by
  intro customer invoice t s managed o env
  have hall := find_count_failsOver_hidden t s "invoice" o { isSystem := true }
  have hfails : unreplaced? ((s.find "invoice" o { isSystem := true }).transcript
      (Request.steady t.catalog t.links fun _ => [])).2 = some (.containCurrentUser, "manager") := by
    decide +kernel
  obtain ⟨u, hu, hrun⟩ := Program.exists_run_under (eq_error_of_unreplaced? hfails)
  have hcarries : Compile.CarriesFilter env (.base invoice) o.condition customer managed :=
    ⟨_, List.mem_singleton_self _, by decide, rfl, rfl, invoice, "INVOICE", _, rfl, rfl, _, rfl, rfl⟩
  have hhidden : Hidden env [invoice] (.base invoice) o.condition .containCurrentUser "manager" :=
    .carried hcarries ⟨_, List.mem_singleton_self _, rfl, rfl, rfl⟩
  exact ⟨hall.1 u _ _ hu hrun, hhidden, hall.2.2 _ _ _ _ _ _ hhidden 2⟩

/-- A placeholder is hidden in a filter that a rule carries, in that of a formula field behind a link,
and in that of a formula field which a stored filter names. -/
theorem find_failsOver_owner :
    let owned := Condition.ofRule "owner" .containCurrentUser .null
    let invoice := Entity.new "invoice" "Invoice" "INVOICE"
      [.new "c" "customer" (.connection ⟨"customer", some "i", .one, .many, true, none, none⟩),
        .new "t" "total" .number, .new "o" "owner" (.user false)]
    let customer := Entity.new "customer" "Customer" "CUSTOMER"
      [.new "i" "invoices" (.connection ⟨"invoice", some "c", .many, .one, false, none, none⟩),
        .new "m" "mine" (.formula ⟨"i", "t", .sum, some owned⟩)]
    let rich := Condition.ofRule "mine" .greater (.ofInt 5)
    let t := Tenant.new {} ⟨[invoice, customer], [⟨"q", "Rich", "customer", rich, []⟩], []⟩
    let s : Session := ⟨{}, {}, .tenant⟩
    let fails (entity : String) (c : Condition) : Prop :=
      ∃ u, (∀ x ∈ u, x.Under t) ∧ (s.find entity { condition := c } { isSystem := true }).Runs u
        (.error (.unreplaced .containCurrentUser "owner"))
    fails "customer" (.ofRule "invoices" .haveRelation owned.toJson) ∧
    fails "invoice" (.ofRule "customer" .haveRelation rich.toJson) ∧
    fails "customer" (.ofRule "this_object" .inQuery (.str "q")) := by
  intro owned invoice customer rich t s fails
  have hfails {entity : String} {c : Condition}
      (h : unreplaced? ((s.find entity { condition := c } { isSystem := true }).transcript
        (Request.steady t.catalog t.links fun _ => [])).2 = some (.containCurrentUser, "owner")) :
      fails entity c := Program.exists_run_under (eq_error_of_unreplaced? h)
  exact ⟨hfails (by decide +kernel), hfails (by decide +kernel), hfails (by decide +kernel)⟩

end Session

end CatalogQuery
