import CatalogQuery.Proofs.Compile.Composed
import CatalogQuery.Proofs.Session.Channels
import CatalogQuery.Proofs.Session.Coherence

/-!
# Requests while the catalog is replaced

A request waits for the database and for locks, and while it waits others may replace the catalog, drop
links and ask for links. Main statement: every catalog and all links that a request gets are those that
the tenant has at that moment. So they are those of the start until the catalog is replaced; the object
that is asked for always is, and so are the links of an object whose records are changed.
-/

namespace CatalogQuery

/-! ## What others do -/

namespace Tenant

/-- Whether the links that are known are those that the catalog gives. -/
def Coherent (t : Tenant) : Prop := ∀ x ∈ t.known, t.Fresh x.1 x.2

/-- The tenant after somebody has done all of a task. -/
def perform (t : Tenant) : Task → Tenant
  | .wants entity => (t.consult entity).1
  | .replaces c => t.replaceCatalog c
  | .forgets entity => t.forget entity
  | .forgetsAll => t.forgetAll
  | _ => t

/-- The catalog that a task leaves in the place of another. -/
def Task.catalogAfter (c : Catalog) : Task → Catalog
  | .replaces c' => c'
  | _ => c

variable {t : Tenant}

theorem Coherent.links_eq (h : t.Coherent) :
    t.links = LinkMap.ofCatalog t.settings t.catalog :=
  Shared.Sound.links_eq (s := ⟨t, []⟩) ⟨fun x hx => .inl (h x hx), by simp⟩ (by simp)

/-- Asking for links leaves the catalog alone. -/
theorem consult_eq (t : Tenant) (entity : String) :
    (t.consult entity).1.settings = t.settings ∧ (t.consult entity).1.catalog = t.catalog := by
  rw [consult]
  split
  · exact ⟨rfl, rfl⟩
  split
  · exact ⟨rfl, rfl⟩
  · rw [keep]
    split <;> exact ⟨rfl, rfl⟩

theorem Coherent.consult (h : t.Coherent) (entity : String) : (t.consult entity).1.Coherent := by
  have hlinks := ofCatalog_eq t entity
  rw [Tenant.consult]
  split
  · exact h
  split
  · exact h
  · rename_i m notices hresolved
    rw [hresolved] at hlinks
    rw [keep, if_pos rfl]
    intro x hx
    rcases List.mem_cons.1 hx with rfl | hx
    · exact hlinks
    · exact h x (List.mem_of_mem_filter hx)

theorem Coherent.perform (h : t.Coherent) (task : Task) : (t.perform task).Coherent := by
  cases task with
  | wants entity => exact h.consult entity
  | replaces c => exact List.forall_mem_nil _
  | forgets entity => exact fun x hx => h x (List.mem_of_mem_filter hx)
  | forgetsAll => exact List.forall_mem_nil _
  | misses | starts | resolves | answered | drops | finished => exact h

theorem perform_eq (t : Tenant) (task : Task) :
    (t.perform task).settings = t.settings ∧ (t.perform task).catalog = task.catalogAfter t.catalog := by
  cases task with
  | wants entity => exact t.consult_eq entity
  | replaces | forgets | forgetsAll => exact ⟨rfl, rfl⟩
  | misses | starts | resolves | answered | drops | finished => exact ⟨rfl, rfl⟩

end Tenant

/-! ## Turns of a request -/

/-- A request with its answer, and what others did before it was gone on. -/
structure Turn where
  exchange : Exchange
  meanwhile : List Tenant.Task

/-- Whether the catalog was replaced in a turn. -/
def Turn.Replaces (x : Turn) : Prop := ∃ c, .replaces c ∈ x.meanwhile

/-- The catalog after some turns. -/
def Turn.catalogAfter (c : Catalog) (turns : List Turn) : Catalog :=
  (turns.flatMap meanwhile).foldl Tenant.Task.catalogAfter c

/-- Whether the metadata that an exchange gives are those of a catalog. -/
def Exchange.GoesBy (settings : Settings) (c : Catalog) : Exchange → Prop
  | ⟨.catalog, answer⟩ => answer = c
  | ⟨.links, links⟩ => links = LinkMap.ofCatalog settings c
  | _ => True

theorem Exchange.GoesBy.of_not_quiet {settings : Settings} {c : Catalog} {x : Exchange}
    (h : ¬ x.request.Quiet) : x.GoesBy settings c := by
  obtain ⟨request, answer⟩ := x
  cases request with
  | fetch | execute | lock => trivial
  | catalog | links | consult | notice | newKey => exact absurd trivial h

namespace Tenant

/-- Whether an exchange gives the metadata of a tenant. -/
def Gives (t : Tenant) : Exchange → Prop
  | ⟨.catalog, c⟩ => c = t.catalog
  | ⟨.links, links⟩ => links = t.links
  | _ => True

/-- The tenant after a request of its own. -/
def asked (t : Tenant) : Request → Tenant
  | .consult entity => (t.consult entity).1
  | _ => t

/-- The tenant after a turn. -/
def next (t : Tenant) (x : Turn) : Tenant := x.meanwhile.foldl perform (t.asked x.exchange.request)

/-- Whether a tenant answers a request as in some turns, and others come in only where the request waits
for the database or for a lock. -/
def Serves : Tenant → List Turn → Prop
  | _, [] => True
  | t, x :: rest =>
    t.Gives x.exchange ∧ (x.exchange.request.Quiet → x.meanwhile = []) ∧ (t.next x).Serves rest

variable {t : Tenant} {turns before after : List Turn} {x : Turn}

theorem Coherent.goesBy (h : t.Coherent) {x : Exchange} (hx : t.Gives x) :
    x.GoesBy t.settings t.catalog := by
  obtain ⟨request, answer⟩ := x
  cases request with
  | catalog => exact hx
  | links => exact hx.trans h.links_eq
  | consult | notice | fetch | execute | lock | newKey => trivial

/-- What a turn keeps. -/
theorem Coherent.next (h : t.Coherent) (x : Turn) : (t.next x).Coherent ∧
    (t.next x).settings = t.settings ∧ (t.next x).catalog = Turn.catalogAfter t.catalog [x] := by
  have hasked : (t.asked x.exchange.request).Coherent ∧
      (t.asked x.exchange.request).settings = t.settings ∧
      (t.asked x.exchange.request).catalog = t.catalog := by
    cases x.exchange.request with
    | consult entity => exact ⟨h.consult entity, t.consult_eq entity⟩
    | catalog | links | notice | fetch | execute | lock | newKey => exact ⟨h, rfl, rfl⟩
  rw [Tenant.next, Turn.catalogAfter, List.flatMap_singleton]
  obtain ⟨hcoherent, hsettings, hcatalog⟩ := hasked
  rw [← hsettings, ← hcatalog]
  generalize t.asked x.exchange.request = t' at hcoherent
  induction x.meanwhile generalizing t' with
  | nil => exact ⟨hcoherent, rfl, rfl⟩
  | cons task rest ih =>
    obtain ⟨hkept, hkeptSettings, hkeptCatalog⟩ := ih _ (hcoherent.perform task)
    obtain ⟨hsettings, hcatalog⟩ := t'.perform_eq task
    exact ⟨hkept, hkeptSettings.trans hsettings, by
      rw [List.foldl_cons, List.foldl_cons, hkeptCatalog, hcatalog]⟩

/-- Whatever others do, a request gets the metadata of the catalog that is there. -/
theorem Coherent.goesBy_of_serves (h : t.Coherent) (hserves : t.Serves (before ++ x :: after)) :
    x.exchange.GoesBy t.settings (Turn.catalogAfter t.catalog before) := by
  induction before generalizing t with
  | nil => exact h.goesBy hserves.1
  | cons y rest ih =>
    obtain ⟨hnext, hsettings, hcatalog⟩ := h.next y
    have hx := ih hnext hserves.2.2
    rw [hsettings, hcatalog] at hx
    rwa [Turn.catalogAfter, List.flatMap_cons, List.foldl_append, ← List.flatMap_singleton Turn.meanwhile]

end Tenant

/-- The catalog stays where nobody replaces it. -/
theorem Turn.catalogAfter_eq {turns : List Turn} (h : ∀ x ∈ turns, ¬ x.Replaces) (c : Catalog) :
    Turn.catalogAfter c turns = c := by
  have hstays {tasks : List Tenant.Task} (htasks : ∀ c', .replaces c' ∉ tasks) :
      tasks.foldl Tenant.Task.catalogAfter c = c := by
    induction tasks with
    | nil => rfl
    | cons task rest ih =>
      have htask : task.catalogAfter c = c := by
        cases task with
        | replaces c' => exact absurd List.mem_cons_self (htasks c')
        | wants | misses | starts | resolves | answered | drops | forgets | forgetsAll | finished => rfl
      rw [List.foldl_cons, htask]
      exact ih fun c' hc' => htasks c' (List.mem_cons_of_mem _ hc')
  refine hstays fun c' hc' => ?_
  obtain ⟨x, hx, hmem⟩ := List.mem_flatMap.1 hc'
  exact h x hx ⟨c', hmem⟩

namespace Tenant

variable {t : Tenant} {turns before after : List Turn} {x : Turn}

theorem Serves.meanwhile_eq_nil (h : t.Serves turns) (hx : x ∈ turns)
    (hquiet : x.exchange.request.Quiet) : x.meanwhile = [] := by
  induction turns generalizing t with
  | nil => cases hx
  | cons y rest ih =>
    rcases List.mem_cons.1 hx with rfl | hx
    · exact h.2.1 hquiet
    · exact ih h.2.2 hx

/-- Before a request waits for the first time it gets the metadata of the start. -/
theorem Coherent.goesBy_of_quiet (h : t.Coherent) (hserves : t.Serves (before ++ after))
    (hbefore : ∀ y ∈ before, y.exchange.request.Quiet) :
    ∀ y ∈ before, y.exchange.GoesBy t.settings t.catalog := by
  intro y hy
  obtain ⟨earlier, later, rfl⟩ := List.append_of_mem hy
  rw [List.append_assoc, List.cons_append] at hserves
  have hgoes := h.goesBy_of_serves hserves
  rwa [Turn.catalogAfter_eq] at hgoes
  rintro z hz ⟨c, hc⟩
  rw [hserves.meanwhile_eq_nil (List.mem_append_left _ hz)
    (hbefore z (List.mem_append_left _ hz))] at hc
  cases hc

end Tenant

/-- What runs to its end is served in turns in which nobody else does anything. -/
theorem Program.exists_turns {σ α : Type} {b : Backend σ} {p : Program α} {taken : List RecordMutex}
    {site site' : Site σ} {a : α} (h : p.runHolding b taken site = (.done a, site')) :
    ∃ turns, site.tenant.Serves turns ∧ (∀ x ∈ turns, x.meanwhile = []) ∧
      p.Runs (turns.map Turn.exchange) (.ok a) := by
  induction p generalizing taken site with
  | done a' =>
    cases h
    exact ⟨[], trivial, List.forall_mem_nil _, rfl, rfl⟩
  | failed e => cases h
  | ask r next ih =>
    have hturn {answer : r.Answer} {taken : List RecordMutex} {site₁ : Site σ}
        (h : (next answer).runHolding b taken site₁ = (.done a, site'))
        (hgives : site.tenant.Gives ⟨r, answer⟩) (hnext : site.tenant.asked r = site₁.tenant) :
        ∃ turns, site.tenant.Serves turns ∧ (∀ x ∈ turns, x.meanwhile = []) ∧
          (ask r next).Runs (turns.map Turn.exchange) (.ok a) := by
      obtain ⟨turns, hserves, hnobody, hruns⟩ := ih answer h
      rw [← hnext] at hserves
      exact ⟨⟨⟨r, answer⟩, []⟩ :: turns, ⟨hgives, fun _ => rfl, hserves⟩,
        List.forall_mem_cons.2 ⟨rfl, hnobody⟩, answer, _, rfl, hruns⟩
    cases r with
    | catalog | links => exact hturn h rfl rfl
    | consult | notice | fetch | execute | newKey =>
      rw [runHolding] at h
      exact hturn h trivial rfl
    | lock entity key =>
      rw [runHolding] at h
      split at h
      · exact hturn h trivial rfl
      · cases h

/-! ## What requests begin with -/

/-- Whether every run of a program begins with some requests. -/
def Program.Opens {α : Type} (p : Program α) (requests : List Request) : Prop :=
  ∀ t r, p.Runs t r → requests <+: t.map Exchange.request

theorem Program.Opens.bind {α β : Type} {p : Program α} {requests : List Request} (h : p.Opens requests)
    (f : α → Program β) : (p >>= f).Opens requests := by
  intro t r hrun
  rcases Runs.bind_iff.1 hrun with ⟨e, hp, -⟩ | ⟨t₁, t₂, a, rfl, hp, -⟩
  · exact h _ _ hp
  · rw [List.map_append]
    exact (h _ _ hp).trans (List.prefix_append ..)

theorem Program.Opens.linksOf (entity : String) :
    (Program.linksOf entity).Opens [.links, .consult entity] := by
  intro t r hrun
  obtain ⟨links, rfl, -⟩ := Runs.linksOf_iff.1 hrun
  exact List.prefix_rfl

theorem Program.Opens.reduce (s : Session) (entity : String) (c : Condition) (caller : Caller) :
    (Reduce.reduce s entity c caller).Opens [.catalog] := by
  rintro t r ⟨c', u, rfl, -⟩
  exact (List.prefix_cons_inj _).2 List.nil_prefix

/-- What a program asks for after its object. -/
theorem Program.requests_of_object {α : Type} {f : Catalog → Entity → Program α} {entity : String}
    {c : Catalog} {e : Entity} (he : c.entity entity = .ok e) {requests : List Request}
    (hf : (f c e).Opens requests) {t : List Exchange} {r : Result α}
    (h : (Program.catalog >>= fun c => Program.ofResult (c.entity entity) >>= f c).Runs
      (⟨.catalog, c⟩ :: t) r) : requests <+: t.map Exchange.request := by
  obtain ⟨c', u, hx, h⟩ := Runs.catalog_bind_iff.1 h
  cases hx
  rw [he] at h
  exact hf _ _ h

namespace Verb

variable {α : Type}

/-- The object whose records a caller asks for or changes. -/
def entity : Verb α → String
  | find entity _ | findOne entity _ _ | count entity _ | create entity _ | update entity _ _
  | delete entity _ | relate entity _ _ _ | unrelate entity _ _ _ => entity

def changes : Verb α → Bool
  | find _ _ | findOne _ _ _ | count _ _ => false
  | create _ _ | update _ _ _ | delete _ _ | relate _ _ _ _ | unrelate _ _ _ _ => true

/-- What a request asks for before it waits: the catalog, and then either the one by which its condition
is narrowed or the links by which it changes records. -/
def opening (v : Verb α) : List Request :=
  .catalog :: if v.changes then [.links, .consult v.entity] else [.catalog]

/-- The first request is for the catalog. -/
theorem exists_catalog (v : Verb α) {s : Session} {caller : Caller} {t : List Exchange} {r : Result α}
    (h : (v.program s caller).Runs t r) : ∃ (c : Catalog) (u : List Exchange),
      t = ⟨.catalog, c⟩ :: u := by
  cases v with
  | findOne entity key p =>
    rcases Program.Runs.bind_iff.1 h with ⟨e, ⟨c, u, hu, -⟩, -⟩ | ⟨t₁, t₂, rows, hu, ⟨c, u, rfl, -⟩, -⟩
    · exact ⟨c, u, hu⟩
    · exact ⟨c, u ++ t₂, hu⟩
  | find | count | create | update | delete | relate | unrelate =>
    obtain ⟨c, u, hu, -⟩ := h
    exact ⟨c, u, hu⟩

theorem quiet_of_opening (v : Verb α) {request : Request} (h : request ∈ v.opening) :
    request.Quiet := by
  rw [opening] at h
  split at h <;> simp only [List.mem_cons, List.not_mem_nil, or_false] at h
  · rcases h with rfl | rfl | rfl <;> trivial
  · rcases h with rfl | rfl <;> trivial

theorem opens {v : Verb α} {s : Session} {caller : Caller} {c : Catalog} {e : Entity}
    (he : c.entity v.entity = .ok e) {t : List Exchange} {r : Result α}
    (h : (v.program s caller).Runs (⟨.catalog, c⟩ :: t) r) :
    v.opening <+: (⟨.catalog, c⟩ :: t : List Exchange).map Exchange.request := by
  have hfind (o : FindOptions) {t : List Exchange} {r : Result (List Row)}
      (h : (s.find v.entity o caller).Runs (⟨.catalog, c⟩ :: t) r) :
      [.catalog] <+: t.map Exchange.request :=
    Program.requests_of_object he ((Program.Opens.reduce _ _ _ _).bind _) h
  refine (List.prefix_cons_inj _).2 ?_
  cases v with
  | find entity o => exact hfind o h
  | findOne entity key p =>
    rcases Program.Runs.bind_iff.1 h with ⟨e, h, -⟩ | ⟨t₁, t₂, rows, ht, h, -⟩
    · exact hfind _ h
    · obtain ⟨c', u, rfl, -⟩ := id h
      obtain ⟨hx, rfl⟩ := List.cons.inj ht
      cases hx
      show _ <+: (u ++ t₂).map Exchange.request
      rw [List.map_append]
      exact (hfind _ h).trans (List.prefix_append ..)
  | count entity o => exact Program.requests_of_object he ((Program.Opens.reduce _ _ _ _).bind _) h
  | create entity values => exact Program.requests_of_object he ((Program.Opens.linksOf _).bind _) h
  | update entity key values => exact Program.requests_of_object he ((Program.Opens.linksOf _).bind _) h
  | delete entity key => exact Program.requests_of_object he ((Program.Opens.linksOf _).bind _) h
  | relate entity key field linked | unrelate entity key field linked =>
    exact Program.requests_of_object he ((Program.Opens.linksOf _).bind _) h

end Verb

/-! ## Requests that wait last -/

/-- Whether a run asks for all metadata before it waits. -/
def Exchange.AsksFirst (t : List Exchange) : Prop :=
  ∃ asking waiting, t = asking ++ waiting ∧ Exchange.Quiet asking ∧ ∀ x ∈ waiting, ¬ x.request.Quiet

def Program.AsksFirst {α : Type} (p : Program α) : Prop :=
  ∀ t r, p.Runs t r → Exchange.AsksFirst t

namespace Program.AsksFirst

variable {α β : Type} {p : Program α} {f : α → Program β}

theorem silent (hp : p.Silent) : p.AsksFirst := fun t _ h =>
  ⟨t, [], (List.append_nil t).symm, hp.quiet h, List.forall_mem_nil _⟩

theorem next (hp : p.Silent) (hf : ∀ a, (f a).AsksFirst) : (p >>= f).AsksFirst := by
  intro t r h
  rcases Runs.bind_iff.1 h with ⟨e, hfirst, -⟩ | ⟨t₁, t₂, a, rfl, hfirst, hrest⟩
  · exact silent hp _ _ hfirst
  · obtain ⟨asking, waiting, rfl, hasking, hwaiting⟩ := hf a _ _ hrest
    exact ⟨t₁ ++ asking, waiting, (List.append_assoc ..).symm, (hp.quiet hfirst).append hasking, hwaiting⟩

/-- Nothing is asked after something that is only gone on with. -/
theorem map (h : p.AsksFirst) (g : α → β) (hf : ∀ a, f a = pure (g a)) : (p >>= f).AsksFirst := by
  intro t r hrun
  rcases Runs.bind_iff.1 hrun with ⟨e, hp, -⟩ | ⟨t₁, t₂, a, rfl, hp, hrest⟩
  · exact h _ _ hp
  · rw [hf a] at hrest
    rw [hrest.1, List.append_nil]
    exact h _ _ hp

theorem fetch (channel : Channel) (statement : Sql.Select) (retries : Nat) :
    (Program.fetch channel statement retries).AsksFirst := by
  intro t r h
  obtain ⟨answer, ⟨failures, -, -, rfl⟩, -⟩ := Runs.fetch h
  refine ⟨[], _, rfl, .nil, fun x hx hquiet => ?_⟩
  rcases List.mem_append.1 hx with hx | hx
  · obtain ⟨failure, -, rfl⟩ := List.mem_map.1 hx
    exact hquiet
  · cases List.mem_singleton.1 hx
    exact hquiet

end Program.AsksFirst

/-- Whether no filter of a formula of an object holds placeholders. -/
def Entity.FiltersPlainly (e : Entity) : Prop :=
  ∀ f ∈ e.fields, ∀ formula, f.type = .formula formula → ∀ c, formula.filter = some c →
    c.placeholders = 0

theorem Reduce.silent_fieldFilters (ctx : Context) (links : LinkMap) {fields : List Field}
    (h : ∀ f ∈ fields, ∀ formula, f.type = .formula formula → ∀ c, formula.filter = some c →
      c.placeholders = 0) (filters : List (String × Condition)) :
    (fieldFilters ctx links fields filters).Silent := by
  induction fields generalizing filters with
  | nil => exact .pure _
  | cons f rest ih =>
    obtain ⟨hf, hrest⟩ := List.forall_mem_cons.1 h
    rw [fieldFilters]
    split
    · rename_i field target aggregate c hformula
      rw [hf _ hformula c rfl]
      exact ih hrest filters
    · exact ih hrest filters

theorem Reduce.silent_formulaFilters (s : Session) {entities : List Entity}
    (h : ∀ e ∈ entities, e.FiltersPlainly) (caller : Caller) :
    (formulaFilters s entities caller).Silent := by
  refine Program.Silent.catalog.bind fun catalog => ?_
  generalize ([] : List (String × Condition)) = filters
  induction entities generalizing filters with
  | nil => exact .pure _
  | cons e rest ih =>
    obtain ⟨he, hrest⟩ := List.forall_mem_cons.1 h
    rw [entityFilters]
    refine (Program.Silent.linksOf _).bind fun links => ?_
    exact (silent_fieldFilters _ _ he _).bind fun filters => ih hrest filters

theorem Session.silent_formulaFilters (s : Session) {catalog : Catalog}
    (h : ∀ e ∈ catalog.entities, e.FiltersPlainly) {e : Entity} (he : e ∈ catalog.entities)
    (o : FindOptions) (caller : Caller) : (s.formulaFilters catalog e o caller).Silent := by
  have hall {joined : List Entity} (hjoined : ∀ j ∈ joined, j ∈ catalog.entities) :
      (Reduce.formulaFilters s (e :: joined) caller).Silent :=
    Reduce.silent_formulaFilters s
      (List.forall_mem_cons.2 ⟨h e he, fun j hj => h j (hjoined j hj)⟩) caller
  rw [Session.formulaFilters]
  split
  · exact hall (List.forall_mem_nil _)
  · refine (Program.Silent.linksOf _).bind fun links => hall fun j hj => ?_
    obtain ⟨request, -, hrequest⟩ := List.mem_filterMap.1 hj
    obtain ⟨l, -, hl⟩ := Option.bind_eq_some_iff.1 hrequest
    exact Catalog.mem_of_entity? hl

namespace Verb

variable {α : Type}

/-- Whether a request is one for records or their number and has nothing to find out from the database
before and nothing to attach after. -/
def IsPlain : Verb α → Prop
  | find _ o => o.condition.placeholders = 0 ∧ o.populate = .none
  | findOne _ _ p => p = .none
  | count _ o => o.condition.placeholders = 0
  | create _ _ | update _ _ _ | delete _ _ | relate _ _ _ _ | unrelate _ _ _ _ => False

variable {s : Session} {caller : Caller} {c : Catalog} {t : List Exchange}

/-- What finds and counts have in common asks for all metadata before it waits. -/
theorem asksFirst_read {β : Type} (hsystem : caller.isSystem = true)
    (hc : ∀ e ∈ c.entities, e.FiltersPlainly) {o : FindOptions} (ho : o.condition.placeholders = 0)
    {entity : String} {select : Compile.Env → Entity → FindOptions → Condition → Traced Sql.Select}
    {last : Entity → List Row → Program β} {g : List Row → β}
    (hlast : ∀ e rows, last e rows = pure (g rows)) {r : Result β}
    (h : (Program.catalog >>= fun catalog => do
      let e ← Program.ofResult (catalog.entity entity)
      let c ← Reduce.reduce s entity o.condition caller
      let filters ← s.formulaFilters catalog e o caller
      let statement ← Program.withLinks fun links => select (s.env catalog links caller filters) e o c
      let rows ← s.fetch statement
      last e rows).Runs (⟨.catalog, c⟩ :: t) r) : Exchange.AsksFirst t := by
  obtain ⟨c', u, hx, h⟩ := Program.Runs.catalog_bind_iff.1 h
  cases hx
  cases he : c.entity entity with
  | error err =>
    rw [he] at h
    exact ⟨[], [], h.1, .nil, List.forall_mem_nil _⟩
  | ok e =>
    rw [he] at h
    have hreduce : (Reduce.reduce s entity o.condition caller).Silent := by
      rw [Reduce.reduce_of_system hsystem _ _ (Condition.placeholders_eq_zero.1 ho)]
      exact Program.Silent.catalog.bind fun _ => Program.Silent.ofResult.bind fun _ => .pure _
    have hfilters := s.silent_formulaFilters hc (Catalog.mem_of_entity he) o caller
    have hrest : (Reduce.reduce s entity o.condition caller >>= fun c' =>
        s.formulaFilters c e o caller >>= fun filters =>
          (Program.withLinks fun links => select (s.env c links caller filters) e o c') >>= fun statement =>
            s.fetch statement >>= last e).AsksFirst :=
      .next hreduce fun c' => .next hfilters fun filters => .next .withLinks fun statement =>
        (Program.AsksFirst.fetch _ statement _).map g (hlast e)
    exact hrest _ _ h

/-- A plain request of the system asks for all metadata before it waits. -/
theorem asksFirst {v : Verb α} (hv : v.IsPlain) (hsystem : caller.isSystem = true)
    (hc : ∀ e ∈ c.entities, e.FiltersPlainly) {r : Result α}
    (h : (v.program s caller).Runs (⟨.catalog, c⟩ :: t) r) : Exchange.AsksFirst t := by
  have hfind {o : FindOptions} (ho : o.condition.placeholders = 0) (hpopulate : o.populate = .none)
      {t : List Exchange} {r : Result (List Row)}
      (h : (s.find v.entity o caller).Runs (⟨.catalog, c⟩ :: t) r) : Exchange.AsksFirst t := by
    refine asksFirst_read hsystem hc ho (g := id) (fun e rows => ?_) h
    rw [Linked.populate, if_pos (.inr hpopulate)]
    rfl
  cases v with
  | find entity o => exact hfind hv.1 hv.2 h
  | findOne entity key p =>
    have hone : (FindOptions.paginate { condition := byKey key, populate := p } 0 1).condition.placeholders
        = 0 := rfl
    rcases Program.Runs.bind_iff.1 h with ⟨e, h, -⟩ | ⟨t₁, t₂, rows, ht, h, hlast⟩
    · exact hfind hone hv h
    · rw [hlast.1, List.append_nil] at ht
      exact hfind hone hv (ht ▸ h)
  | count entity o => exact asksFirst_read hsystem hc hv (g := countOf) (fun _ _ => rfl) h
  | create | update | delete | relate | unrelate => exact hv.elim

end Verb

/-! ## What requests see -/

/-- Whatever others do while a request waits, every catalog and all links that it gets are those that the
tenant has at that moment. So they are those of the start as long as nobody has replaced the catalog. The
object, and what a find goes by to narrow its condition or a change by to write links, are always those of
the start, and all metadata are when the system asks for records plainly. -/
theorem Verb.sees_snapshots {α : Type} (v : Verb α) (s : Session) (caller : Caller) {t : Tenant}
    (ht : t.Coherent) {turns : List Turn} {r : Result α} (hserves : t.Serves turns)
    (hruns : (v.program s caller).Runs (turns.map Turn.exchange) r) :
    (∀ before x after, turns = before ++ x :: after →
      x.exchange.GoesBy t.settings (Turn.catalogAfter t.catalog before) ∧
      ((∀ y ∈ before, ¬ y.Replaces) → x.exchange.GoesBy t.settings t.catalog)) ∧
    (∀ e, t.catalog.entity v.entity = .ok e → ∃ opening rest, turns = opening ++ rest ∧
      opening.map (·.exchange.request) = v.opening ∧
      ∀ x ∈ opening, x.exchange.GoesBy t.settings t.catalog) ∧
    (v.IsPlain → caller.isSystem = true → (∀ e ∈ t.catalog.entities, e.FiltersPlainly) →
      ∀ x ∈ turns, x.exchange.GoesBy t.settings t.catalog) := by
  obtain ⟨x, rest, rfl, hx⟩ : ∃ x rest, turns = x :: rest ∧ x.exchange = ⟨.catalog, t.catalog⟩ := by
    obtain ⟨c, u, hu⟩ := v.exists_catalog hruns
    obtain ⟨x, rest, rfl, hx, -⟩ := List.map_eq_cons_iff.1 hu
    have hgives := hserves.1
    rw [hx] at hgives
    exact ⟨x, rest, rfl, hx.trans (congrArg _ hgives)⟩
  rw [List.map_cons, hx] at hruns
  refine ⟨fun before y after hturns => ?_, fun e he => ?_, fun hv hsystem hplain => ?_⟩
  · -- Each answer goes by what the turns in front of it have left.
    rw [hturns] at hserves
    have hgoes := ht.goesBy_of_serves hserves
    refine ⟨hgoes, fun hbefore => ?_⟩
    rwa [Turn.catalogAfter_eq hbefore] at hgoes
  · obtain ⟨later, hopening⟩ := v.opens he hruns
    rw [← hx, ← List.map_cons, List.map_map] at hopening
    obtain ⟨opening, rest', hturns, hrequests, -⟩ := List.map_eq_append_iff.1 hopening.symm
    refine ⟨opening, rest', hturns, hrequests, ?_⟩
    rw [hturns] at hserves
    exact ht.goesBy_of_quiet hserves fun y hy =>
      v.quiet_of_opening (hrequests ▸ List.mem_map_of_mem hy)
  · -- All metadata are asked for in front of the first request that others can come between.
    obtain ⟨asking, waiting, hrest, hasking, hwaiting⟩ := v.asksFirst hv hsystem hplain hruns
    obtain ⟨first, last, rfl, rfl, rfl⟩ := List.map_eq_append_iff.1 hrest
    have hserves : t.Serves ((x :: first) ++ last) := hserves
    have hfirst : ∀ y ∈ x :: first, y.exchange.request.Quiet := by
      refine List.forall_mem_cons.2 ⟨by rw [hx]; trivial, fun y hy => ?_⟩
      exact hasking _ (List.mem_map_of_mem hy)
    intro y hy
    rcases List.mem_append.1 (List.cons_append ▸ hy) with hy | hy
    · exact ht.goesBy_of_quiet hserves hfirst y hy
    · exact .of_not_quiet (hwaiting _ (List.mem_map_of_mem hy))

namespace Tenant

/-- What a tenant answers; the rest is answered by a function. -/
def answer (t : Tenant) (outside : (r : Request) → r.Answer) : (r : Request) → r.Answer
  | .catalog => t.catalog
  | .links => t.links
  | r => outside r

/-- The turns of a program that a tenant serves, and what it comes to, when others do something depending
on what is waited for. -/
def serve {α : Type} (outside : (r : Request) → r.Answer) (others : Request → List Task) :
    Program α → Tenant → List Turn × Result α
  | .done a, _ => ([], .ok a)
  | .failed e, _ => ([], .error e)
  | .ask r next, t =>
    let x : Turn := ⟨⟨r, t.answer outside r⟩, others r⟩
    let rest := serve outside others (next (t.answer outside r)) (t.next x)
    (x :: rest.1, rest.2)

theorem serve_spec {α : Type} {outside : (r : Request) → r.Answer} {others : Request → List Task}
    (hothers : ∀ r, r.Quiet → others r = []) (p : Program α) (t : Tenant) :
    t.Serves (serve outside others p t).1 ∧
      p.Runs ((serve outside others p t).1.map Turn.exchange) (serve outside others p t).2 := by
  induction p generalizing t with
  | done a | failed e => exact ⟨trivial, rfl, rfl⟩
  | ask r next ih =>
    let x : Turn := ⟨⟨r, t.answer outside r⟩, others r⟩
    obtain ⟨hserves, hruns⟩ := ih (t.answer outside r) (t.next x)
    have hgives : t.Gives x.exchange := by
      cases r with
      | catalog | links => rfl
      | consult | notice | fetch | execute | lock | newKey => trivial
    exact ⟨⟨hgives, hothers r, hserves⟩, _, _, rfl, hruns⟩

end Tenant

/-- While invoices are read the customers of the catalog are given another table. What is attached to the
invoices is then read by the new catalog. -/
theorem Verb.sees_snapshots_invoices :
    let customer (table : String) := Entity.new "customer" "Customer" table []
    let invoice := Entity.new "invoice" "Invoice" "INVOICE"
      [Field.new "c" "customer" (.connection (.between "customer" .one .many))]
    let old : Catalog := ⟨[invoice, customer "CUSTOMER"], [], []⟩
    let new : Catalog := ⟨[invoice, customer "CLIENT"], [], []⟩
    let t := Tenant.new {} old
    let s : Session := ⟨{}, {}, .tenant⟩
    let system : Caller := ⟨none, "en", true⟩
    let v : Verb (List Row) := .find "invoice" { populate := .all }
    let outside := Request.steady old t.links fun _ => [[("uuid", .str "i1"), ("customer", .str "c1")]]
    let others : Request → List Tenant.Task := fun
      | .fetch _ select => if select.source.table = "INVOICE" then [.replaces new] else []
      | _ => []
    let run := Tenant.serve outside others (v.program s system) t
    t.Coherent ∧ t.Serves run.1 ∧ (v.program s system).Runs (run.1.map Turn.exchange) run.2 ∧
      (∃ x after, run.1 = run.1.take 9 ++ x :: after ∧ x.exchange.request = .links ∧
        x.exchange.GoesBy {} new) ∧
      ∃ opening rest, run.1 = opening ++ rest ∧
        opening.map (·.exchange.request) = [.catalog, .catalog] ∧
        ∀ x ∈ opening, x.exchange.GoesBy {} old := by
  intro customer invoice old new t s system v outside others run
  have ht : t.Coherent := List.forall_mem_nil _
  have hothers (r : Request) (hr : r.Quiet) : others r = [] := by
    cases r with
    | fetch => exact hr.elim
    | catalog | links | consult | notice | execute | lock | newKey => rfl
  obtain ⟨hserves, hruns⟩ := Tenant.serve_spec hothers (v.program s system) t
  obtain ⟨hgoes, hopening, -⟩ := v.sees_snapshots s system ht hserves hruns
  refine ⟨ht, hserves, hruns, ?_, hopening invoice rfl⟩
  obtain ⟨x, after, hdrop, hx⟩ : ∃ x after, run.1.drop 9 = x :: after ∧ x.exchange.request = .links :=
    ⟨_, _, rfl, rfl⟩
  have hturns : run.1 = run.1.take 9 ++ x :: after := by rw [← hdrop, List.take_append_drop]
  have hmeanwhile : (run.1.take 9).flatMap Turn.meanwhile = [.replaces new] := by
    dsimp only [run, v, s, system, outside, others, t, new, old, invoice, customer]
    rfl
  have hleave : Turn.catalogAfter t.catalog (run.1.take 9) = new := by
    rw [Turn.catalogAfter, hmeanwhile]
    rfl
  exact ⟨x, after, hturns, hx, hleave ▸ (hgoes _ _ _ hturns).1⟩

/-- Metadata that are asked for late are those of another snapshot. What is attached to invoices is read
from a table that the catalog of the start does not have. A condition on what invoices are linked to fails,
since the links of one catalog lead to an object that the other does not have, where both catalogs on their
own give the invoices. -/
theorem Verb.sees_several_snapshots :
    let customer (table : String) := Entity.new "customer" "Customer" table []
    let invoice (target : String) := Entity.new "invoice" "Invoice" "INVOICE"
      [Field.new "c" "customer" (.connection (.between target .one .many))]
    let s : Session := ⟨{}, {}, .tenant⟩
    let replacing (c : Catalog) (table : String) : Request → List Tenant.Task := fun
      | .fetch _ select => if select.source.table = table then [.replaces c] else []
      | _ => []
    let tables (turns : List Turn) : List String := turns.filterMap fun x =>
      match x.exchange.request with
      | .fetch _ select => some select.source.table
      | _ => none
    let invoices : List Row := [[("uuid", .str "i1"), ("customer", .str "c1")]]
    let served (v : Verb (List Row)) (caller : Caller) (catalog : Catalog)
        (others : Request → List Tenant.Task) : List Turn × Result (List Row) :=
      Tenant.serve (Request.underScopes {} catalog [[("uuid", .str "s1"), ("allowAll", .bool true)]]
        fun _ => invoices) others (v.program s caller) (Tenant.new {} catalog)
    let old : Catalog := ⟨[invoice "customer", customer "CUSTOMER"], [], []⟩
    let renamed : Catalog := ⟨[invoice "customer", customer "CLIENT"], [], []⟩
    let relinked : Catalog := ⟨[invoice "client", Entity.new "client" "Client" "CLIENT" []], [], []⟩
    let populated : Verb (List Row) := .find "invoice" { populate := .all }
    let linked : Verb (List Row) := .find "invoice"
      { condition := .ofRule "c" .haveRelation .null, populate := .none }
    let system : Caller := ⟨none, "en", true⟩
    let alice : Caller := { username := some "alice" }
    let run := served populated system old (replacing renamed "INVOICE")
    (¬ ∀ x ∈ run.1, x.exchange.GoesBy {} old) ∧ tables run.1 = ["INVOICE", "CLIENT"] ∧
      tables (served populated system old fun _ => []).1 = ["INVOICE", "CUSTOMER"] ∧
      (served linked alice old (replacing relinked "SITE_SCOPE")).2 =
        .error (.objectNotFound "client") ∧
      (served linked alice old fun _ => []).2 = .ok invoices ∧
      (served linked alice relinked fun _ => []).2 = .ok invoices := by
  intro customer invoice s replacing tables invoices served old renamed relinked populated linked system
    alice run
  have hmem : (⟨⟨.catalog, renamed⟩, []⟩ : Turn) ∈ run.1 := by
    apply List.mem_of_getElem? (i := 8)
    dsimp only [run, served, populated, replacing, system, s, renamed, old, invoices, customer, invoice]
    rfl
  refine ⟨fun h => ?_, ?_⟩
  · have hsame : renamed = old := h _ hmem
    exact absurd (congrArg (fun c => c.entities.map Entity.table) hsame) (by decide)
  · dsimp only [run, customer, invoice, s, replacing, tables, invoices, served, old, renamed, relinked,
      populated, linked, system, alice]
    exact ⟨rfl, rfl, rfl, rfl, rfl⟩

end CatalogQuery
