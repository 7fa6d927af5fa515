import CatalogQuery.Proofs.Compile.Renaming
import CatalogQuery.Proofs.Reduce.FormulaFilters
import CatalogQuery.Proofs.Session.Placeholders

/-!
# What narrows formula fields

The sub-select of a formula field is narrowed by one condition. Main statement: in a find or a count that
is the filter of the field itself, reduced for the caller if it holds placeholders, unless a filter was
reduced under the id of the field which is not its own; then it is what the last such filter came to.
-/

namespace CatalogQuery

open Sql

namespace Compile

/-- Whether an expression is the aggregate of a formula of an object over what its connection leads to,
narrowed by a condition, if there is one, and by nothing else. -/
structure Aggregates (env : Env) (inner : Inner) (frame : Frame) (owner : Entity) (table : String)
    (formula : Formula) (l : Link) (d : Option Condition) (x : Expr) : Prop where
  link : (link env owner formula.field).result = .ok l
  linked : ∃ target field filter, env.catalog.entity l.target = .ok target ∧
    target.field formula.target = some field ∧
    let within := frame.inner target "__f"
    (narrowed (inner within) d).result = .ok filter ∧
    x = .aggregate formula.aggregate ⟨within.table, field.column⟩ (l.correlated table within.table).1
      (l.correlated table within.table).2 filter

theorem exists_aggregates {env : Env} {inner : Inner} {frame : Frame} {owner : Entity} {table : String}
    {f : Field} {formula : Formula} (htype : f.type = .formula formula) {x : Expr}
    (h : (fieldExpr env inner frame owner table f).result = .ok x) :
    ∃ l, Aggregates env inner frame owner table formula l (env.filterOf f formula) x := by
  rw [fieldExpr, htype] at h
  obtain ⟨l, hl, h⟩ := Traced.result_bind_ok.1 h
  obtain ⟨target, htarget, h⟩ := Traced.result_bind_ok.1 h
  split at h
  · cases h
  rename_i field hfield
  refine ⟨l, hl, target, field, ?_⟩
  dsimp only at h
  split at h <;> rename_i hd <;> rw [hd] <;>
  · obtain ⟨filter, hfilter, h⟩ := Traced.result_bind_ok.1 h
    cases h
    exact ⟨filter, htarget, hfield, hfilter, rfl⟩

end Compile

namespace Reduce

/-- The condition in force for a formula field: its own filter, or what the last of those filters came to
that were reduced under its id. -/
inductive InForce (ctx : Context) (t : List Exchange) (ps : List Pending) (f : Field)
    (formula : Formula) : Option Condition → Prop
  | stored (hnone : ∀ p ∈ ps, p.id ≠ f.id) (hresolved : ∀ d, formula.filter = some d → d.Resolved) :
    InForce ctx t ps f formula formula.filter
  | reduced {p : Pending} {c : Condition} {u : List Exchange} (hlast : lastWith f.id ps = some p)
    (hu : u <:+: t) (hc : (p.reduced ctx).Runs u (.ok c)) : InForce ctx t ps f formula (some c)

/-- The condition that is meant for a formula field whose connection leads to an object: its own filter,
reduced if it holds placeholders. -/
inductive Own (ctx : Context) (t : List Exchange) (target : String) (formula : Formula) :
    Option Condition → Prop
  | stored (hresolved : ∀ d, formula.filter = some d → d.Resolved) :
    Own ctx t target formula formula.filter
  | reduced {d c : Condition} {u : List Exchange} (hd : formula.filter = some d) (hu : u <:+: t)
    (hc : (reduceTree ctx ctx.catalog.storedFilters [] target d).Runs u (.ok c)) :
    Own ctx t target formula (some c)

variable {ctx : Context} {t : List Exchange} {ps : List Pending} {f : Field} {formula : Formula}
  {d : Option Condition}

/-- Where only its own filter was reduced under the id of a field, nothing else is in force for it. -/
theorem InForce.own (h : InForce ctx t ps f formula d) {target : String}
    (hown : ∀ p ∈ ps, p.id = f.id → p.target = target ∧ formula.filter = some p.filter) :
    Own ctx t target formula d := by
  cases h with
  | stored _ hresolved => exact .stored hresolved
  | reduced hlast hu hc =>
    obtain ⟨hmem, hid⟩ := lastWith_eq_some hlast
    obtain ⟨rfl, hd⟩ := hown _ hmem hid
    exact .reduced hd hu hc

/-- What the compiler takes from the filters that are kept. -/
theorem InForce.of_kept {env : Compile.Env} (h : Kept ctx t ps env.filters)
    (hresolved : ∀ c, env.filterOf f formula = some c → c.Resolved) :
    InForce ctx t ps f formula (env.filterOf f formula) := by
  have hid := h f.id
  rw [Compile.Env.filterOf] at hresolved ⊢
  cases hlast : lastWith f.id ps with
  | none =>
    rw [hlast] at hid
    cases hfind : env.filters.find? (·.1 == f.id) with
    | none =>
      rw [hfind] at hresolved
      exact .stored (lastWith_eq_none hlast) hresolved
    | some q =>
      rw [hfind] at hid
      cases hid
  | some p =>
    rw [hlast] at hid
    cases hfind : env.filters.find? (·.1 == f.id) with
    | none =>
      rw [hfind] at hid
      cases hid
    | some q =>
      rw [hfind] at hid
      cases hid with
      | some h =>
        obtain ⟨-, u, hu, hc⟩ := h
        exact .reduced hlast hu hc

end Reduce

namespace Session

open Compile Reduce

variable {T : Tenant} {s : Session} {entity : String} {e : Entity} {o : FindOptions} {caller : Caller}
  {t : List Exchange}

/-- Whether the statement of a run on an object is compiled in an environment: with the metadata of a
tenant and the filters that the run has reduced. -/
structure CompilesIn (T : Tenant) (s : Session) (entity : String) (o : FindOptions) (caller : Caller)
    (t : List Exchange) (e : Entity) (env : Compile.Env) : Prop where
  object : T.catalog.entity entity = .ok e
  filters : ∃ u, u <:+: t ∧ (s.formulaFilters T.catalog e o caller).Runs u (.ok env.filters)
  metadata : env = s.env T.catalog T.links caller env.filters

/-- The filters that are reduced for a statement on an object, in their order. -/
def pendingFor (T : Tenant) (e : Entity) (o : FindOptions) : List Pending :=
  (reducedFor T e o).flatMap (pendingOf T.links)

/-- What is kept while a statement is compiled. -/
theorem CompilesIn.kept {env : Compile.Env} (h : CompilesIn T s entity o caller t e env)
    (hT : ∀ x ∈ t, x.Under T) :
    Kept ⟨s, T.catalog, caller, .everything⟩ t (pendingFor T e o) env.filters := by
  obtain ⟨u, hu, hrun⟩ := h.filters
  have hTu : ∀ x ∈ u, x.Under T := fun x hx => hT x (hu.subset hx)
  obtain ⟨v, hv, hrun⟩ := runs_of_formulaFilters hTu hrun
  exact (kept_of_formulaFilters (fun x hx => hTu x (hv.subset hx)) hrun).mono (hv.trans hu)

/-- What is read has been compiled in an environment, if the metadata stays as it is. -/
theorem exists_compilesIn {α : Type} {select : Compile.Env → Entity → Condition → Traced Select}
    {next : Catalog → Entity → List Row → Program α} {a : α} (hT : ∀ x ∈ t, x.Under T)
    (h : (do
      let catalog ← Program.catalog
      let e ← Program.ofResult (catalog.entity entity)
      let c ← Reduce.reduce s entity o.condition caller
      let filters ← s.formulaFilters catalog e o caller
      let statement ← Program.withLinks fun links => select (s.env catalog links caller filters) e c
      let rows ← s.fetch statement
      next catalog e rows : Program α).Runs t (.ok a)) :
    ∃ e env c statement, CompilesIn T s entity o caller t e env ∧
      (select env e c).result = .ok statement ∧
      ∃ u rows, u <:+: t ∧ (s.fetch statement).Runs u (.ok rows) := by
  obtain ⟨catalog, t₁, rfl, h₁⟩ := Program.Runs.catalog_bind_iff.1 h
  have hcatalog : catalog = T.catalog := hT ⟨.catalog, catalog⟩ List.mem_cons_self
  obtain ⟨e, hobject, h₂⟩ := Program.Runs.ofResult_bind_ok.1 h₁
  obtain ⟨reducing, t₃, c, rfl, -, h₃⟩ := Program.Runs.bind_ok.1 h₂
  obtain ⟨filtering, t₄, filters, rfl, hfilters, h₄⟩ := Program.Runs.bind_ok.1 h₃
  obtain ⟨compiling, t₅, statement, rfl, hselect, h₅⟩ := Program.Runs.bind_ok.1 h₄
  obtain ⟨reading, after, rows, rfl, hread, -⟩ := Program.Runs.bind_ok.1 h₅
  obtain ⟨links, hcompiling, hresult⟩ := Program.Runs.withLinks_iff.1 hselect
  -- The links are asked for once more, and are those of the tenant again.
  have hlinks : links = T.links := hT ⟨.links, links⟩ (by simp [hcompiling])
  subst hcatalog
  rw [hlinks] at hresult
  let asked : Exchange := ⟨.catalog, T.catalog⟩
  exact ⟨e, s.env T.catalog T.links caller filters, c, statement,
    ⟨hobject, ⟨filtering, ⟨asked :: reducing, compiling ++ (reading ++ after), by simp [asked]⟩,
      hfilters⟩, rfl⟩, hresult.symm, reading, rows,
    ⟨asked :: (reducing ++ filtering ++ compiling), after, by simp [asked]⟩, hread⟩

/-- The sub-select of a formula field is narrowed by one condition. In a find or a count whose metadata
stays as it is, what is read is compiled in an environment in which that condition is in force for the
field; it is the filter of the field itself, reduced for the caller if it holds placeholders, wherever
no other filter was reduced under the id of the field. -/
theorem formulas_narrowed (T : Tenant) (s : Session) (entity : String) (o : FindOptions)
    (caller : Caller) (t : List Exchange) (hT : ∀ x ∈ t, x.Under T) :
    (∀ rows, (s.find entity o caller).Runs t (.ok rows) →
      ∃ e env c statement, CompilesIn T s entity o caller t e env ∧
        (findSelect env e o c).result = .ok statement ∧
        ∃ u found, u <:+: t ∧ (s.fetch statement).Runs u (.ok found)) ∧
    (∀ n, (s.count entity o caller).Runs t (.ok n) →
      ∃ e env c statement, CompilesIn T s entity o caller t e env ∧
        (countSelect env e o c).result = .ok statement ∧
        ∃ u found, u <:+: t ∧ (s.fetch statement).Runs u (.ok found)) ∧
    ∀ e env, CompilesIn T s entity o caller t e env →
      ∀ (levels : Nat) (frame : Frame) (owner : Entity) (table : String) (f : Field)
        (formula : Formula) (x : Expr), f.type = .formula formula →
      (fieldExpr env (within env levels) frame owner table f).result = .ok x →
      let ctx : Context := ⟨s, T.catalog, caller, .everything⟩
      ∃ l d, Aggregates env (within env levels) frame owner table formula l d x ∧
        InForce ctx t (pendingFor T e o) f formula d ∧
        ((∀ p ∈ pendingFor T e o, p.id = f.id → p.target = l.target ∧ formula.filter = some p.filter) →
          Own ctx t l.target formula d) := by
  refine ⟨fun rows h => exists_compilesIn hT h, fun n h => exists_compilesIn hT h, ?_⟩
  intro e env henv levels frame owner table f formula x htype hx
  obtain ⟨l, hl⟩ := exists_aggregates htype hx
  -- A condition with placeholders is not compiled, so the one in force has none.
  have hresolved : ∀ c, env.filterOf f formula = some c → c.Resolved := by
    intro c hc
    obtain ⟨target, field, filter, -, -, hfilter, -⟩ := hl.linked
    rw [hc] at hfilter
    exact resolved_of_within hfilter
  have hforce := InForce.of_kept (henv.kept hT) hresolved
  exact ⟨l, _, hl, hforce, hforce.own⟩

/-- The invoices of a customer are counted as far as they are the caller's own. -/
theorem formulas_narrowed_mine :
    let owned := Condition.ofRule "owner" .containCurrentUser .null
    let formula : Formula := ⟨"i", "t", .sum, some owned⟩
    let mine := Field.new "m" "mine" (.formula formula)
    let customer := Entity.new "customer" "Customer" "CUSTOMER"
      [.new "i" "invoices" (.connection ⟨"invoice", some "c", .many, .one, false, none, none⟩), mine]
    let invoice := Entity.new "invoice" "Invoice" "INVOICE"
      [.new "c" "customer" (.connection ⟨"customer", some "i", .one, .many, true, none, none⟩),
        .new "t" "total" .number, .new "o" "owner" (.user false)]
    let T := Tenant.new {} ⟨[customer, invoice], [], []⟩
    let s : Session := ⟨{}, {}, .tenant⟩
    let alice : Caller := { username := some "alice", isSystem := true }
    let answer := Request.steady T.catalog T.links fun _ => []
    let t := ((s.find "customer" {} alice).transcript answer).1
    let u := ((s.formulaFilters T.catalog customer {} alice).transcript answer).1
    let env := s.env T.catalog T.links alice [("m", .ofRule "owner" .equals (.str "alice"))]
    (∃ rows e env c statement, (s.find "customer" {} alice).Runs t (.ok rows) ∧
      CompilesIn T s "customer" {} alice t e env ∧ (findSelect env e {} c).result = .ok statement) ∧
    CompilesIn T s "customer" {} alice u customer env ∧
    ∃ x l d, (fieldExpr env (within env 1) (.base customer) customer "CUSTOMER" mine).result = .ok x ∧
      Aggregates env (within env 1) (.base customer) customer "CUSTOMER" formula l d x ∧
      Own ⟨s, T.catalog, alice, .everything⟩ u l.target formula d := by
  intro owned formula mine customer invoice T s alice answer t u env
  constructor
  · obtain ⟨rows, hrows⟩ : ∃ rows, ((s.find "customer" {} alice).transcript answer).2 = .ok rows := by
      cases hr : ((s.find "customer" {} alice).transcript answer).2 with
      | ok rows => exact ⟨rows, rfl⟩
      | error err =>
        have hok : ((s.find "customer" {} alice).transcript answer).2.toBool = true := by decide +kernel
        rw [hr] at hok
        cases hok
    have hfound : (s.find "customer" {} alice).transcript answer = (t, .ok rows) := Prod.ext rfl hrows
    obtain ⟨hrun, hanswers⟩ := Program.Runs.iff_transcript.2 hfound
    obtain ⟨e, env, c, statement, henv, hstatement, -⟩ :=
      (formulas_narrowed T s "customer" {} alice t fun x hx => .of_answer (hanswers x hx)).1 rows hrun
    exact ⟨rows, e, env, c, statement, hrun, henv, hstatement⟩
  · have hfilters : ((s.formulaFilters T.catalog customer {} alice).transcript answer).2 =
        .ok env.filters := rfl
    have hreduced : (s.formulaFilters T.catalog customer {} alice).transcript answer =
        (u, .ok env.filters) := Prod.ext rfl hfilters
    obtain ⟨hrun, hanswers⟩ := Program.Runs.iff_transcript.2 hreduced
    have henv : CompilesIn T s "customer" {} alice u customer env :=
      ⟨rfl, ⟨u, List.infix_rfl, hrun⟩, rfl⟩
    obtain ⟨x, hx⟩ : ∃ x,
        (fieldExpr env (within env 1) (.base customer) customer "CUSTOMER" mine).result = .ok x :=
      ⟨_, rfl⟩
    obtain ⟨l, d, haggregates, -, hown⟩ :=
      (formulas_narrowed T s "customer" {} alice u fun x hx => .of_answer (hanswers x hx)).2.2
        customer env henv 1 (.base customer) customer "CUSTOMER" mine formula x rfl hx
    refine ⟨henv, x, l, d, hx, haggregates, hown ?_⟩
    have hlink : l.target = "invoice" := by
      have hl := haggregates.link
      cases hl
      rfl
    rw [show pendingFor T customer {} = [⟨"m", "invoice", owned⟩] from rfl, List.forall_mem_singleton]
    exact fun _ => ⟨hlink.symm, rfl⟩

/-- Of customers who have turnover all invoices count, but where a field of the invoices has the id of
the field `turnover`, its filter is taken for that of the turnover. -/
theorem formulas_narrowed_foreign :
    let owned := Condition.ofRule "owner" .containCurrentUser .null
    let turnover : Formula := ⟨"i", "t", .sum, none⟩
    let customer := Entity.new "customer" "Customer" "CUSTOMER"
      [.new "i" "invoices" (.connection ⟨"invoice", some "c", .many, .one, false, none, none⟩),
        .new "r" "credit" .number, .new "o" "owner" (.user false), .new "n" "turnover" (.formula turnover)]
    let invoice := Entity.new "invoice" "Invoice" "INVOICE"
      [.new "c" "customer" (.connection ⟨"customer", some "i", .one, .many, true, none, none⟩),
        .new "t" "total" .number, .new "o" "owner" (.user false),
        .new "n" "granted" (.formula ⟨"c", "r", .sum, some owned⟩)]
    let T := Tenant.new {} ⟨[invoice, customer], [], []⟩
    let s : Session := ⟨{}, {}, .tenant⟩
    let alice : Caller := { username := some "alice", isSystem := true }
    let rich := Condition.ofRule "turnover" .greater (.ofInt 5)
    let o : FindOptions := { condition := .ofRule "customer" .haveRelation rich.toJson }
    let t := ((s.formulaFilters T.catalog invoice o alice).transcript
      (Request.steady T.catalog T.links fun _ => [])).1
    let env := s.env T.catalog T.links alice [("n", .ofRule "owner" .equals (.str "alice"))]
    CompilesIn T s "invoice" o alice t invoice env ∧
    (within env 3 (.base invoice) o.condition).result = .ok (some
      (.related ⟨"CUSTOMER", some "__r1", []⟩ ⟨⟨"__r1", "uuid"⟩, ⟨"INVOICE", "customer"⟩⟩
        (some (.compare
          (.aggregate .sum ⟨"__f2", "total"⟩ ⟨"INVOICE", some "__f2", []⟩
            ⟨⟨"__f2", "customer"⟩, ⟨"__r1", "uuid"⟩⟩
            (some (.compare (.column ⟨"__f2", "owner"⟩) .eq (.value (.str "alice")))))
          .gt (.value (.ofInt 5)))) false)) ∧
    ∀ ctx c, ¬ Own ctx t "invoice" turnover (some c) := by
  intro owned turnover customer invoice T s alice rich o t env
  refine ⟨⟨rfl, ⟨t, List.infix_rfl, .of_transcript rfl⟩, rfl⟩, ?_, ?_⟩
  · dsimp only [env, T, s, alice, o, rich, invoice, customer, turnover, owned]
    rfl
  · rintro ctx c (_ | ⟨hd, -, -⟩)
    cases hd

end Session

end CatalogQuery
