import CatalogQuery.Proofs.Reduce.Substitution
import CatalogQuery.Proofs.Session.Exchanges
import CatalogQuery.Find
import CatalogQuery.Link.Resolve

/-!
# What a find goes by

A find that gives rows has narrowed its condition to what the caller may see, has compiled what that
came to and has read rows with the statement. Main statement: every such find goes by a `Finding`, and
what it does with its rows after that does not depend on the caller; it runs as its parts do.
-/

namespace CatalogQuery

open Reduce

/-- What a find goes by besides the caller and what is asked for. -/
structure Finding where
  catalog : Catalog
  object : Entity
  /-- The object as it was when the condition was narrowed. -/
  narrowed : Entity
  filters : List (String × Condition)
  links : Links
  sight : Sight
  /-- What the placeholders came to, in the order in which they were resolved. -/
  nodes : List Condition
  statement : Sql.Select
  rows : List Row

namespace Finding

/-- The condition as far as the caller may see records of the object. -/
def merged (f : Finding) (o : FindOptions) : Condition := f.sight.narrow f.narrowed o.condition

def env (f : Finding) (s : Session) (caller : Caller) : Compile.Env :=
  s.env f.catalog f.links caller f.filters

/-- Whether a find goes by something in a run that ends with its rows. -/
structure Of (f : Finding) (s : Session) (entity : String) (o : FindOptions) (caller : Caller)
    (t : List Exchange) : Prop where
  catalog : ⟨.catalog, f.catalog⟩ ∈ t
  object : f.catalog.entity entity = .ok f.object
  sight : ∃ u, u <:+: t ∧ (s.sight caller).Runs u (.ok f.sight)
  nodes : ∃ (catalog : Catalog) (u : List Exchange), ⟨.catalog, catalog⟩ ∈ t ∧
    catalog.entity entity = .ok f.narrowed ∧ u <:+: t ∧ ((occurrences (f.merged o)).mapM fun x =>
      placeholder ⟨s, catalog, caller, f.sight⟩
        (expansion ⟨s, catalog, caller, f.sight⟩ catalog.storedFilters []) f.narrowed x.1).Runs u
      (.ok f.nodes)
  filters : ∃ u, u <:+: t ∧ (s.formulaFilters f.catalog f.object o caller).Runs u (.ok f.filters)
  links : ⟨.links, f.links⟩ ∈ t
  statement : (findSelect (f.env s caller) f.object o (substituted (f.merged o) f.nodes)).result =
    .ok f.statement
  read : ∃ u, u <:+ t ∧
    Program.IsRead s.channel f.statement s.settings.readRetries u (.ok f.rows)

/-- Whether two finds go by the same metadata. -/
structure Alongside (f g : Finding) : Prop where
  catalog : f.catalog = g.catalog
  object : f.object = g.object
  narrowed : f.narrowed = g.narrowed
  filters : f.filters = g.filters
  links : f.links = g.links

end Finding

namespace Session

variable {s : Session} {entity : String} {o : FindOptions} {caller : Caller} {t : List Exchange}

/-- A find reads its rows and attaches to them what is linked to them. -/
theorem exists_finding {rows : List Row} (h : (s.find entity o caller).Runs t (.ok rows)) :
    ∃ (f : Finding) (before after : List Exchange), t = before ++ after ∧
      f.Of s entity o caller before ∧
      (Linked.populate s f.object f.rows o.populate o.minimal).Runs after (.ok rows) := by
  obtain ⟨catalog, t₁, rfl, h₁⟩ := Program.Runs.catalog_bind_iff.1 h
  obtain ⟨e, hobject, h₂⟩ := Program.Runs.ofResult_bind_ok.1 h₁
  obtain ⟨reducing, t₃, c, rfl, hreduce, h₃⟩ := Program.Runs.bind_ok.1 h₂
  obtain ⟨filtering, t₄, filters, rfl, hfilters, h₄⟩ := Program.Runs.bind_ok.1 h₃
  obtain ⟨compiling, t₅, statement, rfl, hselect, h₅⟩ := Program.Runs.bind_ok.1 h₄
  obtain ⟨read, after, found, rfl, hread, hpopulate⟩ := Program.Runs.bind_ok.1 h₅
  obtain ⟨links, rfl, hresult⟩ := Program.Runs.withLinks_iff.1 hselect
  -- The condition is reduced with the catalog as it is read then.
  obtain ⟨catalog', e', sight, nodes, seeing, v, rfl, hnarrowed, hsight, hnodes, rfl⟩ :=
    runs_reduce.1 hreduce
  let f : Finding := ⟨catalog, e, e', filters, links, sight, nodes, statement, found⟩
  let front : List Exchange := [⟨.catalog, catalog⟩, ⟨.catalog, catalog'⟩]
  let compiling : List Exchange := ⟨.links, links⟩ ::
    (findSelect (f.env s caller) e o (substituted (f.merged o) nodes)).events.map Event.exchange
  refine ⟨f, front ++ (seeing ++ (v ++ (filtering ++ (compiling ++ read)))), after, ?_,
    ⟨by simp [front, f], hobject, ⟨seeing, ?_, hsight⟩,
      ⟨catalog', v, by simp [front], hnarrowed, ?_, hnodes⟩, ⟨filtering, ?_, hfilters⟩,
      by simp [compiling, f], hresult.symm, ⟨read, ?_, Program.Runs.fetch_ok hread⟩⟩, hpopulate⟩
  · simp only [front, compiling, List.append_assoc, List.cons_append, List.nil_append]
    rfl
  · exact ⟨front, v ++ (filtering ++ (compiling ++ read)), by simp⟩
  · exact ⟨front ++ seeing, filtering ++ (compiling ++ read), by simp⟩
  · exact ⟨front ++ seeing ++ v, compiling ++ read, by simp⟩
  · exact ⟨front ++ seeing ++ v ++ filtering ++ compiling, by simp⟩

end Session

/-- The answers of a steady tenant in which every user has one role with the scopes of some rows. -/
def Request.underScopes (d : Directory) (catalog : Catalog) (scopes : List Row)
    (rows : Sql.Select → List Row) : (r : Request) → r.Answer :=
  Request.steady catalog (LinkMap.ofCatalog {} catalog) fun read =>
    if read.source.table = d.tables.users then [[("isActive", .bool true)]]
    else if read.source.table = d.tables.roles then [[("uuid", .str "r1")]]
    else if read.source.table = d.tables.scopes then scopes
    else rows read

namespace Finding

variable {s : Session} {entity : String} {o : FindOptions} {caller : Caller}

/-- A find runs as its parts do, one after the other. -/
theorem exists_runs {f : Finding} {seeing resolving filtering read after : List Exchange}
    {rows : List Row} (hobject : f.catalog.entity entity = .ok f.object)
    (hnarrowed : f.narrowed = f.object) (hsight : (s.sight caller).Runs seeing (.ok f.sight))
    (hnodes : ((occurrences (f.merged o)).mapM fun x =>
      placeholder ⟨s, f.catalog, caller, f.sight⟩
        (expansion ⟨s, f.catalog, caller, f.sight⟩ f.catalog.storedFilters []) f.narrowed x.1).Runs
      resolving (.ok f.nodes))
    (hfilters : (s.formulaFilters f.catalog f.object o caller).Runs filtering (.ok f.filters))
    (hstatement : (findSelect (f.env s caller) f.object o (substituted (f.merged o) f.nodes)).result =
      .ok f.statement)
    (hread : (s.fetch f.statement).Runs read (.ok f.rows))
    (hpopulate : (Linked.populate s f.object f.rows o.populate o.minimal).Runs after (.ok rows)) :
    ∃ before, f.Of s entity o caller before ∧
      (s.find entity o caller).Runs (before ++ after) (.ok rows) := by
  let asked : Exchange := ⟨.catalog, f.catalog⟩
  let compiling : List Exchange := ⟨.links, f.links⟩ ::
    (findSelect (f.env s caller) f.object o (substituted (f.merged o) f.nodes)).events.map
      Event.exchange
  have hreduce : (reduce s entity o.condition caller).Runs (asked :: (seeing ++ resolving))
      (.ok (substituted (f.merged o) f.nodes)) :=
    runs_reduce.2 ⟨f.catalog, f.narrowed, f.sight, f.nodes, seeing, resolving, rfl,
      hnarrowed ▸ hobject, hsight, hnodes, rfl⟩
  have hselect : (Program.withLinks fun links => findSelect (s.env f.catalog links caller f.filters)
      f.object o (substituted (f.merged o) f.nodes)).Runs compiling (.ok f.statement) :=
    Program.Runs.withLinks_iff.2 ⟨f.links, rfl, hstatement.symm⟩
  -- What the parts send stands one after the other, and the reading of the links comes last.
  refine ⟨asked :: asked :: (seeing ++ resolving) ++ (filtering ++ (compiling ++ read)),
    { catalog := by simp [asked]
      object := hobject
      sight := ⟨seeing, ⟨[asked, asked], resolving ++ (filtering ++ (compiling ++ read)), by simp⟩,
        hsight⟩
      nodes := ⟨f.catalog, resolving, by simp [asked], hnarrowed ▸ hobject,
        ⟨asked :: asked :: seeing, filtering ++ (compiling ++ read), by simp⟩, hnodes⟩
      filters := ⟨filtering, ⟨asked :: asked :: (seeing ++ resolving), compiling ++ read, by simp⟩,
        hfilters⟩
      links := by simp [compiling]
      statement := hstatement
      read := ⟨read, ⟨asked :: asked :: (seeing ++ resolving) ++ (filtering ++ compiling), by simp⟩,
        Program.Runs.fetch_ok hread⟩ }, ?_⟩
  refine Program.Runs.catalog_bind_iff.2 ⟨f.catalog,
    asked :: (seeing ++ resolving) ++ (filtering ++ (compiling ++ (read ++ after))),
    by simp [asked], Program.Runs.ofResult_bind_ok.2 ⟨f.object, hobject, ?_⟩⟩
  exact Program.Runs.bind_ok.2 ⟨_, _, _, rfl, hreduce, Program.Runs.bind_ok.2
    ⟨_, _, _, rfl, hfilters, Program.Runs.bind_ok.2 ⟨_, _, _, rfl, hselect,
      Program.Runs.bind_ok.2 ⟨_, _, _, rfl, hread, hpopulate⟩⟩⟩⟩

/-- What a find goes by when its requests are answered by a function. -/
theorem exists_of_answers (answer : (r : Request) → r.Answer) {f : Finding} {rows : List Row}
    (hobject : f.catalog.entity entity = .ok f.object) (hnarrowed : f.narrowed = f.object)
    (hsight : ((s.sight caller).transcript answer).2 = .ok f.sight)
    (hnodes : (((occurrences (f.merged o)).mapM fun x =>
      placeholder ⟨s, f.catalog, caller, f.sight⟩
        (expansion ⟨s, f.catalog, caller, f.sight⟩ f.catalog.storedFilters []) f.narrowed
          x.1).transcript answer).2 = .ok f.nodes)
    (hfilters : ((s.formulaFilters f.catalog f.object o caller).transcript answer).2 = .ok f.filters)
    (hstatement : (findSelect (f.env s caller) f.object o (substituted (f.merged o) f.nodes)).result =
      .ok f.statement)
    (hread : ((s.fetch f.statement).transcript answer).2 = .ok f.rows)
    (hpopulate :
      ((Linked.populate s f.object f.rows o.populate o.minimal).transcript answer).2 = .ok rows) :
    ∃ before after, f.Of s entity o caller before ∧
      (s.find entity o caller).Runs (before ++ after) (.ok rows) := by
  obtain ⟨before, hof, hruns⟩ := exists_runs hobject hnarrowed (.of_transcript hsight)
    (.of_transcript hnodes) (.of_transcript hfilters) hstatement (.of_transcript hread)
    (.of_transcript hpopulate)
  exact ⟨before, _, hof, hruns⟩

end Finding

end CatalogQuery
