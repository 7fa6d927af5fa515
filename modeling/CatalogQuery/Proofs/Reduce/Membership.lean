import CatalogQuery.Proofs.Compile.Connections
import CatalogQuery.Proofs.Compile.Levels
import CatalogQuery.Proofs.Json.Text
import CatalogQuery.Proofs.Link.Mirror
import CatalogQuery.Proofs.Reduce.Scopes
import CatalogQuery.Proofs.Session.Exchanges

/-!
# Membership in a stored query

A rule that a connection leads into a stored query becomes a rule on the column that the link is known
by, with keys that were read. Main statement: it lets through the rows that have a linked row in the
query, and so does a rule that carries the query's condition as its filter.
-/

namespace CatalogQuery

open Sql

/-! ## Keys that are read -/

section

variable {cells : List (Option String)} {rows : List Row}

/-- Whether no text among some cells is the call of a function. -/
def NoCalls (cells : List (Option String)) : Prop := ∀ s, some s ∈ cells → isCall s.toList = false

/-- The values that rows with one cell each show. -/
def shownValues (rows : List Row) : List Json :=
  (rows.filterMap fun row => row.head?.map (·.2)).filter (!·.isNull)

theorem shownValues_cons {cell : Option String} {row : Row} (h : ShowsCell cell row)
    (hcall : ∀ s, cell = some s → isCall s.toList = false) :
    (cell = none ∧ shownValues (row :: rows) = shownValues rows) ∨
      ∃ v, IsLiteral v ∧ cell = some v.plain ∧ shownValues (row :: rows) = v :: shownValues rows := by
  obtain ⟨called, v, rfl, hshows⟩ := h
  cases v with
  | null => exact .inl ⟨hshows, rfl⟩
  | str s => exact .inr ⟨.str s, hcall s hshows, hshows, rfl⟩
  | num n => exact .inr ⟨.num n, trivial, hshows, rfl⟩
  | bool | arr | obj => cases hshows

theorem shownValues_spec (h : List.Forall₂ ShowsCell cells rows) (hcalls : NoCalls cells) :
    (∀ v ∈ shownValues rows, IsLiteral v) ∧
      ∀ s, s ∈ (shownValues rows).map Json.plain ↔ some s ∈ cells := by
  induction h with
  | nil => simp [shownValues]
  | cons hcell _ ih =>
    obtain ⟨hliteral, hmem⟩ := ih fun s hs => hcalls s (List.mem_cons_of_mem _ hs)
    have hcall (s : String) (hs : _ = some s) : isCall s.toList = false :=
      hcalls s (hs ▸ List.mem_cons_self)
    rcases shownValues_cons hcell hcall with ⟨rfl, heq⟩ | ⟨v, hv, rfl, heq⟩
    · rw [heq]
      exact ⟨hliteral, fun s => by simp [hmem]⟩
    · rw [heq]
      refine ⟨List.forall_mem_cons.2 ⟨hv, hliteral⟩, fun s => ?_⟩
      rw [List.map_cons, List.mem_cons, hmem, List.mem_cons, Option.some.injEq]

/-- The keys of a read are literals, and their texts are those of its cells. -/
theorem firstColumn_spec (h : List.Forall₂ ShowsCell cells rows) (hcalls : NoCalls cells) :
    (∀ k ∈ firstColumn rows, IsLiteral k) ∧
      ∀ s, s ∈ (firstColumn rows).map Json.plain ↔ some s ∈ cells := by
  obtain ⟨hliteral, hmem⟩ := shownValues_spec h hcalls
  refine ⟨fun k hk => hliteral k (Json.mem_of_mem_distinct hk), fun s => ?_⟩
  rw [firstColumn, Json.mem_map_distinct, ← hmem s]
  exact and_iff_right List.not_mem_nil

end

namespace Sql.Dialect

variable {D : Dialect} {keys : List Json}

theorem map_value_literals (hkeys : ∀ k ∈ keys, IsLiteral k) :
    keys.map D.value = (keys.map Json.plain).map some := by
  rw [List.map_map]
  exact List.map_congr_left fun k hk => (hkeys k hk).value D.toEngine

/-- A value is among literals if it is the text of one of them. -/
theorem among_literals (hkeys : ∀ k ∈ keys, IsLiteral k) (v : Option String) :
    D.among v (keys.map D.value) = some true ↔ ∃ s, v = some s ∧ s ∈ keys.map Json.plain := by
  rw [among_eq_true, map_value_literals hkeys]
  exact exists_congr fun s => and_congr_right' (List.mem_map_of_injective fun _ _ => Option.some.inj)

/-- A value is not among literals if it is a text that none of them has, or if there is none. -/
theorem among_literals_false (hkeys : ∀ k ∈ keys, IsLiteral k) (v : Option String) :
    D.among v (keys.map D.value) = some false ↔
      keys = [] ∨ ∃ s, v = some s ∧ s ∉ keys.map Json.plain := by
  rw [among_eq_false, map_value_literals hkeys, List.map_eq_nil_iff, List.map_eq_nil_iff]
  refine or_congr_right (exists_congr fun s => and_congr_right' ?_)
  rw [List.mem_map_of_injective fun _ _ => Option.some.inj]
  exact and_iff_right (by simp)

end Sql.Dialect

namespace Reduce

open Compile

/-- The statement that reads the keys of the rows that a link leads from, for linked rows that pass a
filter. -/
def keySelect (l : Link) (p : Option Predicate) : Select :=
  let found := l.baseKeys ⟨l.targetTable, none, []⟩ l.targetTable
  .plain true [.expr (.column found.1)] found.2.1 p

/-- Rows that show the keys one by one answer the statement that reads them. -/
theorem answersOne_keySelect {D : Dialect} {T : Tables} {l : Link} {p : Option Predicate}
    (texts : List String) (called : String) (h : (keySelect l p).cells D T
      (.column (l.baseKeys ⟨l.targetTable, none, []⟩ l.targetTable).1) = texts.map some) :
    D.AnswersOne T (keySelect l p) (texts.map fun s => [(called, .str s)]) := by
  intro e he
  cases he
  refine ⟨texts.map some, h ▸ List.Perm.refl _, ?_⟩
  rw [List.forall₂_map_left_iff, List.forall₂_map_right_iff, List.forall₂_same]
  exact fun s _ => ⟨called, .str s, rfl, rfl⟩

/-- The keys that are read are those of the rows that have a linked row that passes the filter. -/
theorem keySelect_spec {D : Dialect} {T : Tables} {l : Link} {p : Option Predicate}
    (hp : SameTruth D T l.targetTable l.targetTable p p) (hjunction : l.targetTable ≠ "__junction")
    (hcalls : NoCalls (l.heldKeys T)) {rows : List Row} (hrows : D.AnswersOne T (keySelect l p) rows) :
    (∀ k ∈ firstColumn rows, IsLiteral k) ∧
      ∀ r : Stored, (∃ s, r l.keys.baseColumn = some s ∧ s ∈ (firstColumn rows).map Json.plain) ↔
        ∃ r' ∈ l.rows T r, rowPasses D T l.targetTable p r' = true := by
  obtain ⟨cells, hperm, hshown⟩ := hrows _ rfl
  have hmem (s : String) : some s ∈ cells ↔ ∃ scene ∈ (keySelect l p).source.scenes T Scene.empty,
      filterHolds D T p scene = true ∧
        scene.cell (l.baseKeys ⟨l.targetTable, none, []⟩ l.targetTable).1 = some s :=
    hperm.mem_iff.trans Select.mem_cells
  have hcells : NoCalls cells := by
    intro s hs
    obtain ⟨scene, hscene, -, hcell⟩ := (hmem s).1 hs
    exact hcalls s (hcell ▸ Link.cell_baseKeys_mem l T hscene)
  obtain ⟨hliteral, hkeys⟩ := firstColumn_spec hshown hcells
  refine ⟨hliteral, fun r => Iff.trans ?_ (Link.exists_baseKeys l T _ r hjunction)⟩
  constructor
  · rintro ⟨s, hr, hs⟩
    obtain ⟨scene, hscene, hholds, hcell⟩ := (hmem s).1 ((hkeys s).1 hs)
    rw [hp.passes_left] at hholds
    exact ⟨scene, hscene, hholds, same_eq_true.2 ⟨s, hcell, hr⟩⟩
  · rintro ⟨scene, hscene, hholds, hsame⟩
    obtain ⟨s, hcell, hr⟩ := same_eq_true.1 hsame
    rw [← hp.passes_left] at hholds
    exact ⟨s, hr, (hkeys s).2 ((hmem s).2 ⟨scene, hscene, hholds, hcell⟩)⟩

/-! ## The statement that reads them -/

theorem exists_of_link {env : Env} {e : Entity} {field : String} {l : Link}
    (h : (link env e field).result = .ok l) :
    ∃ m, env.links e.id = .ok m ∧ m.get field = some l := by
  rw [link, Traced.result_bind_ok] at h
  obtain ⟨m, hm, h⟩ := h
  refine ⟨m, hm, ?_⟩
  cases hget : m.get field with
  | none =>
    rw [hget] at h
    cases h
  | some found =>
    rw [hget] at h
    cases h
    rfl

/-- The table of a link that is resolved from the catalog is that of the linked object. -/
theorem targetTable_of_link {ctx : Context} {e target : Entity} {field : String} {l : Link}
    (hl : (link (ctx.env (LinkMap.ofCatalog ctx.session.settings ctx.catalog)) e field).result = .ok l)
    (htarget : ctx.catalog.entity l.target = .ok target) : l.targetTable = target.table := by
  obtain ⟨m, hm, hget⟩ := exists_of_link hl
  have hm : (ctx.catalog.entity e.id).map (fun e => (LinkMap.resolve ctx.session.settings ctx.catalog
    e).1) = .ok m := hm
  cases howner : ctx.catalog.entity e.id with
  | error err =>
    rw [howner] at hm
    cases hm
  | ok owner =>
    rw [howner] at hm
    cases hm
    exact LinkMap.targetTable_of_mem (LinkMap.mem_of_get hget) htarget

section

variable {env : Env} {e target : Entity} {f : Field} {l : Link} {p : Option Predicate}
  {stored : StoredSource} {reduced : Condition}

theorem storedRows_base (hp : (condition env (Frame.base target) reduced).result = .ok p) :
    (storedRows env target [] reduced).result = .ok (⟨target.table, none, []⟩, p) :=
  Traced.result_bind_ok.2 ⟨_, rfl, Traced.result_bind_ok.2 ⟨p, hp, rfl⟩⟩

/-- A connection to the object of a stored filter is compared by what its link is known by. -/
theorem membershipSelect_of_link {r : Rule} (hjoined : r.joined = none) (hfield : e.field r.key = some f)
    (hf : f.isConnection = true) (hl : (link env e f.id).result = .ok l)
    (hentity : stored.entity = l.target) (hjoins : stored.joins = [])
    (htarget : env.catalog.entity l.target = .ok target) (htable : l.targetTable = target.table)
    (hp : (condition env (Frame.base target) reduced).result = .ok p) :
    (membershipSelect env e r stored reduced none).result =
      .ok (keySelect l p, l.keys.baseColumn) := by
  obtain ⟨m, hm, hget⟩ := exists_of_link hl
  have hlink : linkTo e m r.key target.id = some l := by
    rw [linkTo, hfield]
    dsimp only
    rw [if_pos hf, hget, Catalog.id_of_entity htarget]
    simp
  have hrows := storedRows_base hp
  rw [membershipSelect, hentity, hjoins, hjoined]
  refine Traced.result_bind_ok.2 ⟨target, htarget, Traced.result_bind_ok.2 ⟨_, hrows, ?_⟩⟩
  refine Traced.result_bind_ok.2 ⟨m, hm, ?_⟩
  rw [hlink, keySelect, htable, ← Link.baseKeys_base l ⟨target.table, none, []⟩ target.table]
  rfl

end

/-! ## Runs -/

variable {D : Dialect} {T : Tables} {links : Links} {α β : Type} {t : List Exchange} {b : Result β}

/-- Whether a request for links is answered with those and a read with what the tables hold. -/
def Answered (D : Dialect) (T : Tables) (links : Links) : Exchange → Prop
  | ⟨.links, answer⟩ => answer = links
  | ⟨.fetch _ statement, answer⟩ => ∃ rows, answer = .ok rows ∧ D.AnswersOne T statement rows
  | _ => True

theorem exists_of_withLinks {f : Links → Traced α} {g : α → Program β} {a : α}
    (hrun : (Program.withLinks f >>= g).Runs t b) (ht : ∀ x ∈ t, Answered D T links x)
    (ha : (f links).result = .ok a) :
    ∃ u, (g a).Runs u b ∧ ∀ x ∈ u, Answered D T links x := by
  have hlinks {v : List Exchange} {r : Result α} (hv : ∀ x ∈ v, Answered D T links x)
      (h : (Program.withLinks f).Runs v r) : r = .ok a := by
    obtain ⟨known, rfl, rfl⟩ := Program.Runs.withLinks_iff.1 h
    have hknown : known = links := hv ⟨.links, known⟩ List.mem_cons_self
    rw [hknown, ha]
  rcases Program.Runs.bind_iff.1 hrun with ⟨err, hfailed, -⟩ | ⟨t₁, t₂, a', rfl, hfirst, hrest⟩
  · cases hlinks ht hfailed
  · rw [List.forall_mem_append] at ht
    cases hlinks ht.1 hfirst
    exact ⟨t₂, hrest, ht.2⟩

theorem exists_of_fetch {s : Session} {statement : Select} {g : List Row → Program β}
    (hrun : (s.fetch statement >>= g).Runs t b) (ht : ∀ x ∈ t, Answered D T links x) :
    ∃ rows u, D.AnswersOne T statement rows ∧ (g rows).Runs u b ∧ ∀ x ∈ u, Answered D T links x := by
  have hread {v : List Exchange} {r : Result (List Row)} (hv : ∀ x ∈ v, Answered D T links x)
      (h : (s.fetch statement).Runs v r) : ∃ rows, r = .ok rows ∧ D.AnswersOne T statement rows := by
    obtain ⟨answer, ⟨failures, -, -, rfl⟩, rfl⟩ := Program.Runs.fetch h
    obtain ⟨rows, rfl, hrows⟩ := hv ⟨.fetch s.channel statement, answer⟩ (by simp)
    exact ⟨rows, rfl, hrows⟩
  rcases Program.Runs.bind_iff.1 hrun with ⟨err, hfailed, -⟩ | ⟨t₁, t₂, rows, rfl, hfirst, hrest⟩
  · obtain ⟨rows, hrows, -⟩ := hread ht hfailed
    cases hrows
  · rw [List.forall_mem_append] at ht
    obtain ⟨rows', hrows', hanswers⟩ := hread ht.1 hfirst
    cases hrows'
    exact ⟨rows, t₂, hanswers, hrest, ht.2⟩

/-! ## Membership and relation -/

/-- A connection that a key of an object names, with its link and the linked object. -/
structure Connects (env : Env) (e : Entity) (key : String) (f : Field) (l : Link) (target : Entity) :
    Prop where
  owner : e ∈ env.catalog.entities
  named : key ≠ Rule.constantKey
  subject : subject (Frame.base e) key none = .ok (.field e e.table f)
  connection : f.isConnection = true
  link : (link env e f.id).result = .ok l
  target : env.catalog.entity l.target = .ok target

theorem Connects.withFilters {env : Env} {e target : Entity} {key : String} {f : Field} {l : Link}
    (h : Connects env e key f l target) (filters : List (String × Condition)) :
    Connects (env.withFilters filters) e key f l target :=
  ⟨h.owner, h.named, h.subject, h.connection, h.link, h.target⟩

/-- A rule on a connection is compiled as one. -/
theorem Connects.condition_ofRule {env : Env} {e target : Entity} {key : String} {f : Field} {l : Link}
    (h : Connects env e key f l target) {op : RuleOp} (hop : op.isPlaceholder = false) (v : Json) :
    (condition env (Frame.base e) (.ofRule key op v)).result =
      (connectionRule env (within env (formulaLevels env + v.depth)) (Frame.base e) e e.table f
        ⟨key, op, v, none⟩).result := by
  rw [Condition.ofRule, condition_rule]
  refine (rule_of_field hop h.named h.subject).trans ?_
  rw [if_pos h.connection]

/-- Whether names do not get in each other's way: the tables of an object and of the linked object are
not called as statements call those of subqueries, and the column that a link is known by is meant by
its name. -/
structure Clear (env : Env) (e : Entity) (l : Link) (target : Entity) : Prop where
  base : (Frame.base e).Apart
  linked : (Frame.base target).Apart
  junction : target.table ≠ "__junction"
  column : NamesColumn env e l.keys.baseColumn

/-- A stored query on a linked object that stays as it is stored. -/
structure Queried (ctx : Context) (l : Link) (target : Entity) (name : Json) (q : StoredQuery)
    (p : Option Predicate) (links : Links) : Prop where
  query : ctx.catalog.query? name.plain = some q
  entity : q.entity = l.target
  joins : q.joins = []
  sight : ctx.sight.narrow target q.condition = q.condition
  compiled : (condition (ctx.env links) (Frame.base target) q.condition).result = .ok p

section

variable {env : Env} {filters : List (String × Condition)} {e target : Entity} {key : String}
  {f : Field} {l : Link} {p : Option Predicate}

/-- A rule that carries a filter on linked rows lets through the rows that have a linked row that
passes it, or those that have none. -/
theorem exists_relation (hconnects : Connects env e key f l target) (hbase : (Frame.base e).Apart)
    (hlinked : (Frame.base target).Apart) (hfilters : env.StandIn filters) {v : Json}
    (hp : (condition env (Frame.base target) ((relationFilter v).getD .empty)).result = .ok p)
    {op : RuleOp} (hop : isRelational op = true) :
    ∃ q, (condition (env.withFilters filters) (Frame.base e) (.ofRule key op v)).result = .ok (some q) ∧
      ∀ scene : Scene, q.truth D T scene = some ((l.rows T (scene e.table)).any
        (rowPasses D T target.table p) != (op == .haveNoRelation)) := by
  have hlike : (Frame.base target).Like ((Frame.base e).inner target "__r") :=
    ⟨rfl, rfl, rfl, hlinked, (Frame.base e).apart_inner target (by decide)⟩
  have hmem : target ∈ env.catalog.entities := Catalog.mem_of_entity hconnects.target
  -- The filter is compiled where it is carried as it is on the linked object itself.
  have hinner : ∃ p', (narrowed (within (env.withFilters filters)
      (formulaLevels (env.withFilters filters) + v.depth) ((Frame.base e).inner target "__r"))
      (relationFilter v)).result = .ok p' ∧
        SameTruth D T target.table ((Frame.base e).inner target "__r").table p p' := by
    cases hfilter : relationFilter v with
    | none =>
      rw [hfilter] at hp
      have hnone : p = none := by
        have hempty : (condition env (Frame.base target) .empty).result = .ok none := rfl
        exact Except.ok.inj (hp.symm.trans hempty)
      subst hnone
      exact ⟨none, rfl, fun _ _ _ => rfl⟩
    | some d =>
      rw [hfilter, Option.getD_some] at hp
      have hdepth := valueDepth_relationFilter hfilter
      exact exists_within_of_condition hfilters hlike hmem hp (by omega)
  obtain ⟨p', hp', hsame⟩ := hinner
  refine ⟨_, ?_, fun scene => Link.truth_related (hbase "__r" (by decide)).1
    (hbase "__r" (by decide)).2 hsame.passes_right _ scene⟩
  refine ((hconnects.withFilters filters).condition_ofRule (isPlaceholder_of_isRelational hop) v).trans ?_
  exact connectionRule_of_filter hconnects.link hconnects.target hop hp'

end

section

variable {ctx : Context} {e target : Entity} {key : String} {f : Field} {l : Link} {name : Json}
  {q : StoredQuery} {p : Option Predicate} {levels : Nat} {visiting : List String}
  {result : Result Condition}

/-- A rule that a connection leads into a stored query becomes one on the column that the link is known
by, with the keys that were read. -/
theorem exists_of_runs_query
    (hconnects : Connects (ctx.env links) e key f l target) (htable : l.targetTable = target.table)
    (hquery : Queried ctx l target name q p links) (hvisiting : q.id ∉ visiting) {op : RuleOp}
    (hop : op = .inQuery ∨ op = .notInQuery)
    (hrun : (placeholder ctx (expansion ctx (levels + 1) visiting) e ⟨key, op, name, none⟩).Runs t
      result)
    (ht : ∀ x ∈ t, Answered D T links x) :
    ∃ rows, D.AnswersOne T (keySelect l p) rows ∧ result = .ok (.ofRule l.keys.baseColumn
      (if op.isNegative then .notIn else .in) (.arr (firstColumn rows))) := by
  have hsource : (queryNamed ctx.catalog name.plain).result =
      .ok ⟨q.id, q.entity, q.condition, q.joins⟩ := by
    rw [queryNamed, hquery.query]
    rfl
  have hplaceholder : placeholder ctx (expansion ctx (levels + 1) visiting) e ⟨key, op, name, none⟩ =
      (Program.withLinks fun _ => queryNamed ctx.catalog name.plain) >>= fun stored =>
        membership ctx (expansion ctx (levels + 1) visiting) e ⟨key, op, name, none⟩ stored none := by
    rcases hop with rfl | rfl <;> rfl
  rw [hplaceholder] at hrun
  obtain ⟨t₁, hrun, ht⟩ := exists_of_withLinks hrun ht hsource
  -- The condition of the query stays as it is.
  have hresolved := resolved_of_within hquery.compiled
  have hexpand : expansion ctx (levels + 1) visiting ⟨q.id, q.entity, q.condition, q.joins⟩ =
      pure q.condition := by
    have htarget : ctx.catalog.entity q.entity = .ok target := by
      rw [hquery.entity]
      exact hconnects.target
    rw [expansion, if_neg (by simpa using hvisiting), reduceTree_of_entity htarget, hquery.sight,
      resolveAll_of_resolved _ hresolved]
  rw [membership, hexpand, pure_bind] at hrun
  have hselect : (membershipSelect (ctx.env links) e ⟨key, op, name, none⟩
      ⟨q.id, q.entity, q.condition, q.joins⟩ q.condition none).result =
        .ok (keySelect l p, l.keys.baseColumn) :=
    membershipSelect_of_link rfl (field_of_subject hconnects.subject).2 hconnects.connection
      hconnects.link hquery.entity hquery.joins hconnects.target htable hquery.compiled
  obtain ⟨t₂, hrun, ht⟩ := exists_of_withLinks hrun ht hselect
  obtain ⟨rows, t₃, hrows, hrun, -⟩ := exists_of_fetch hrun ht
  exact ⟨rows, hrows, hrun.2⟩

/-- A rule that a connection leads into a stored query asks whether the column that the link is known by
holds one of the keys of the rows with linked rows in the query. -/
theorem exists_membership (filters : List (String × Condition))
    (hconnects : Connects (ctx.env links) e key f l target) (htable : l.targetTable = target.table)
    (hclear : Clear (ctx.env links) e l target) (hquery : Queried ctx l target name q p links)
    (hvisiting : q.id ∉ visiting) (hcalls : NoCalls (l.heldKeys T)) {op : RuleOp}
    (hop : op = .inQuery ∨ op = .notInQuery)
    (hrun : (placeholder ctx (expansion ctx (levels + 1) visiting) e ⟨key, op, name, none⟩).Runs t
      result)
    (ht : ∀ x ∈ t, Answered D T links x) :
    ∃ (keys : List Json) (node : Condition) (read : Predicate), (∀ k ∈ keys, IsLiteral k) ∧
      (∀ r : Stored, (∃ s, r l.keys.baseColumn = some s ∧ s ∈ keys.map Json.plain) ↔
        ∃ r' ∈ l.rows T r, rowPasses D T target.table p r' = true) ∧ result = .ok node ∧
      (condition ((ctx.env links).withFilters filters) (Frame.base e) node).result = .ok (some read) ∧
      ∀ scene : Scene, read.truth D T scene = Truth.negated op.isNegative
        (D.among (scene e.table l.keys.baseColumn) (keys.map D.value)) := by
  obtain ⟨rows, hrows, hresult⟩ :=
    exists_of_runs_query hconnects htable hquery hvisiting hop hrun ht
  have hmem : target ∈ ctx.catalog.entities := Catalog.mem_of_entity hconnects.target
  have hsame : SameTruth D T l.targetTable l.targetTable p p := by
    rw [htable]
    exact sameTruth_of_within ⟨rfl, rfl, rfl, hclear.linked, hclear.linked⟩ hmem hquery.compiled
      hquery.compiled
  obtain ⟨hliterals, hkeys⟩ := keySelect_spec hsame (htable ▸ hclear.junction) hcalls hrows
  rw [htable] at hkeys
  have hoperator : (if op.isNegative then RuleOp.notIn else .in) ∈ keyOperators ∧
      (if op.isNegative then RuleOp.notIn else .in).isNegative = op.isNegative := by
    rcases hop with rfl | rfl <;> decide
  obtain ⟨read, hread, hreads⟩ := exists_condition_of_namesColumn (D := D) (T := T)
    (show NamesColumn ((ctx.env links).withFilters filters) e _ from hclear.column) hoperator.1
    hliterals
  rw [hoperator.2] at hreads
  exact ⟨firstColumn rows, _, read, hliterals, hkeys, hresult, hread, hreads⟩

/-- Membership in a stored query is the relation filter. A rule that a connection leads into a stored
query comes to one on keys that were read, and a rule that carries the query's condition to a test for
linked rows; a row passes the one as it passes the other, if some linked row that satisfies the condition
is linked to it. -/
theorem membership_iff_relation (D : Dialect) (T : Tables) (ctx : Context)
    (filters : List (String × Condition)) (levels : Nat) (visiting : List String) {v : Json} :
    let links := LinkMap.ofCatalog ctx.session.settings ctx.catalog
    let env := ctx.env links
    Connects env e key f l target → Clear env e l target → env.StandIn filters →
    Queried ctx l target name q p links → q.id ∉ visiting →
    q.condition = (relationFilter v).getD .empty → NoCalls (l.heldKeys T) →
    ∀ t result,
      (placeholder ctx (expansion ctx (levels + 1) visiting) e ⟨key, .inQuery, name, none⟩).Runs t
        result →
      (∀ x ∈ t, Answered D T links x) →
      ∃ node read carried, result = .ok node ∧
        (condition (env.withFilters filters) (Frame.base e) node).result = .ok (some read) ∧
        (condition (env.withFilters filters) (Frame.base e) (.ofRule key .haveRelation v)).result =
          .ok (some carried) ∧
        ∀ scene : Scene,
          (read.truth D T scene = some true ↔ carried.truth D T scene = some true) ∧
          (carried.truth D T scene = some true ↔
            ∃ r ∈ l.rows T (scene e.table), rowPasses D T target.table p r = true) := by
  intro links env hconnects hclear hfilters hquery hvisiting hcondition hcalls t result hrun ht
  have htable := targetTable_of_link hconnects.link hconnects.target
  obtain ⟨keys, node, read, hliterals, hkeys, hresult, hread, hreads⟩ :=
    exists_membership filters hconnects htable hclear hquery hvisiting hcalls (.inl rfl) hrun ht
  obtain ⟨carried, hcarried, hcarries⟩ := exists_relation (D := D) (T := T) hconnects hclear.base
    hclear.linked hfilters (hcondition ▸ hquery.compiled)
    (show isRelational .haveRelation = true from rfl)
  refine ⟨node, read, carried, hresult, hread, hcarried, fun scene => ?_⟩
  have hcarried_iff : carried.truth D T scene = some true ↔
      ∃ r ∈ l.rows T (scene e.table), rowPasses D T target.table p r = true := by
    rw [hcarries scene, Option.some.injEq]
    exact (Bool.bne_false _).symm ▸ List.any_eq_true
  refine ⟨?_, hcarried_iff⟩
  rw [hcarried_iff, hreads scene, ← hkeys]
  exact Dialect.among_literals hliterals _

/-- Of two notes one has a red tag. -/
theorem membership_iff_relation_tags :
    let f := Field.new "f" "tags" (.connection (.between "tag" .many .many))
    let note := Entity.new "note" "Note" "NOTE" [f]
    let tag := Entity.new "tag" "Tag" "TAG" [Field.new "n" "name" .text]
    let red : Condition := .ofRule "name" .equals (.str "red")
    let catalog : Catalog := ⟨[note, tag], [⟨"q", "Red", "tag", red, []⟩], []⟩
    let links := LinkMap.ofCatalog {} catalog
    let ctx : Context := ⟨⟨{}, {}, .tenant⟩, catalog, ⟨none, "en", true⟩, .everything⟩
    let junction := "JOINMN_NOTE_TAG_tags"
    let T := Tables.ofCells [("NOTE", [[("uuid", "n1")], [("uuid", "n2")]]),
      ("TAG", [[("uuid", "t1"), ("name", "red")], [("uuid", "t2"), ("name", "blue")]]),
      (junction, [[("NOTE", "n1"), ("TAG", "t1")], [("NOTE", "n2"), ("TAG", "t2")]])]
    let l : Link := ⟨"f", "tags", "tags__relation", .manyToMany, "tag", "TAG", true,
      .junction junction "NOTE" "TAG" "uuid" "uuid"⟩
    let p : Predicate := .compare (.column ⟨"TAG", "name"⟩) .eq (.value (.str "red"))
    let v : Json := .obj [("key", .str "name"), ("rule", .str "equals"), ("value", .str "red")]
    let t : List Exchange := [⟨.links, links⟩, ⟨.links, links⟩, ⟨.consult "note", ()⟩,
      ⟨.fetch .tenant (keySelect l (some p)), .ok [[("__key", .str "n1")]]⟩]
    let node : Condition := .ofRule "uuid" .in (.arr [.str "n1"])
    (placeholder ctx (expansion ctx 1 []) note ⟨"tags", .inQuery, .str "q", none⟩).Runs t (.ok node) ∧
      ∃ read carried, (condition (ctx.env links) (Frame.base note) node).result = .ok (some read) ∧
        (condition (ctx.env links) (Frame.base note) (.ofRule "tags" .haveRelation v)).result =
          .ok (some carried) ∧
        ∀ scene : Scene,
          (read.truth .mute T scene = some true ↔ carried.truth .mute T scene = some true) ∧
          (carried.truth .mute T scene = some true ↔
            ∃ r ∈ l.rows T (scene "NOTE"), rowPasses .mute T "TAG" (some p) r = true) := by
  intro f note tag red catalog links ctx junction T l p v t node
  have hp : (condition (ctx.env links) (Frame.base tag) red).result = .ok (some p) := by
    dsimp only [f, note, tag, red, catalog, links, ctx, p]
    rfl
  have hlink : (link (ctx.env links) note "f").result = .ok l := by
    dsimp only [f, note, tag, red, catalog, links, ctx, l, junction]
    rfl
  have hconnects : Connects (ctx.env links) note "tags" f l tag :=
    ⟨List.mem_cons_self, by decide, rfl, rfl, hlink, rfl⟩
  have hclear : Clear (ctx.env links) note l tag :=
    ⟨by unfold Frame.Apart; decide, by unfold Frame.Apart; decide, by decide, by decide, .inl rfl⟩
  have hqueried : Queried ctx l tag (.str "q") ⟨"q", "Red", "tag", red, []⟩ (some p) links :=
    ⟨rfl, rfl, rfl, rfl, hp⟩
  have hcalls : NoCalls (l.heldKeys T) := by
    have hheld : l.heldKeys T = [some "n1", some "n2"] := rfl
    rw [hheld]
    intro s hs
    rcases List.mem_pair.1 hs with h | h <;> cases h <;> decide
  have hrun : (placeholder ctx (expansion ctx 1 []) note ⟨"tags", .inQuery, .str "q", none⟩).Runs t
      (.ok node) := by
    dsimp only [t, f, note, tag, red, catalog, links, ctx, junction, l, p, node]
    exact ⟨_, _, rfl, _, _, rfl, _, _, rfl, _, _, rfl, rfl, rfl⟩
  have hread : Dialect.mute.AnswersOne T (keySelect l (some p)) [[("__key", .str "n1")]] :=
    answersOne_keySelect ["n1"] "__key" rfl
  have hanswered : ∀ x ∈ t, Answered Dialect.mute T links x := by
    simp only [t, List.forall_mem_cons]
    exact ⟨rfl, rfl, trivial, ⟨_, rfl, hread⟩, by simp⟩
  obtain ⟨node', read, carried, hnode, h⟩ := membership_iff_relation .mute T ctx [] 0 [] (v := v)
    hconnects hclear (standIn_self _) hqueried (by simp) rfl hcalls t (.ok node) hrun hanswered
  cases hnode
  exact ⟨hrun, read, carried, h⟩

/-- The two differ where a field is known by the name of the column that holds the key, and where a
table has the name that a subquery takes. -/
theorem membership_differs :
    let c := Field.new "c" "customer" (.connection (.between "customer" .one .many))
    let shadowed := Entity.new "invoice" "Invoice" "INVOICE" [c, Field.new "customer" "note" .text]
    let captured := Entity.new "invoice" "Invoice" "__r1" [c]
    let customer := Entity.new "customer" "Customer" "CUSTOMER" []
    let ctx (invoice : Entity) : Context := ⟨⟨{}, {}, .tenant⟩,
      ⟨[invoice, customer], [⟨"q", "All", "customer", .empty, []⟩], []⟩, ⟨none, "en", true⟩, .everything⟩
    let links (invoice : Entity) := LinkMap.ofCatalog {} (ctx invoice).catalog
    let row := [("uuid", "i1"), ("customer", "c1")]
    let T := Tables.ofCells
      [("INVOICE", [row]), ("__r1", [row]), ("CUSTOMER", [[("uuid", "c1")]])]
    let node : Condition := .ofRule "customer" .in (.arr [.str "c1"])
    let becomesNode (invoice : Entity) : Prop := ∃ t,
      (placeholder (ctx invoice) (expansion (ctx invoice) 1 []) invoice
        ⟨"c", .inQuery, .str "q", none⟩).Runs t (.ok node) ∧
      ∀ x ∈ t, Answered .mute T (links invoice) x
    let outcome (invoice : Entity) (tree : Condition) : Option Truth :=
      (condition ((ctx invoice).env (links invoice)) (Frame.base invoice) tree).result.toOption.join.map
        fun p => p.truth .mute T (Scene.empty.add invoice.table (row.lookup ·))
    let relation : Condition := .ofRule "c" .haveRelation .null
    (becomesNode shadowed ∧ outcome shadowed node = some none ∧
      outcome shadowed relation = some (some true)) ∧
    becomesNode captured ∧ outcome captured node = some (some true) ∧
      outcome captured relation = some (some false) := by
  intro c shadowed captured customer ctx links row T node becomesNode outcome relation
  let l : Link :=
    ⟨"c", "customer", "customer__relation", .oneToMany, "customer", "CUSTOMER", false, .own "customer" "uuid"⟩
  have hread : Dialect.mute.AnswersOne T (keySelect l none) [[("uuid", .str "c1")]] :=
    answersOne_keySelect ["c1"] "uuid" rfl
  have hanswered (invoice : Entity) : ∀ x ∈ ([⟨.links, links invoice⟩, ⟨.links, links invoice⟩,
      ⟨.consult "invoice", ()⟩, ⟨.fetch .tenant (keySelect l none), .ok [[("uuid", .str "c1")]]⟩] :
        List Exchange), Answered Dialect.mute T (links invoice) x := by
    simp only [List.forall_mem_cons]
    exact ⟨rfl, rfl, trivial, ⟨_, rfl, hread⟩, by simp⟩
  have hruns : becomesNode shadowed ∧ becomesNode captured := by
    dsimp only [becomesNode, node, shadowed, captured, c, customer, ctx, links, l] at hanswered ⊢
    refine ⟨⟨_, ?_, hanswered _⟩, ⟨_, ?_, hanswered _⟩⟩ <;>
      exact ⟨_, _, rfl, _, _, rfl, _, _, rfl, _, _, rfl, rfl, rfl⟩
  refine ⟨⟨hruns.1, ?_, ?_⟩, hruns.2, ?_, ?_⟩
  · rfl
  · decide +kernel
  · rfl
  · decide +kernel

end

end Reduce

end CatalogQuery
