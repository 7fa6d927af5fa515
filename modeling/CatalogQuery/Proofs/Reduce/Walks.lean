import CatalogQuery.Proofs.Reduce.Complements
import CatalogQuery.Proofs.Reduce.EmptyLists
import CatalogQuery.Proofs.Reduce.KeyReads
import CatalogQuery.Proofs.Reduce.Trails

/-!
# Following a chain of links

A rule about the caller's own records follows a chain of links from its end: each read gives the keys by
which the next one asks for the rows before. Main statement: the keys that the walk comes to are those of
the rows from which links along the chain lead to a row that names the caller, and where a read gives no
key nothing more is read.
-/

namespace CatalogQuery

open Sql

/-- What comes before an item that is not in the first part of a list. -/
theorem exists_of_append_eq {α : Type} {t u before after : List α} {x : α} (hx : x ∉ t)
    (h : t ++ u = before ++ x :: after) : ∃ between, before = t ++ between ∧
      u = between ++ x :: after := by
  rcases List.append_eq_append_iff.1 h with ⟨between, hbefore, hu⟩ | ⟨between, ht, hafter⟩
  · exact ⟨between, hbefore, hu⟩
  · cases between with
    | nil => exact ⟨[], by simpa using ht.symm, by simpa using hafter.symm⟩
    | cons y between =>
      obtain ⟨rfl, -⟩ := List.cons.inj hafter
      exact absurd (ht ▸ List.mem_append_right _ List.mem_cons_self) hx

/-- No row is linked to one of no keys. -/
theorem Link.keyTest_nil {D : Dialect} {T : Tables} {l : Link} {target : Entity} {r : Stored} :
    l.keyTest D T target [] r ≠ some true := by
  have hnone (v : Option String) : D.among v [] ≠ some true := by
    intro h
    obtain ⟨s, -, hs⟩ := Dialect.among_eq_true.1 h
    cases hs
  rw [Link.keyTest]
  split
  · exact hnone _
  · simp [hnone]

namespace Reduce

open Compile

/-! ## Keys of rows -/

/-- Whether keys are those that some rows have in a column, of the rows that satisfy `φ`: each key once
and none null. -/
structure KeysOf (rows : List Stored) (column : String) (φ : Stored → Prop) (keys : List Json) :
    Prop where
  literals : ∀ k ∈ keys, IsLiteral k
  distinct : (keys.map Json.plain).Nodup
  mem : ∀ s, s ∈ keys.map Json.plain ↔ ∃ r ∈ rows, r column = some s ∧ φ r

/-- Whether a column tells all rows of a table apart. -/
def TellsApart (rows : List Stored) (column : String) : Prop :=
  ∀ r ∈ rows, r column ≠ none ∧ ∀ r' ∈ rows, r' column = r column → r' = r

section

variable {D : Dialect} {T : Tables} {l : Link} {target : Entity} {keys : List Json}
  {φ : Stored → Prop}

theorem KeysOf.congr {rows : List Stored} {column : String} {ψ : Stored → Prop}
    (h : KeysOf rows column φ keys) (hφ : ∀ r, φ r ↔ ψ r) : KeysOf rows column ψ keys :=
  ⟨h.literals, h.distinct, fun s => (h.mem s).trans (by simp only [hφ])⟩

/-- A row is linked to one with a key that was read if it is linked to one that satisfies `φ`. -/
theorem KeysOf.keyTest (h : KeysOf (T target.table) (l.keys.linkedColumn target) φ keys)
    (htable : l.targetTable = target.table)
    (happart : ∀ foreign source, l.keys = .linked foreign source →
      TellsApart (T target.table) target.keyColumn) (r : Stored) :
    l.keyTest D T target (keys.map D.value) r = some true ↔ ∃ r' ∈ l.rows T r, φ r' := by
  -- Behind a link that is held elsewhere the linked rows are asked for their keys.
  have hlinked (hown : l.isOwn = false) : l.keyTest D T target (keys.map D.value) r = some true ↔
      ∃ r' ∈ l.rows T r, ∃ s, r' (l.keys.linkedColumn target) = some s ∧
        ∃ r'' ∈ T target.table, r'' (l.keys.linkedColumn target) = some s ∧ φ r'' := by
    rw [Link.keyTest, if_neg (by simp [hown]), Option.some.injEq, List.any_eq_true]
    refine exists_congr fun r' => and_congr_right' (beq_iff_eq.trans ?_)
    rw [Dialect.among_literals h.literals]
    exact exists_congr fun s => and_congr_right' (h.mem s)
  cases hkeys : l.keys with
  | own foreign column =>
    rw [hkeys] at h
    rw [Link.keyTest, if_pos (by rw [Link.isOwn, hkeys]), Dialect.among_literals h.literals, hkeys,
      Link.rows, hkeys, htable]
    constructor
    · rintro ⟨s, hs, hmem⟩
      obtain ⟨r', hr', hs', hφ⟩ := (h.mem s).1 hmem
      exact ⟨r', List.mem_filter.2 ⟨hr', same_eq_true.2 ⟨s, hs', hs⟩⟩, hφ⟩
    · rintro ⟨r', hr', hφ⟩
      obtain ⟨hr', hsame⟩ := List.mem_filter.1 hr'
      obtain ⟨s, hs', hs⟩ := same_eq_true.1 hsame
      exact ⟨s, hs, (h.mem s).2 ⟨r', hr', hs', hφ⟩⟩
  | linked foreign source =>
    rw [hlinked (by rw [Link.isOwn, hkeys])]
    have hrow {r' : Stored} (hr' : r' ∈ l.rows T r) : r' ∈ T target.table := by
      rw [Link.rows, hkeys, htable] at hr'
      exact List.mem_of_mem_filter hr'
    rw [hkeys, LinkKeys.linkedColumn]
    constructor
    · rintro ⟨r', hr', s, hs, r'', hr'', hs'', hφ⟩
      have heq := (happart foreign source hkeys r' (hrow hr')).2 r'' hr'' (hs''.trans hs.symm)
      exact ⟨r', hr', heq ▸ hφ⟩
    · rintro ⟨r', hr', hφ⟩
      obtain ⟨s, hs⟩ := Option.ne_none_iff_exists'.1 (happart foreign source hkeys r' (hrow hr')).1
      exact ⟨r', hr', s, hs, r', hrow hr', hs, hφ⟩
  | junction table sourceColumn targetColumn source column =>
    rw [hlinked (by rw [Link.isOwn, hkeys]), hkeys, LinkKeys.linkedColumn, Link.rows, hkeys, htable]
    simp only [List.mem_flatMap, List.mem_filter, Bool.and_eq_true]
    constructor
    · rintro ⟨r', ⟨j, hj, hr', hsame, hsource⟩, s, hs, r'', hr'', hs'', hφ⟩
      -- The junction pairs the row with all linked rows that have the key.
      rw [hs, ← hs''] at hsame
      exact ⟨r'', ⟨j, hj, hr'', hsame, hsource⟩, hφ⟩
    · rintro ⟨r', ⟨j, hj, hr', hsame, hsource⟩, hφ⟩
      obtain ⟨s, hs, -⟩ := same_eq_true.1 hsame
      exact ⟨r', ⟨j, hj, hr', hsame, hsource⟩, s, hs, r', hr', hs, hφ⟩

end

/-! ## A hop -/

/-- The read of a key of the rows of an object that pass a test. -/
def hopRead (e : Entity) (key : String) (p : Option Predicate) : Select :=
  .plain true [.expr (.column ⟨e.table, key⟩)] ⟨e.table, none, []⟩ (some (p.getD (.constant true)))

/-- What is asked for at a hop: the caller at the end of a chain, before that the keys read last. -/
def hopTest (e : Entity) (username : String) (hop : Hop) (keys : List Json) : Condition :=
  match hop.next with
  | none => (userMatch e username false).getD (Condition.constant false)
  | some field => Condition.inList field keys

section

variable {D : Dialect} {T : Tables} {env : Env} {e : Entity} {startKey username key : String}
  {before : Option Hop} {hop : Hop} {keys : List Json} {p : Option Predicate}

theorem hopSelect_eq (he : env.catalog.entity hop.entity = .ok e)
    (hkey : (hopKey env startKey before e).result = .ok key)
    (hp : (condition env (Frame.base e) (hopTest e username hop keys)).result = .ok p) :
    (hopSelect env startKey username before hop keys).result = .ok (hopRead e key p) := by
  refine Traced.result_bind_ok.2 ⟨e, he, Traced.result_bind_ok.2 ⟨key, hkey, ?_⟩⟩
  exact Traced.result_bind_ok.2 ⟨p, hp, rfl⟩

theorem hopKey_after (startKey : String) {entity : String} {m : LinkMap} {l : Link}
    (hm : env.links entity = .ok m) (hl : m.get l.field = some l) (next : Entity) :
    (hopKey env startKey (some ⟨entity, some l.field⟩) next).result = .ok (l.keys.linkedColumn next) := by
  refine Traced.result_bind_ok.2 ⟨m, hm, ?_⟩
  dsimp only [Option.getD_some]
  rw [hl]
  rfl

theorem keysOf_read {rows : List Row} (hrows : D.AnswersOne T (hopRead e key p) rows)
    (hcalls : NoCalls ((T e.table).map (· key))) :
    KeysOf (T e.table) key (fun r => rowPasses D T e.table p r = true) (firstColumn rows) := by
  obtain ⟨cells, hperm, hshown⟩ := hrows _ rfl
  have hfilter (scene : Scene) : filterHolds D T (hopRead e key p).filter scene =
      filterHolds D T p scene := by
    cases p <;> rfl
  have hmem (s : String) : some s ∈ cells ↔
      ∃ r ∈ T e.table, r key = some s ∧ rowPasses D T e.table p r = true := by
    rw [hperm.mem_iff, Select.mem_cells]
    simp only [hfilter]
    constructor
    · rintro ⟨scene, hscene, hholds, hcell⟩
      obtain ⟨r, hr, rfl⟩ := List.mem_map.1 hscene
      exact ⟨r, hr, (congrFun (Scene.add_self ..) key).symm.trans hcell, hholds⟩
    · rintro ⟨r, hr, hs, hpasses⟩
      exact ⟨_, List.mem_map_of_mem hr, hpasses, (congrFun (Scene.add_self ..) key).trans hs⟩
  have hnocalls : NoCalls cells := by
    intro s hs
    obtain ⟨r, hr, hkey, -⟩ := (hmem s).1 hs
    exact hcalls s (hkey ▸ List.mem_map_of_mem hr)
  obtain ⟨hliterals, htexts⟩ := firstColumn_spec hshown hnocalls
  exact ⟨hliterals, Json.nodup_map_distinct .., fun s => (htexts s).trans (hmem s)⟩

end

/-! ## The walk -/

/-- Whether links along the hops of a chain lead from a row to one that passes. -/
def Reaches (env : Env) (T : Tables) (passes : Stored → Prop) : List Hop → Stored → Prop
  | [], r => passes r
  | hop :: hops, r => ∃ m l, env.links hop.entity = .ok m ∧ m.get (hop.next.getD "") = some l ∧
      ∃ r' ∈ l.rows T r, Reaches env T passes hops r'

theorem reaches_cons {env : Env} {T : Tables} {passes : Stored → Prop} {entity : String} {m : LinkMap}
    {l : Link} (hm : env.links entity = .ok m) (hl : m.get l.field = some l) (hops : List Hop)
    (r : Stored) : Reaches env T passes (⟨entity, some l.field⟩ :: hops) r ↔
      ∃ r' ∈ l.rows T r, Reaches env T passes hops r' := by
  refine ⟨?_, fun h => ⟨m, l, hm, hl, h⟩⟩
  rintro ⟨m', l', hm', hl', h⟩
  cases hm.symm.trans hm'
  cases hl.symm.trans hl'
  exact h

/-- On given tables it can be computed whether links lead to a row that passes. -/
instance Reaches.decidable (env : Env) (T : Tables) (passes : Stored → Prop) [DecidablePred passes] :
    ∀ (hops : List Hop) (r : Stored), Decidable (Reaches env T passes hops r)
  | [], r => inferInstanceAs (Decidable (passes r))
  | hop :: hops, r =>
    have := Reaches.decidable env T passes hops
    match hm : env.links hop.entity with
    | .error _ => .isFalse fun ⟨_, _, h, _⟩ => by cases hm.symm.trans h
    | .ok m =>
      match hl : m.get (hop.next.getD "") with
      | none => .isFalse fun ⟨_, _, h, h', _⟩ => by
          cases hm.symm.trans h
          cases hl.symm.trans h'
      | some l => decidable_of_iff (∃ r' ∈ l.rows T r, Reaches env T passes hops r')
          ⟨fun h => ⟨m, l, hm, hl, h⟩, fun ⟨_, _, h, h', hrows⟩ => by
            cases hm.symm.trans h
            cases hl.symm.trans h'
            exact hrows⟩

/-- Whether the connection of a hop is known by its id, its object does not go by the name of a table in
a subquery, and the key that is read behind it tells linked rows apart and is no call. -/
structure ClearHop (T : Tables) (e : Entity) (l : Link) (next : Entity) : Prop where
  ids : (e.fields.map Field.id).Nodup
  named : l.field ∉ [Rule.constantKey, Rule.selfKey, e.keyColumn]
  apart : l.isOwn = false → (Frame.base e).Apart
  tells : ∀ foreign source, l.keys = .linked foreign source →
    TellsApart (T next.table) next.keyColumn
  calls : NoCalls ((T next.table).map (· (l.keys.linkedColumn next)))

/-- Whether all hops of a chain are clear. -/
def ClearTrail (env : Env) (T : Tables) (hops : List Hop) : Prop :=
  ∀ hop ∈ hops, ∀ e l next, env.catalog.entity hop.entity = .ok e → Leads env e l next →
    hop.next = some l.field → ClearHop T e l next

/-- The hops of a chain, each with the one before it. -/
def withBefore : Option Hop → List Hop → List (Option Hop × Hop)
  | _, [] => []
  | before, hop :: rest => (before, hop) :: withBefore (some hop) rest

theorem backwards_eq (path : List Hop) : backwards path = (withBefore none path).reverse := by
  have hzip (before : Option Hop) : (before :: path.map some).zip path = withBefore before path := by
    induction path generalizing before with
    | nil => rfl
    | cons hop rest ih =>
      rw [withBefore, ← ih (some hop)]
      rfl
  rw [backwards, hzip]

section

variable {D : Dialect} {T : Tables} {ctx : Context} {e next last : Entity} {l : Link}

/-- A clear connection is known by its id. -/
theorem Leads.connects {links : Links}
    (hknown : links = LinkMap.ofCatalog ctx.session.settings ctx.catalog)
    (h : Leads (ctx.env links) e l next) (he : ctx.catalog.entity e.id = .ok e)
    (hclear : ClearHop T e l next) : (∃ f, Connects (ctx.env links) e l.field f l next) ∧
      l.targetTable = next.table ∧ ∃ m, links e.id = .ok m ∧ m.get l.field = some l := by
  obtain ⟨m, hm, hl, hnext⟩ := h
  have hm : links e.id = .ok m := hm
  have hresolved : links e.id = .ok (LinkMap.resolve ctx.session.settings ctx.catalog e).1 := by
    rw [hknown, LinkMap.ofCatalog, he]
    rfl
  cases hm.symm.trans hresolved
  obtain ⟨f, hf, c, hc, hlink⟩ := LinkMap.mem_resolve.1 hl
  have hid := Link.field_ofField hlink
  have hget := LinkMap.get_resolve hclear.ids hf hc hlink
  obtain ⟨hconstant, hself, hkey⟩ : l.field ≠ Rule.constantKey ∧ l.field ≠ Rule.selfKey ∧
      l.field ≠ e.keyColumn := by simpa using hclear.named
  have hfield : e.field l.field = some f := by
    rw [Entity.field, hid, Entity.fieldById_of_mem hclear.ids hf]
  rw [← hid] at hget
  refine ⟨⟨f, Catalog.mem_of_entity he, hconstant, ?_, ?_, ?_, hnext⟩,
    LinkMap.targetTable_of_mem hl hnext, _, hm, hget⟩
  · rw [subject, owner]
    dsimp only [Frame.base]
    rw [subjectOf, if_neg (not_or.2 ⟨hself, hkey⟩), hfield]
  · rw [Field.isConnection, hc]
    rfl
  · refine Traced.result_bind_ok.2 ⟨_, hm, ?_⟩
    rw [← hid, hget]
    rfl

variable {links : Links} {startKey username key : String} {before : Option Hop} {keys : List Json}
  {p : Option Predicate} {rest : List (Option Hop × Hop)} {t : List Exchange}
  {result : Result (List Json)}

/-- A hop of a walk reads the keys of the rows that pass its test; the walk goes on unless there is none. -/
theorem keysOf_hop {hop : Hop} (he : ctx.catalog.entity hop.entity = .ok e)
    (hkey : (hopKey (ctx.env links) startKey before e).result = .ok key)
    (hp : (condition (ctx.env links) (Frame.base e) (hopTest e username hop keys)).result = .ok p)
    (hcalls : NoCalls ((T e.table).map (· key)))
    (hrun : (walk ctx.session ctx.env startKey username ((before, hop) :: rest) keys).Runs t result)
    (ht : ∀ x ∈ t, Answered D T links x) :
    ∃ found, KeysOf (T e.table) key (fun r => rowPasses D T e.table p r = true) found ∧
      (found = [] ∧ result = .ok [] ∨
        ∃ u, (walk ctx.session ctx.env startKey username rest found).Runs u result ∧
          ∀ x ∈ u, Answered D T links x) := by
  rw [walk] at hrun
  obtain ⟨t₁, hrun, ht⟩ := exists_of_withLinks hrun ht (hopSelect_eq he hkey hp)
  obtain ⟨rows, u, hrows, hrun, hu⟩ := exists_of_fetch hrun ht
  refine ⟨_, keysOf_read hrows hcalls, ?_⟩
  dsimp only at hrun
  split at hrun
  · rename_i hempty
    have hnone := List.isEmpty_iff.1 hempty
    rw [hnone] at hrun
    exact .inl ⟨hnone, hrun.2⟩
  · exact .inr ⟨u, hrun, hu⟩

/-- What a walk along a chain from its end reads at the beginning are the keys of the rows from which the
chain leads to a row that passes. The induction is on the chain, and what is left of the walk is what lies
before the chain. -/
theorem keysOf_walk (hknown : links = LinkMap.ofCatalog ctx.session.settings ctx.catalog)
    {hops : List Hop} (htrail : Trail (ctx.env links) e hops last)
    (hp : (condition (ctx.env links) (Frame.base last)
      ((userMatch last username false).getD (Condition.constant false))).result = .ok p) :
    ctx.catalog.entity e.id = .ok e → ClearTrail (ctx.env links) T hops →
    ∀ {before : Option Hop} {key : String},
      (hopKey (ctx.env links) startKey before e).result = .ok key → NoCalls ((T e.table).map (· key)) →
    ∀ {rest : List (Option Hop × Hop)} {keys : List Json} {t : List Exchange},
      (walk ctx.session ctx.env startKey username
        ((withBefore before (hops ++ [⟨last.id, none⟩])).reverse ++ rest) keys).Runs t result →
      (∀ x ∈ t, Answered D T links x) →
      ∃ found, KeysOf (T e.table) key
          (Reaches (ctx.env links) T (fun r => rowPasses D T last.table p r = true) hops) found ∧
        (found = [] ∧ result = .ok [] ∨
          ∃ u, (walk ctx.session ctx.env startKey username rest found).Runs u result ∧
            ∀ x ∈ u, Answered D T links x) := by
  induction htrail with
  | @nil last =>
    intro he _ before key hkey hcalls rest keys t hrun ht
    have hrun : (walk ctx.session ctx.env startKey username ((before, ⟨last.id, none⟩) :: rest)
      keys).Runs t result := hrun
    have htest : (condition (ctx.env links) (Frame.base last)
      (hopTest last username ⟨last.id, none⟩ keys)).result = .ok p := hp
    exact keysOf_hop he hkey htest hcalls hrun ht
  | @cons e next last l hops hl htail ih =>
    intro he hclear before key hkey hcalls rest keys t hrun ht
    have hhop := hclear _ List.mem_cons_self e l next he hl rfl
    obtain ⟨⟨f, hconnects⟩, htable, m, hm, hget⟩ := hl.connects hknown he hhop
    have hnext : ctx.catalog.entity next.id = .ok next := by
      rw [Catalog.id_of_entity hconnects.target]
      exact hconnects.target
    have hnextKey : (hopKey (ctx.env links) startKey (some ⟨e.id, some l.field⟩) next).result =
        .ok (l.keys.linkedColumn next) := hopKey_after startKey hm hget next
    have hclear' : ClearTrail (ctx.env links) T hops :=
      fun hop hmem => hclear hop (List.mem_cons_of_mem _ hmem)
    rw [List.cons_append, withBefore, List.reverse_cons, List.append_assoc, List.singleton_append] at hrun
    obtain ⟨behind, hbehind, hgoes⟩ := ih hp hnext hclear' hnextKey hhop.calls hrun ht
    -- The keys behind ask for the rows that are linked to theirs.
    obtain ⟨q, hq, htruth⟩ := exists_keyRule_of_apart (D := D) (T := T) hconnects hhop.apart
      (show RuleOp.in ∈ keyOperators by decide) (.arr behind)
    have hpasses (r : Stored) : rowPasses D T e.table (some q) r = true ↔
        Reaches (ctx.env links) T (fun r => rowPasses D T last.table p r = true)
          (⟨e.id, some l.field⟩ :: hops) r := by
      rw [rowPasses, filterHolds, beq_iff_eq, htruth, Scene.add_self, linkedKeys_literals hbehind.literals]
      exact (hbehind.keyTest htable hhop.tells r).trans (reaches_cons hm hget hops r).symm
    rcases hgoes with ⟨hnone, hresult⟩ | ⟨u, hrun, hu⟩
    · -- No key behind: no row leads on.
      refine ⟨[], ⟨by simp, by simp, fun s => ⟨by simp, ?_⟩⟩, .inl ⟨rfl, hresult⟩⟩
      rintro ⟨r, -, -, hreaches⟩
      have hpass := (hpasses r).2 hreaches
      rw [rowPasses, filterHolds, beq_iff_eq, htruth, linkedKeys_literals hbehind.literals, hnone] at hpass
      exact (Link.keyTest_nil hpass).elim
    · have htest : (condition (ctx.env links) (Frame.base e)
          (hopTest e username ⟨e.id, some l.field⟩ behind)).result = .ok (some q) := hq
      obtain ⟨found, hfound, hrest⟩ := keysOf_hop he hkey htest hcalls hrun hu
      exact ⟨found, hfound.congr hpasses, hrest⟩

end

section

variable {s : Session} {envOf : Links → Env} {startKey username : String}

theorem not_mem_failures (channel channel' : Channel) (select select' : Select) (rows : List Row)
    (failures : List DatabaseFailure) : (⟨.fetch channel select, .ok rows⟩ : Exchange) ∉
      failures.map fun f => ⟨.fetch channel' select', .error f⟩ := by
  intro hmem
  obtain ⟨failure, -, hfailure⟩ := List.mem_map.1 hmem
  cases hfailure

theorem fetch_not_mem_of_quiet {t : List Exchange} (h : Exchange.Quiet t) {channel : Channel}
    {select : Select} {answer : Except DatabaseFailure (List Row)} :
    (⟨.fetch channel select, answer⟩ : Exchange) ∉ t := fun hmem => h _ hmem

/-- A walk ends where a read gives no key. The induction is on the hops that are left. -/
theorem stops_of_walk {steps : List (Option Hop × Hop)} {keys : List Json} {t : List Exchange}
    {result : Result (List Json)}
    (h : (walk s envOf startKey username steps keys).Runs t result) {before after : List Exchange}
    {channel : Channel} {select : Select} {rows : List Row}
    (ht : t = before ++ ⟨.fetch channel select, .ok rows⟩ :: after) (hnone : firstColumn rows = []) :
    after = [] ∧ result = .ok [] := by
  induction steps generalizing keys t before with
  | nil =>
    obtain ⟨rfl, -⟩ := h
    simp at ht
  | cons step rest ih =>
    obtain ⟨earlier, hop⟩ := step
    rw [walk] at h
    rcases Program.Runs.bind_iff.1 h with ⟨e, hselect, -⟩ | ⟨t₁, t', statement, rfl, hselect, h⟩
    · rw [ht] at hselect
      exact absurd (List.mem_append_right _ List.mem_cons_self)
        (fetch_not_mem_of_quiet (Program.Silent.withLinks.quiet hselect))
    obtain ⟨between, -, rfl⟩ :=
      exists_of_append_eq (fetch_not_mem_of_quiet (Program.Silent.withLinks.quiet hselect)) ht
    rcases Program.Runs.bind_iff.1 h with ⟨e, hread, -⟩ | ⟨t₂, t₃, found, htail, hread, h⟩
    · obtain ⟨answer, ⟨failures, -, -, hreads⟩, hresult⟩ := Program.Runs.fetch hread
      have hmem : (⟨.fetch channel select, .ok rows⟩ : Exchange) ∈
          between ++ ⟨.fetch channel select, .ok rows⟩ :: after := by simp
      rw [hreads] at hmem
      cases List.mem_singleton.1 ((List.mem_append.1 hmem).resolve_left (not_mem_failures _ _ _ _ _ _))
      cases hresult
    · obtain ⟨answer, ⟨failures, -, -, rfl⟩, hresult⟩ := Program.Runs.fetch hread
      rw [List.append_assoc] at htail
      obtain ⟨last, -, hlast⟩ := exists_of_append_eq (not_mem_failures _ _ _ _ _ _) htail.symm
      dsimp only at h
      -- The read is the one that was answered at this hop, or one of a later hop.
      cases last with
      | nil =>
        obtain ⟨hanswer, rfl⟩ := List.cons.inj hlast
        cases hanswer
        cases hresult
        rw [hnone] at h
        exact h
      | cons x last =>
        obtain ⟨-, htail⟩ := List.cons.inj hlast
        split at h
        · obtain ⟨rfl, -⟩ := h
          simp at htail
        · exact ih h htail

end

/-! ## The chain of a rule -/

/-- The object at which the chain of a rule about the caller's own records starts, and the column that
its keys are of: the object itself with its primary key, or the one that a connection leads to with what
links to it are known by. -/
def StartsAt (env : Env) (e : Entity) (r : Rule) (start : Entity) (startKey : String) : Prop :=
  r.key = Rule.selfKey ∧ start = e ∧ startKey = e.keyColumn ∨
    r.key ≠ Rule.selfKey ∧ ∃ f l, e.field r.key = some f ∧ f.isConnection = true ∧
      (link env e f.id).result = .ok l ∧ env.catalog.entity l.target = .ok start ∧
      startKey = l.keys.linkedColumn start

theorem StartsAt.entity {env : Env} {e start : Entity} {r : Rule} {startKey : String}
    (h : StartsAt env e r start startKey) (he : env.catalog.entity e.id = .ok e) :
    env.catalog.entity start.id = .ok start := by
  rcases h with ⟨-, rfl, -⟩ | ⟨-, f, l, -, -, -, htarget, -⟩
  · exact he
  · rw [Catalog.id_of_entity htarget]
    exact htarget

theorem exists_of_callerRule {env : Env} {e : Entity} {r : Rule} {username startKey : String}
    {path : List Hop}
    (h : (callerRule env (some username) e r).result = .ok (.chain path startKey)) :
    ∃ start, StartsAt env e r start startKey ∧ (userPath env start).result = .ok (some path) := by
  rw [callerRule.eq_def] at h
  dsimp only at h
  by_cases hkey : r.key = Rule.selfKey
  · rw [if_pos hkey] at h
    obtain ⟨found, hpath, h⟩ := Traced.result_bind_ok.1 h
    cases found with
    | none => cases h
    | some found =>
      dsimp only at h
      split at h
      · cases h
      · cases h
        exact ⟨e, .inl ⟨hkey, rfl, rfl⟩, hpath⟩
  · rw [if_neg hkey] at h
    obtain ⟨f, hf, h⟩ := Traced.result_bind_ok.1 h
    split at h
    · cases h
    rename_i hconnection
    obtain ⟨l, hl, h⟩ := Traced.result_bind_ok.1 h
    obtain ⟨start, hstart, h⟩ := Traced.result_bind_ok.1 h
    obtain ⟨found, hpath, h⟩ := Traced.result_bind_ok.1 h
    cases found with
    | none => cases h
    | some found =>
      dsimp only at h
      rw [if_neg fun h => hkey h.2] at h
      cases h
      exact ⟨start, .inr ⟨hkey, f, l, field_of_fieldOf hf, by simpa using hconnection, hl, hstart, rfl⟩,
        hpath⟩

theorem placeholder_sameAsCaller {ctx : Context} {expand : Expand} {e : Entity} {r : Rule}
    (hop : r.op = .sameAsUser ∨ r.op = .notSameAsUser) :
    placeholder ctx expand e r = sameAsCaller ctx e r := by
  rw [placeholder.eq_def]
  rcases hop with h | h <;> rw [h]

theorem listOp_sameAsCaller {op : RuleOp} (hop : op = .sameAsUser ∨ op = .notSameAsUser) :
    (if op == .notSameAsUser then RuleOp.notIn else .in) = listOp op := by
  rcases hop with rfl | rfl <;> rfl

section

variable {ctx : Context} {e : Entity} {r : Rule} {t : List Exchange} {result : Result Condition}

/-- A rule that needs keys becomes one on the keys that the walk along its chain comes to. -/
theorem keysOf_sameAsCaller {D : Dialect} {T : Tables} {username startKey : String} {start last : Entity}
    {hops : List Hop} {p : Option Predicate} :
    let links := LinkMap.ofCatalog ctx.session.settings ctx.catalog
    let env := ctx.env links
    ctx.caller.username = some username → r.op = .sameAsUser ∨ r.op = .notSameAsUser →
    (callerRule env (some username) e r).result = .ok (.chain (hops ++ [⟨last.id, none⟩]) startKey) →
    Trail env start hops last →
    (condition env (Frame.base last)
      ((userMatch last username false).getD (Condition.constant false))).result = .ok p →
    ctx.catalog.entity start.id = .ok start → ClearTrail env T hops →
    NoCalls ((T start.table).map (· startKey)) → (sameAsCaller ctx e r).Runs t result →
    (∀ x ∈ t, Answered D T links x) →
    ∃ keys, result = .ok (.ofRule r.key (listOp r.op) (.arr keys) r.joined) ∧
      KeysOf (T start.table) startKey
        (Reaches env T (fun row => rowPasses D T last.table p row = true) hops) keys := by
  intro links env husername hop hchain htrail hp hstart hclear hcalls hrun ht
  rw [sameAsCaller, husername] at hrun
  obtain ⟨t₁, hrun, ht⟩ := exists_of_withLinks hrun ht hchain
  dsimp only [Option.getD_some] at hrun
  rw [listOp_sameAsCaller hop, backwards_eq] at hrun
  have hkeys {u : List Exchange} {read : Result (List Json)}
      (hwalk : (walk ctx.session ctx.env startKey username
        (withBefore none (hops ++ [⟨last.id, none⟩])).reverse []).Runs u read)
      (hu : ∀ x ∈ u, Answered D T links x) :
      ∃ keys, read = .ok keys ∧ KeysOf (T start.table) startKey
        (Reaches env T (fun row => rowPasses D T last.table p row = true) hops) keys := by
    rw [← List.append_nil (List.reverse _)] at hwalk
    obtain ⟨keys, hkeys, ⟨rfl, hread⟩ | ⟨v, hread, -⟩⟩ :=
      keysOf_walk rfl htrail hp hstart hclear rfl hcalls hwalk hu
    · exact ⟨[], hread, hkeys⟩
    · exact ⟨keys, hread.2, hkeys⟩
  rcases Program.Runs.bind_iff.1 hrun with ⟨err, hwalk, -⟩ | ⟨u, v, keys, rfl, hwalk, hresult⟩
  · obtain ⟨keys, hread, -⟩ := hkeys hwalk ht
    cases hread
  · obtain ⟨keys', hread, hkeys⟩ := hkeys hwalk (List.forall_mem_append.1 ht).1
    cases hread
    exact ⟨keys, hresult.2, hkeys⟩

/-- A rule for which a read gives no key reads nothing more and becomes one on no keys. -/
theorem stops_of_sameAsCaller (hop : r.op = .sameAsUser ∨ r.op = .notSameAsUser)
    (hrun : (sameAsCaller ctx e r).Runs t result) {before after : List Exchange} {channel : Channel}
    {select : Select} {rows : List Row} (ht : t = before ++ ⟨.fetch channel select, .ok rows⟩ :: after)
    (hnone : firstColumn rows = []) :
    after = [] ∧ result = .ok (.ofRule r.key (listOp r.op) (.arr []) r.joined) := by
  rw [sameAsCaller] at hrun
  rcases Program.Runs.bind_iff.1 hrun with ⟨err, hfound, -⟩ | ⟨t₁, t₂, found, rfl, hfound, hrun⟩
  · rw [ht] at hfound
    exact absurd (List.mem_append_right _ List.mem_cons_self)
      (fetch_not_mem_of_quiet (Program.Silent.withLinks.quiet hfound))
  obtain ⟨between, -, rfl⟩ :=
    exists_of_append_eq (fetch_not_mem_of_quiet (Program.Silent.withLinks.quiet hfound)) ht
  cases found with
  | settled c =>
    obtain ⟨hnil, -⟩ := hrun
    simp at hnil
  | chain path' startKey' =>
    dsimp only at hrun
    rw [listOp_sameAsCaller hop] at hrun
    rcases Program.Runs.bind_iff.1 hrun with ⟨err, hwalk, -⟩ | ⟨u, v, keys, hsplit, hwalk, hrun⟩
    · cases (stops_of_walk hwalk rfl hnone).2
    · obtain ⟨rfl, hresult⟩ := hrun
      rw [List.append_nil] at hsplit
      obtain ⟨hafter, hkeys⟩ := stops_of_walk hwalk hsplit.symm hnone
      cases hkeys
      exact ⟨hafter, hresult⟩

end

/-- A rule about the caller's own records that needs keys follows the chain that the search found, and
becomes a rule on keys. These are the keys of the rows at its start from which links along the chain lead
to a row that names the caller, as far as names at its hops do not get in each other's way, linked rows
differ in their primary keys and no key is a call. A read that gives no key is the last, and then none
remain. -/
theorem sameAsCaller_follows (D : Dialect) (T : Tables) (ctx : Context) (expand : Expand) {e : Entity}
    {r : Rule} {username startKey : String} {path : List Hop} :
    let links := LinkMap.ofCatalog ctx.session.settings ctx.catalog
    let env := ctx.env links
    ctx.catalog.entity e.id = .ok e → ctx.caller.username = some username →
    r.op = .sameAsUser ∨ r.op = .notSameAsUser →
    (callerRule env (some username) e r).result = .ok (.chain path startKey) →
    ∃ start hops last, StartsAt env e r start startKey ∧
      (userPath env start).result = .ok (some path) ∧ path = hops ++ [⟨last.id, none⟩] ∧
      Trail env start hops last ∧ last.userFields ≠ [] ∧
      (∀ p, (condition env (Frame.base last)
          ((userMatch last username false).getD (Condition.constant false))).result = .ok p →
        ClearTrail env T hops → NoCalls ((T start.table).map (· startKey)) →
        ∀ t result, (placeholder ctx expand e r).Runs t result →
          (∀ x ∈ t, Answered D T links x) →
          ∃ keys, result = .ok (.ofRule r.key (listOp r.op) (.arr keys) r.joined) ∧
            KeysOf (T start.table) startKey
              (Reaches env T (fun row => rowPasses D T last.table p row = true) hops) keys) ∧
      ∀ t result, (placeholder ctx expand e r).Runs t result →
        ∀ before channel select rows after, t = before ++ ⟨.fetch channel select, .ok rows⟩ :: after →
          firstColumn rows = [] →
          after = [] ∧ result = .ok (.ofRule r.key (listOp r.op) (.arr []) r.joined) := by
  intro links env he husername hop hchain
  obtain ⟨start, hstarts, hpath⟩ := exists_of_callerRule hchain
  have hstart := hstarts.entity he
  obtain ⟨found, hfound, hfinds⟩ : ∃ found, (userPath env start).result = .ok found ∧
    Finds env start found := finds_userPath hstart
  cases hpath.symm.trans hfound
  obtain ⟨hops, last, rfl, hnearest⟩ := hfinds
  refine ⟨start, hops, last, hstarts, hpath, rfl, hnearest.trail, hnearest.owns, ?_, ?_⟩
  · intro p hp hclear hcalls t result hrun ht
    rw [placeholder_sameAsCaller hop] at hrun
    exact keysOf_sameAsCaller husername hop hchain hnearest.trail hp hstart hclear hcalls hrun ht
  · intro t result hrun before channel select rows after ht hnone
    rw [placeholder_sameAsCaller hop] at hrun
    exact stops_of_sameAsCaller hop hrun ht hnone

/-- A database that stays as it is may answer each read by what its tables hold. -/
theorem answered_transcript {α : Type} (p : Program α) (D : Dialect) (T : Tables) (catalog : Catalog)
    (links : Links) : ∀ x ∈ (p.transcript (Request.steady catalog links (D.answerOne T))).1,
      Answered D T links x := by
  intro x hx
  have hanswer := (Program.Runs.iff_transcript.2 rfl).2 x hx
  obtain ⟨request, answer⟩ := x
  cases request with
  | links => exact hanswer
  | fetch channel select => exact ⟨_, hanswer, D.answersOne_answerOne T select⟩
  | catalog | consult | notice | execute | lock | newKey => trivial

/-- Of two lines one leads to an invoice that has a receipt of the caller. -/
theorem sameAsCaller_follows_line :
    let i := Field.new "i" "invoice" (.connection (.between "invoice" .one .many))
    let line := Entity.new "line" "Line" "LINE" [i]
    let rs := Field.new "rs" "receipts" (.connection ⟨"receipt", some "ri", .many, .one, false, none, none⟩)
    let invoice := Entity.new "invoice" "Invoice" "INVOICE" [rs]
    let ri := Field.new "ri" "invoice" (.connection ⟨"invoice", some "rs", .one, .many, false, none, none⟩)
    let receipt := Entity.new "receipt" "Receipt" "RECEIPT" [ri, Field.new "p" "payer" (.user false)]
    let catalog : Catalog := ⟨[line, invoice, receipt], [], []⟩
    let links := LinkMap.ofCatalog {} catalog
    let ctx : Context := ⟨⟨{}, {}, .tenant⟩, catalog, ⟨some "alice", "en", true⟩, .everything⟩
    let T := Tables.ofCells [
      ("LINE", [[("uuid", "l1"), ("invoice", "i1")], [("uuid", "l2"), ("invoice", "i2")]]),
      ("INVOICE", [[("uuid", "i1")], [("uuid", "i2")]]),
      ("RECEIPT", [[("uuid", "r1"), ("invoice", "i1"), ("payer", "alice")],
        [("uuid", "r2"), ("invoice", "i2"), ("payer", "bob")]])]
    let hops : List Hop := [⟨"line", some "i"⟩, ⟨"invoice", some "rs"⟩]
    let p : Predicate := .compare (.column ⟨"RECEIPT", "payer"⟩) .eq (.value (.str "alice"))
    let run := (placeholder ctx (expansion ctx 0 []) line ⟨Rule.selfKey, .sameAsUser, .null, none⟩).transcript
      (Request.steady catalog links (Dialect.mute.answerOne T))
    run.2 = .ok (.ofRule Rule.selfKey .in (.arr [.str "l1"])) ∧
      KeysOf (T "LINE") "uuid" (Reaches (ctx.env links) T
        (fun row => rowPasses .mute T "RECEIPT" (some p) row = true) hops) [.str "l1"] := by
  intro i line rs invoice ri receipt catalog links ctx T hops p run
  have hresult : run.2 = .ok (.ofRule Rule.selfKey .in (.arr [.str "l1"])) := by
    dsimp only [run, i, line, rs, invoice, ri, receipt, catalog, links, ctx, T]
    rfl
  have hchain : (callerRule (ctx.env links) (some "alice") line
      ⟨Rule.selfKey, .sameAsUser, .null, none⟩).result =
        .ok (.chain (hops ++ [⟨"receipt", none⟩]) "uuid") := by
    dsimp only [i, line, rs, invoice, ri, receipt, catalog, links, ctx, hops]
    rfl
  have hp : (condition (ctx.env links) (Frame.base receipt)
      ((userMatch receipt "alice" false).getD (Condition.constant false))).result = .ok (some p) := by
    dsimp only [i, line, rs, invoice, ri, receipt, catalog, links, ctx, p]
    rfl
  have hcalls (a b : String) (ha : isCall a.toList = false) (hb : isCall b.toList = false) :
      NoCalls [some a, some b] := by
    intro s hs
    rcases List.mem_pair.1 hs with h | h <;> cases h
    · exact ha
    · exact hb
  have hclear : ClearTrail (ctx.env links) T hops := by
    intro hop hhop e l next he ⟨m, hm, hl, hnext⟩ _
    rcases List.mem_pair.1 hhop with rfl | rfl
    · cases he
      cases hm
      cases List.mem_singleton.1 hl
      cases hnext
      exact ⟨by decide, by decide, fun h => (by cases h), fun _ _ h => (by cases h),
        hcalls "i1" "i2" (by decide) (by decide)⟩
    · cases he
      cases hm
      cases List.mem_singleton.1 hl
      cases hnext
      refine ⟨by decide, by decide, fun _ => by unfold Frame.Apart; decide, fun _ _ _ r hr => ?_,
        hcalls "r1" "r2" (by decide) (by decide)⟩
      refine ⟨?_, fun r' hr' h => ?_⟩
      · rcases List.mem_pair.1 hr with rfl | rfl <;> decide
      · rcases List.mem_pair.1 hr with rfl | rfl <;> rcases List.mem_pair.1 hr' with rfl | rfl <;>
          first | rfl | exact absurd h (by decide)
  obtain ⟨start, hops', last, hstarts, -, hpath, htrail, -, hkeys, -⟩ :=
    sameAsCaller_follows .mute T ctx (expansion ctx 0 []) rfl rfl (.inl rfl) hchain
  obtain ⟨rfl, hlast⟩ := List.append_inj' hpath rfl
  obtain ⟨-, rfl, -⟩ | ⟨hkey, -⟩ := hstarts
  case inr => exact absurd rfl hkey
  have hentity := htrail.entity rfl
  have hid : "receipt" = last.id := congrArg Hop.entity (List.singleton_inj.1 hlast)
  rw [← hid] at hentity
  cases hentity
  obtain ⟨keys, hnode, hof⟩ := hkeys _ hp hclear (hcalls "l1" "l2" (by decide) (by decide)) _ _
    (Program.Runs.of_transcript hresult) (answered_transcript _ _ _ _ _)
  cases hnode
  exact ⟨hresult, hof⟩

/-- The walk loses rows, or keeps too many, where the id of a connection also stands for the primary key
or for another field, where an object's table is called as tables in subqueries are, and where linked rows
share a primary key or lack one. -/
theorem sameAsCaller_misses :
    let ctx (catalog : Catalog) : Context :=
      ⟨⟨{}, {}, .tenant⟩, catalog, ⟨some "alice", "en", true⟩, .everything⟩
    let env (catalog : Catalog) : Env := (ctx catalog).env (LinkMap.ofCatalog {} catalog)
    let answer (catalog : Catalog) (T : Tables) (e : Entity) : Result Condition :=
      ((placeholder (ctx catalog) (expansion (ctx catalog) 0 []) e
        ⟨Rule.selfKey, .sameAsUser, .null, none⟩).transcript
          (Request.steady catalog (LinkMap.ofCatalog {} catalog) (Dialect.mute.answerOne T))).2
    let own (last : Entity) : Predicate :=
      .compare (.column ⟨last.table, "manager"⟩) .eq (.value (.str "alice"))
    -- A row with the key `s` is at odds with the keys that the rule gets.
    let misses (catalog : Catalog) (T : Tables) (e last : Entity) (field s : String)
        (keys : List Json) : Prop :=
      (userPath (env catalog) e).result = .ok (some [⟨e.id, some field⟩, ⟨last.id, none⟩]) ∧
      (condition (env catalog) (Frame.base last)
        ((userMatch last "alice" false).getD (Condition.constant false))).result =
          .ok (some (own last)) ∧
      answer catalog T e = .ok (.ofRule Rule.selfKey .in (.arr keys)) ∧
      ∃ r ∈ T e.table, r e.keyColumn = some s ∧
        ¬ (Reaches (env catalog) T (fun row => rowPasses .mute T last.table (some (own last)) row = true)
          [⟨e.id, some field⟩] r ↔ s ∈ keys.map Json.plain)
    let customer := Entity.new "customer" "Customer" "CUSTOMER" [Field.new "m" "manager" (.user false)]
    let held (id : String) := Field.new id "customer" (.connection (.between "customer" .one .many))
    let T := Tables.ofCells [("INVOICE", [[("uuid", "i1"), ("customer", "c1")]]),
      ("CUSTOMER", [[("uuid", "c1"), ("manager", "alice")]])]
    let invoice (fields : List Field) := Entity.new "invoice" "Invoice" "INVOICE" fields
    let twice := invoice [Field.new "c" "state" .text, held "c"]
    let orders (table : String) := Entity.new "order" "Order" table [Field.new "rs" "receipts"
      (.connection ⟨"receipt", some "o", .many, .one, false, none, none⟩)]
    let receipt := Entity.new "receipt" "Receipt" "RECEIPT" [Field.new "o" "order"
      (.connection ⟨"order", some "rs", .one, .many, false, none, none⟩),
        Field.new "m" "manager" (.user false)]
    let R := Tables.ofCells [("ORDER", [[("uuid", "o1")], [("uuid", "o2")], [("uuid", "o3")]]),
      ("__r1", [[("uuid", "o1")]]), ("RECEIPT", [[("uuid", "r"), ("order", "o1"), ("manager", "alice")],
        [("uuid", "r"), ("order", "o2"), ("manager", "bob")], [("order", "o3"), ("manager", "alice")]])]
    (∀ id ∈ ["this_object", "uuid"], misses ⟨[invoice [held id], customer], [], []⟩ T (invoice [held id])
      customer id "i1" []) ∧
    (∃ err, answer ⟨[invoice [held "1"], customer], [], []⟩ T (invoice [held "1"]) = .error err) ∧
    misses ⟨[twice, customer], [], []⟩ T twice customer "c" "i1" [] ∧
    misses ⟨[orders "__r1", receipt], [], []⟩ R (orders "__r1") receipt "rs" "o1" [] ∧
    misses ⟨[orders "ORDER", receipt], [], []⟩ R (orders "ORDER") receipt "rs" "o2"
      [.str "o1", .str "o2"] ∧
    misses ⟨[orders "ORDER", receipt], [], []⟩ R (orders "ORDER") receipt "rs" "o3"
      [.str "o1", .str "o2"] := by
  intro ctx env answer own misses customer held T invoice twice orders receipt R
  dsimp only [misses, ctx, env, answer, own, customer, held, T, invoice, twice, orders, receipt, R]
  refine ⟨fun id hid => ?_, ⟨_, rfl⟩, ?_, ?_, ?_, ?_⟩
  · rcases List.mem_pair.1 hid with rfl | rfl
    · exact ⟨rfl, rfl, rfl, by decide +kernel⟩
    · exact ⟨rfl, rfl, rfl, by decide +kernel⟩
  all_goals exact ⟨rfl, rfl, rfl, by decide +kernel⟩

end Reduce

end CatalogQuery
