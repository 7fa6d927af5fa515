import CatalogQuery.Proofs.Compile.Hidden
import CatalogQuery.Proofs.Reduce.Nesting

/-!
# Placeholders that reducing comes upon

Reducing compiles conditions too: those of stored filters, without the filters that are in force for
formula fields, and those that ask for the caller along a chain of links. Besides their errors and
those of a cycle it has plain ones only. Main statement: reducing fails over an unreplaced placeholder
only where one is hidden in such a condition.
-/

namespace CatalogQuery

open Compile (Hidden)

theorem Tenant.isPlain_links {t : Tenant} {id : String} {e : QueryError}
    (h : t.links id = .error e) : e.isPlain = true := by
  rw [links] at h
  split at h
  · cases h
  · rw [LinkMap.ofCatalog, Catalog.entity] at h
    split at h <;> cases h
    rfl

theorem Tenant.links_ne (t : Tenant) (id : String) (op : RuleOp) (key : String) :
    t.links id ≠ .error (.unreplaced op key) := by
  intro h
  cases isPlain_links h

namespace Reduce

/-! ## The parts -/

/-- Whether a stored filter is one of a catalog. -/
def IsStored (catalog : Catalog) (stored : StoredSource) : Prop :=
  ∃ id, (queryNamed catalog id).result = .ok stored ∨
    (collectionNamed catalog id).result = .ok stored

section

variable {E : QueryError → Prop} (hE : ∀ e, e.isPlain = true → E e)

include hE

theorem failsAs_queryNamed (catalog : Catalog) (id : String) : (queryNamed catalog id).FailsAs E := by
  rw [queryNamed]
  split
  · exact .pure
  · exact Traced.FailsAs.notice.bind fun _ _ => .fail (hE _ rfl)

theorem failsAs_collectionNamed (catalog : Catalog) (id : String) :
    (collectionNamed catalog id).FailsAs E := by
  rw [collectionNamed]
  split
  · split
    · exact .pure
    · exact (failsAs_queryNamed hE catalog _).bind fun _ _ => .pure
  · exact Traced.FailsAs.notice.bind fun _ _ => .fail (hE _ rfl)

theorem failsAs_queryField (catalog : Catalog) (r : Rule) : (queryField catalog r).FailsAs E := by
  rw [queryField]
  dsimp only
  split
  · exact .fail (hE _ rfl)
  · refine (failsAs_queryNamed hE catalog _).bind fun stored _ => ?_
    refine Traced.FailsAs.bind (.ofResult fun _ h => hE _ (Catalog.isPlain_entity h))
      fun target _ => ?_
    split
    · exact .pure
    · exact .fail (hE _ rfl)

/-- What a placeholder names is looked up without any error but plain ones. -/
theorem failsAs_sourceOf {t : Tenant} {catalog : Catalog} {r : Rule}
    {source : Program (StoredSource × Option String)} (h : sourceOf catalog r = some source) :
    source.FailsAs t E := by
  rw [sourceOf.eq_def] at h
  split at h
  case h_1 | h_2 =>
    cases h
    exact (Program.FailsAs.withLinks (failsAs_queryNamed hE _ _)).bind fun _ _ => .pure
  case h_3 | h_4 =>
    cases h
    exact (Program.FailsAs.withLinks (failsAs_queryField hE _ _)).bind fun _ _ => .pure
  case h_5 | h_6 =>
    cases h
    exact (Program.FailsAs.withLinks (failsAs_collectionNamed hE _ _)).bind fun _ _ => .pure
  case h_7 => cases h

omit hE in
/-- What comes before the colon names the query. -/
theorem queryNamed_of_queryField {catalog : Catalog} {r : Rule} {found : StoredSource × String}
    (h : (queryField catalog r).result = .ok found) :
    ∃ query field, Text.splitAtFirst ':' r.value.plain.toList = some (query, field) ∧
      (queryNamed catalog (String.ofList query)).result = .ok found.1 := by
  rw [queryField] at h
  dsimp only at h
  split at h
  · cases h
  · rename_i query field hsplit
    obtain ⟨stored, hstored, h⟩ := Traced.result_bind_ok.1 h
    obtain ⟨target, -, h⟩ := Traced.result_bind_ok.1 h
    split at h <;> cases h
    exact ⟨query, field, hsplit, hstored⟩

omit hE in
theorem isStored_of_sourceOf {t : Tenant} {catalog : Catalog} {r : Rule}
    {source : Program (StoredSource × Option String)} (h : sourceOf catalog r = some source)
    {found : StoredSource × Option String} (hfound : source.Gives t found) :
    IsStored catalog found.1 := by
  rw [sourceOf.eq_def] at h
  split at h
  case h_7 => cases h
  all_goals
    cases h
    obtain ⟨_, hnamed, hfound⟩ := Program.Gives.bind_iff.1 hfound
    cases Program.Gives.pure_iff.1 hfound
  case h_1 | h_2 => exact ⟨_, .inl hnamed.withLinks⟩
  case h_3 | h_4 =>
    obtain ⟨query, -, -, hquery⟩ := queryNamed_of_queryField hnamed.withLinks
    exact ⟨_, .inl hquery⟩
  case h_5 | h_6 => exact ⟨_, .inr hnamed.withLinks⟩

theorem failsAs_fieldOf (e : Entity) (key : String) : (fieldOf e key).FailsAs E := by
  rw [fieldOf]
  split
  · exact .pure
  · exact .fail (hE _ rfl)

theorem failsAs_joinAll {env : Compile.Env} (e : Entity) (links : LinkMap) (joins : List String)
    (found : Sql.Source × Compile.Frame) : (joinAll env e links joins found).FailsAs E := by
  induction joins generalizing found with
  | nil => exact .pure
  | cons field rest ih =>
    obtain ⟨source, frame⟩ := found
    rw [joinAll]
    split
    · exact Traced.FailsAs.notice.bind fun _ _ => .fail (hE _ rfl)
    · exact (Compile.failsAs_entity hE _).bind fun target _ => ih _

omit hE in
/-- Joins change nothing but the aliases of a frame. -/
theorem ensures_joinAll_entity {env : Compile.Env} (e : Entity) (links : LinkMap)
    (joins : List String) (found : Sql.Source × Compile.Frame) :
    (joinAll env e links joins found).Ensures fun found' => found'.2.entity = found.2.entity := by
  induction joins generalizing found with
  | nil => exact .pure rfl
  | cons field rest ih =>
    obtain ⟨source, frame⟩ := found
    rw [joinAll]
    split
    · exact Traced.Ensures.trivial.bind fun _ _ => .fail
    · exact Traced.Ensures.trivial.bind fun target _ => ih _

variable {env : Compile.Env} (hlinks : ∀ id e, env.links id = .error e → E e)

include hlinks

theorem failsAs_search (steps : Nat) (queue : List (String × List Hop)) (seen : List String) :
    (search env steps queue seen).FailsAs E := by
  induction steps generalizing queue seen with
  | zero => exact .pure
  | succ steps ih =>
    cases queue with
    | nil => exact .pure
    | cons head queue =>
      obtain ⟨current, hops⟩ := head
      rw [search]
      refine (Compile.failsAs_entity hE _).bind fun e _ => ?_
      split
      · exact .pure
      · exact Traced.FailsAs.bind (hlinks _) fun links _ => ih _ _

theorem failsAs_containsCaller (username : Option String) (e : Entity) (r : Rule) :
    (containsCaller env username e r).FailsAs E := by
  rw [containsCaller.eq_def]
  dsimp only
  split
  · exact .pure
  refine (failsAs_fieldOf hE e r.key).bind fun f _ => ?_
  split
  · exact .pure
  refine (Compile.failsAs_link hE hlinks e f.id).bind fun l _ => ?_
  refine (Compile.failsAs_entity hE l.target).bind fun target _ => ?_
  split <;> exact .pure

theorem failsAs_callerRule (username : Option String) (e : Entity) (r : Rule) :
    (callerRule env username e r).FailsAs E := by
  have hpath (start : Entity) (startKey username : String) (negated : Bool) (path : List Hop) :
      Traced.FailsAs
        (if path.length = 1 ∧ r.key = Rule.selfKey then
          pure (CallerRule.settled
            ((userMatch start username negated).getD (Condition.constant negated)))
        else pure (.chain path startKey)) E := by
    split <;> exact .pure
  rw [callerRule.eq_def]
  dsimp only
  split
  · exact .pure
  split
  · refine (failsAs_search hE hlinks _ _ _).bind fun path _ => ?_
    cases path with
    | none => exact .pure
    | some path => exact hpath _ _ _ _ path
  refine (failsAs_fieldOf hE e r.key).bind fun f _ => ?_
  split
  · exact .pure
  refine (Compile.failsAs_link hE hlinks e f.id).bind fun l _ => ?_
  refine (Compile.failsAs_entity hE l.target).bind fun target _ => ?_
  refine (failsAs_search hE hlinks _ _ _).bind fun path _ => ?_
  cases path with
  | none => exact .pure
  | some path => exact hpath _ _ _ _ path

theorem failsAs_hopKey (startKey : String) (before : Option Hop) (e : Entity) :
    (hopKey env startKey before e).FailsAs E := by
  rw [hopKey.eq_def]
  split
  · exact .pure
  refine Traced.FailsAs.bind (hlinks _) fun links _ => ?_
  dsimp only
  split
  · exact .pure
  · exact .fail (hE _ rfl)

/-! ## The parts that compile a condition -/

/-- The rows of a stored filter add no error to those that its condition is compiled with. -/
theorem failsAs_storedRows {e : Entity} (joins : List String) {c : Condition}
    (hc : ∀ frame : Compile.Frame, frame.entity = e → (Compile.condition env frame c).FailsAs E) :
    (storedRows env e joins c).FailsAs E := by
  rw [storedRows]
  dsimp only
  split
  · exact (hc _ rfl).bind fun _ _ => .pure
  · refine Traced.FailsAs.bind (hlinks e.id) fun links _ => ?_
    refine (failsAs_joinAll hE e links joins _).bind fun found hfound => ?_
    exact (hc _ (ensures_joinAll_entity e links joins _ found hfound)).bind fun _ _ => .pure

theorem failsAs_membershipSelect (e : Entity) (r : Rule) {stored : StoredSource} {c : Condition}
    (hc : ∀ frame : Compile.Frame, env.catalog.entity stored.entity = .ok frame.entity →
      (Compile.condition env frame c).FailsAs E) (column : Option String) :
    (membershipSelect env e r stored c column).FailsAs E := by
  rw [membershipSelect]
  refine (Compile.failsAs_entity hE _).bind fun target htarget => ?_
  have htarget : env.catalog.entity stored.entity = .ok target := htarget
  refine (failsAs_storedRows hE hlinks stored.joins fun frame hframe => ?_).bind fun found _ => ?_
  · exact hc frame (hframe ▸ htarget)
  obtain ⟨source, filter⟩ := found
  dsimp only
  split
  · exact .pure
  · exact .pure
  · refine Traced.FailsAs.bind (hlinks e.id) fun links _ => ?_
    split <;> exact .pure

end

/-- The condition that a step of a chain asks for. -/
def hopCondition (e : Entity) (username : String) (hop : Hop) (keys : List Json) : Condition :=
  match hop.next with
  | none => (userMatch e username false).getD (Condition.constant false)
  | some field => Condition.inList field keys

theorem resolved_hopCondition (e : Entity) (username : String) (hop : Hop) (keys : List Json) :
    (hopCondition e username hop keys).Resolved := by
  rw [hopCondition]
  split
  · cases h : userMatch e username false with
    | none => exact resolved_constant false
    | some c => exact resolved_userMatch h
  · simp [Condition.inList, Condition.ofRule, Condition.Resolved, Condition.rules,
      RuleOp.isPlaceholder]

/-- What is true of the errors that the conditions of a chain of links are compiled with. -/
def ChainsFailAs (t : Tenant) (ctx : Context) (E : QueryError → Prop) : Prop :=
  ∀ (e : Entity) (username : String) (hop : Hop) (keys : List Json),
    ctx.catalog.entity hop.entity = .ok e →
    (Compile.condition (ctx.env t.links) (.base e) (hopCondition e username hop keys)).FailsAs E

/-- What is true of the errors of a stored filter that is reduced, and of those that the condition it
is reduced to is compiled with. -/
structure Expand.FailsAs (t : Tenant) (ctx : Context) (E : QueryError → Prop) (expand : Expand)
    (stored : StoredSource) : Prop where
  reducing : (expand stored).FailsAs t E
  compiling : ∀ c, (expand stored).Gives t c → ∀ frame : Compile.Frame,
    ctx.catalog.entity stored.entity = .ok frame.entity →
      (Compile.condition (ctx.env t.links) frame c).FailsAs E

section

variable {t : Tenant} {ctx : Context} {E : QueryError → Prop} (hE : ∀ e, e.isPlain = true → E e)

include hE

theorem links_of_isPlain (id : String) (e : QueryError) (h : t.links id = .error e) : E e :=
  hE e (Tenant.isPlain_links h)

theorem failsAs_hopSelect (hchains : ChainsFailAs t ctx E) (startKey username : String)
    (before : Option Hop) (hop : Hop) (keys : List Json) :
    (hopSelect (ctx.env t.links) startKey username before hop keys).FailsAs E := by
  rw [hopSelect]
  refine (Compile.failsAs_entity hE _).bind fun e he => ?_
  refine (failsAs_hopKey hE (links_of_isPlain hE) startKey before e).bind fun key _ => ?_
  exact (hchains e username hop keys he).bind fun _ _ => .pure

theorem failsAs_walk (hchains : ChainsFailAs t ctx E) (startKey username : String)
    (hops : List (Option Hop × Hop)) (keys : List Json) :
    (walk ctx.session ctx.env startKey username hops keys).FailsAs t E := by
  induction hops generalizing keys with
  | nil => exact .pure
  | cons step rest ih =>
    obtain ⟨before, hop⟩ := step
    rw [walk]
    refine (Program.FailsAs.withLinks
      (failsAs_hopSelect hE hchains startKey username before hop keys)).bind fun select _ => ?_
    refine (Program.FailsAs.fetch hE).bind fun rows _ => ?_
    dsimp only
    split
    · exact .pure
    · exact ih _

theorem failsAs_membership {expand : Expand} (e : Entity) (r : Rule) {stored : StoredSource}
    (hstored : expand.FailsAs t ctx E stored) (column : Option String) :
    (membership ctx expand e r stored column).FailsAs t E := by
  rw [membership]
  refine hstored.reducing.bind fun c hc => ?_
  exact (Program.FailsAs.withLinks
    (failsAs_membershipSelect hE (links_of_isPlain hE) e r (hstored.compiling c hc) column)).bind fun found _ =>
      (Program.FailsAs.fetch hE).bind fun rows _ => .pure

/-- A placeholder fails with the stored filter that it names, with a chain of links or plainly. -/
theorem failsAs_placeholder (hchains : ChainsFailAs t ctx E) {expand : Expand} (e : Entity)
    (r : Rule)
    (hnamed : ∀ source, sourceOf ctx.catalog r = some source → ∀ found, source.Gives t found →
      expand.FailsAs t ctx E found.1) :
    (placeholder ctx expand e r).FailsAs t E := by
  cases hsource : sourceOf ctx.catalog r with
  | some source =>
    rw [placeholder_of_source hsource]
    exact (failsAs_sourceOf hE hsource).bind fun found hfound =>
      failsAs_membership hE e r (hnamed source hsource found hfound) found.2
  | none =>
    rw [sourceOf.eq_def] at hsource
    rw [placeholder.eq_def]
    split at hsource
    case h_7 =>
      split
      case h_7 | h_8 => exact .withLinks (failsAs_containsCaller hE (links_of_isPlain hE) _ e r)
      case h_9 | h_10 =>
        rw [sameAsCaller]
        refine Program.FailsAs.bind (.withLinks (failsAs_callerRule hE (links_of_isPlain hE) _ e r))
          fun found _ => ?_
        cases found with
        | settled c => exact .pure
        | chain path startKey =>
          exact (failsAs_walk hE hchains _ _ _ _).bind fun keys _ => .pure
      case h_11 =>
        refine .ofResult fun err h => ?_
        cases h
        exact hE _ rfl
      all_goals contradiction
    all_goals cases hsource

/-- Reducing a tree fails with one of its placeholders or plainly. -/
theorem failsAs_reduceWith (hchains : ChainsFailAs t ctx E) {expand : Expand} (entity : String)
    (c : Condition)
    (hnamed : ∀ e, ctx.catalog.entity entity = .ok e → ∀ r ∈ (ctx.sight.narrow e c).rules,
      ∀ source, sourceOf ctx.catalog r = some source → ∀ found, source.Gives t found →
        expand.FailsAs t ctx E found.1) :
    (reduceWith ctx expand entity c).FailsAs t E := by
  rw [reduceWith_eq]
  refine Program.FailsAs.bind (.ofResult fun _ h => hE _ (Catalog.isPlain_entity h)) fun e he => ?_
  have he := Program.Gives.ofResult_iff.1 he
  refine Program.FailsAs.bind (.mapM fun o ho => ?_) fun nodes _ => .pure
  refine failsAs_placeholder hE hchains e o.1 (hnamed e he o.1 ?_)
  exact List.fst_mem_of_mem_zipIdx (mem_occurrences.1 ho).1

end

/-! ## Placeholders in the conditions that are compiled -/

variable (t : Tenant)

/-- Whether a placeholder is hidden in what reducing compiles: in what the condition of a stored filter
is reduced to, or in a step of a chain of links. Neither holds any placeholder itself. -/
inductive HiddenBelow (ctx : Context) (op : RuleOp) (key : String) : Prop
  | stored {levels : Nat} {visiting : List String} {stored : StoredSource} {c : Condition}
      {frame : Compile.Frame} (hstored : IsStored ctx.catalog stored)
      (hc : (reduceTree ctx levels visiting stored.entity stored.condition).Gives t c)
      (hresolved : c.Resolved) (hframe : ctx.catalog.entity stored.entity = .ok frame.entity)
      (h : Hidden (ctx.env t.links) [] frame c op key)
  | chain {e : Entity} {username : String} {hop : Hop} {keys : List Json}
      (he : ctx.catalog.entity hop.entity = .ok e)
      (h : Hidden (ctx.env t.links) [] (.base e) (hopCondition e username hop keys) op key)

theorem resolved_of_gives {t : Tenant} {ctx : Context} {levels : Nat} {visiting : List String}
    {entity : String} {c c' : Condition}
    (h : (reduceTree ctx levels visiting entity c).Gives t c') : c'.Resolved := by
  rw [reduceTree_eq] at h
  exact (yields_reduceWith ctx _ entity c).of_gives h

section

variable {t : Tenant} {ctx : Context}

/-- Nothing stands in for the stored filters of formula fields where stored filters are read. -/
theorem covers_env : Compile.Covers (ctx.env t.links) [] := .nil rfl

theorem chains_over_hiddenBelow : ChainsFailAs t ctx (QueryError.Over (HiddenBelow t ctx)) := by
  intro e username hop keys he
  have hcovers : Compile.Covers (ctx.env t.links) [] := covers_env
  have hcondition := Compile.failsOver_condition t.links_ne hcovers (.base e)
    (resolved_hopCondition e username hop keys)
  exact Traced.failsAs_over.2 (hcondition.mono fun op key h => .chain he h)

/-- A way of reducing stored filters that fails over nothing but what is hidden below it. -/
structure Expand.Known (t : Tenant) (ctx : Context) (expand : Expand) : Prop where
  fails : ∀ stored, (expand stored).FailsOver t (HiddenBelow t ctx)
  gives : ∀ stored c, (expand stored).Gives t c → ∃ levels visiting,
    (reduceTree ctx levels visiting stored.entity stored.condition).Gives t c

theorem Expand.Known.failsAs {expand : Expand} (hexpand : expand.Known t ctx)
    {stored : StoredSource} (hstored : IsStored ctx.catalog stored) :
    expand.FailsAs t ctx (QueryError.Over (HiddenBelow t ctx)) stored := by
  refine ⟨Program.failsAs_over.2 (hexpand.fails stored), fun c hc frame hframe => ?_⟩
  obtain ⟨levels, visiting, hc⟩ := hexpand.gives stored c hc
  have hresolved := resolved_of_gives hc
  refine Traced.failsAs_over.2 ?_
  exact (Compile.failsOver_condition t.links_ne covers_env frame hresolved).mono
    fun op key h => .stored hstored hc hresolved hframe h

theorem failsOver_reduceWith {expand : Expand} (hexpand : expand.Known t ctx) (entity : String)
    (c : Condition) : (reduceWith ctx expand entity c).FailsOver t (HiddenBelow t ctx) := by
  refine Program.failsAs_over.1 ?_
  refine failsAs_reduceWith QueryError.over_of_isPlain chains_over_hiddenBelow entity c
    fun e _ r _ source hsource found hfound => ?_
  exact hexpand.failsAs (isStored_of_sourceOf hsource hfound)

end

theorem failsAs_cyclic {t : Tenant} {E : QueryError → Prop} {chain : List String}
    (h : E (.configuration (.cyclicFilters chain))) : (cyclic chain).FailsAs t E := by
  refine (Program.FailsAs.notice _).bind fun _ _ => .ofResult fun err he => ?_
  cases he
  exact h

theorem failsOver_cyclic {t : Tenant} {blame : RuleOp → String → Prop} (chain : List String) :
    (cyclic chain).FailsOver t blame :=
  Program.failsAs_over.1 (failsAs_cyclic (by rintro _ _ ⟨⟩))

theorem not_gives_cyclic {t : Tenant} {chain : List String} {c : Condition} :
    ¬ (cyclic chain).Gives t c := by
  rw [cyclic, Program.Gives.bind_iff]
  rintro ⟨_, -, h⟩
  cases Program.Gives.ofResult_iff.1 h

/-- Whichever stored filters lie around it, a stored filter is reduced as any tree is. -/
theorem known_expansion (ctx : Context) (levels : Nat) (visiting : List String) :
    (expansion ctx levels visiting).Known t ctx := by
  induction levels generalizing visiting with
  | zero =>
    exact ⟨fun stored => failsOver_cyclic _, fun stored c h => absurd h not_gives_cyclic⟩
  | succ levels ih =>
    refine ⟨fun stored => ?_, fun stored c h => ?_⟩
    · rw [expansion]
      split
      · exact failsOver_cyclic _
      · rw [reduceTree_eq]
        exact failsOver_reduceWith (ih _) _ _
    · rw [expansion] at h
      split at h
      · exact absurd h not_gives_cyclic
      · exact ⟨_, _, h⟩

theorem failsOver_reduceTree (ctx : Context) (levels : Nat) (visiting : List String)
    (entity : String) (c : Condition) :
    (reduceTree ctx levels visiting entity c).FailsOver t (HiddenBelow t ctx) := by
  rw [reduceTree_eq]
  exact failsOver_reduceWith (known_expansion t ctx levels visiting) entity c

/-! ## The caller's condition -/

theorem isPlain_scope {row : Row} {err : QueryError} (h : Scope.ofRow row = .error err) :
    err.isPlain = true := by
  rw [Scope.ofRow] at h
  split at h <;> cases h
  rfl

theorem failsAs_sight {t : Tenant} {E : QueryError → Prop} (hE : ∀ e, e.isPlain = true → E e)
    (s : Session) (caller : Caller) : (s.sight caller).FailsAs t E := by
  have hscopes (roles : List Role) : (s.directory.scopes s.channel roles).FailsAs t E := by
    rw [Directory.scopes]
    split
    · exact .pure
    · refine (Program.FailsAs.fetch hE).bind fun rows _ => ?_
      refine Program.FailsAs.bind (.ofResult fun err h => ?_) fun _ _ => .pure
      obtain ⟨row, -, hrow⟩ := Result.exists_of_mapM_error h
      exact hE _ (isPlain_scope hrow)
  have hscopesOf (username : String) :
      (s.directory.scopesOf s.channel username).FailsAs t E := by
    rw [Directory.scopesOf]
    refine ((Program.FailsAs.fetch hE).bind fun rows _ => .pure).bind fun found _ => ?_
    split
    · refine .ofResult fun err h => ?_
      cases h
      exact hE _ rfl
    · split
      · refine .ofResult fun err h => ?_
        cases h
        exact hE _ rfl
      · exact ((Program.FailsAs.fetch hE).bind fun rows _ => .pure).bind fun roles _ => hscopes roles
  rw [Session.sight]
  split
  · exact .pure
  · split
    · exact .pure
    · rw [map_eq_pure_bind]
      exact (hscopesOf _).bind fun _ _ => .pure

theorem failsOver_reduce (s : Session) (entity : String) (c : Condition) (caller : Caller) :
    (reduce s entity c caller).FailsOver t fun op key =>
      ∃ sight, HiddenBelow t ⟨s, t.catalog, caller, sight⟩ op key := by
  rw [reduce]
  refine Program.FailsOver.catalog.bind fun catalog hcatalog => ?_
  rw [hcatalog.catalog]
  refine (Program.FailsOver.entity entity).bind fun e _ => ?_
  refine Program.FailsOver.bind ?_ fun sight _ => ?_
  · exact Program.failsAs_over.1 (failsAs_sight QueryError.over_of_isPlain s caller)
  exact (failsOver_reduceTree t _ _ _ _ c).mono fun op key h => ⟨sight, h⟩

theorem resolved_of_gives_reduce {t : Tenant} {s : Session} {entity : String} {c c' : Condition}
    {caller : Caller} (h : (reduce s entity c caller).Gives t c') : c'.Resolved :=
  (yields_reduce s entity c caller).of_gives h

/-! ## The filters of formula fields -/

/-- Whether some filters hold no placeholders and are there for those formula fields of an object whose
own filter does and whose connection is resolved. -/
structure Fills (links : LinkMap) (fields : List Field) (filters : List (String × Condition)) :
    Prop where
  resolved : ∀ q ∈ filters, q.2.Resolved
  filled : ∀ f ∈ fields, ∀ formula, f.type = .formula formula → ∀ d, formula.filter = some d →
    ¬ d.Resolved → (∃ l, links.get formula.field = some l) → ∃ q ∈ filters, q.1 = f.id

/-- A filter that has to be reduced: the id of its field, the object that it is about, and the filter. -/
structure Pending where
  id : String
  target : String
  filter : Condition

def Pending.reduced (ctx : Context) (p : Pending) : Program Condition :=
  reduceTree ctx ctx.catalog.storedFilters [] p.target p.filter

/-- What has to be reduced for a field: the filter of a formula, if it holds placeholders and the
connection leads somewhere. -/
def pending? (links : LinkMap) (f : Field) : Option Pending :=
  match f.type with
  | .formula formula =>
    (formula.filter.filter (·.placeholders ≠ 0)).bind fun d =>
      (links.get formula.field).map fun l => ⟨f.id, l.target, d⟩
  | _ => none

theorem mem_setFilter {field : String} {c : Condition} {filters : List (String × Condition)}
    {q : String × Condition} :
    q ∈ setFilter field c filters ↔ (q ∈ filters ∧ q.1 ≠ field) ∨ q = (field, c) := by
  simp [setFilter]

/-- Setting one filter takes away none. -/
theorem exists_mem_setFilter {field : String} {c : Condition} {filters : List (String × Condition)}
    {id : String} (h : ∃ q ∈ filters, q.1 = id) : ∃ q ∈ setFilter field c filters, q.1 = id := by
  obtain ⟨q, hq, rfl⟩ := h
  by_cases hfield : q.1 = field
  · exact ⟨(field, c), mem_setFilter.2 (.inr rfl), hfield.symm⟩
  · exact ⟨q, mem_setFilter.2 (.inl ⟨hq, hfield⟩), rfl⟩

variable {t} {ctx : Context}

/-- A field has its filter reduced if that is pending, and is passed over otherwise. -/
theorem fieldFilters_cons (links : LinkMap) (f : Field) (rest : List Field)
    (filters : List (String × Condition)) :
    fieldFilters ctx links (f :: rest) filters =
      match pending? links f with
      | none => fieldFilters ctx links rest filters
      | some p => p.reduced ctx >>= fun c =>
        fieldFilters ctx links rest (setFilter p.id c filters) := by
  rw [fieldFilters, pending?]
  cases f.type with
  | formula formula =>
    obtain ⟨field, target, aggregate, filter⟩ := formula
    cases filter with
    | none => rfl
    | some d =>
      dsimp only
      cases hplaceholders : d.placeholders with
      | zero =>
        rw [Option.filter_some, if_neg (by simp [hplaceholders])]
        rfl
      | succ n =>
        rw [Option.filter_some, if_pos (by simp [hplaceholders])]
        cases links.get field with
        | none => rfl
        | some l =>
          simp only [pure_bind]
          rfl
  | _ => rfl

theorem exists_of_pending? {links : LinkMap} {f : Field} {p : Pending} (h : pending? links f = some p) :
    ∃ formula d l, f.type = .formula formula ∧ formula.filter = some d ∧
      links.get formula.field = some l ∧ p = ⟨f.id, l.target, d⟩ := by
  rw [pending?] at h
  split at h
  · rename_i formula htype
    obtain ⟨d, hd, h⟩ := Option.bind_eq_some_iff.1 h
    obtain ⟨l, hl, rfl⟩ := Option.map_eq_some_iff.1 h
    exact ⟨formula, d, l, htype, (Option.filter_eq_some_iff.1 hd).1, hl, rfl⟩
  · cases h

theorem pending?_of_placeholders {links : LinkMap} {f : Field} {formula : Formula} {d : Condition}
    {l : Link} (htype : f.type = .formula formula) (hd : formula.filter = some d) (hnot : ¬ d.Resolved)
    (hl : links.get formula.field = some l) : pending? links f = some ⟨f.id, l.target, d⟩ := by
  have hplaceholders : d.placeholders ≠ 0 := mt Condition.placeholders_eq_zero.1 hnot
  rw [pending?, htype]
  dsimp only
  rw [hd, Option.filter_some, if_pos (by simpa using hplaceholders), Option.bind_some, hl]
  rfl

theorem failsOver_fieldFilters (links : LinkMap) (fields : List Field)
    (filters : List (String × Condition)) :
    (fieldFilters ctx links fields filters).FailsOver t (HiddenBelow t ctx) := by
  induction fields generalizing filters with
  | nil => exact .pure
  | cons f rest ih =>
    rw [fieldFilters_cons]
    cases pending? links f with
    | none => exact ih _
    | some p => exact (failsOver_reduceTree t ctx _ _ _ _).bind fun _ _ => ih _

/-- One field after the other is seen to, and what is there for a field stays. -/
theorem fills_of_fieldFilters {links : LinkMap} {fields : List Field}
    {filters filters' : List (String × Condition)} (hresolved : ∀ q ∈ filters, q.2.Resolved)
    (h : (fieldFilters ctx links fields filters).Gives t filters') :
    Fills links fields filters' ∧
      ∀ id, (∃ q ∈ filters, q.1 = id) → ∃ q ∈ filters', q.1 = id := by
  induction fields generalizing filters with
  | nil =>
    cases Program.Gives.pure_iff.1 h
    exact ⟨⟨hresolved, by simp⟩, fun _ h => h⟩
  | cons f rest ih =>
    rw [fieldFilters_cons] at h
    cases hpending : pending? links f with
    | none =>
      rw [hpending] at h
      obtain ⟨hfills, hkeep⟩ := ih hresolved h
      refine ⟨⟨hfills.resolved, List.forall_mem_cons.2 ⟨?_, hfills.filled⟩⟩, hkeep⟩
      rintro formula htype d hd hnot ⟨l, hl⟩
      cases hpending.symm.trans (pending?_of_placeholders htype hd hnot hl)
    | some p =>
      rw [hpending] at h
      obtain ⟨-, d, l, -, -, -, rfl⟩ := exists_of_pending? hpending
      obtain ⟨c, hc, h⟩ := Program.Gives.bind_iff.1 h
      have hset : ∀ q ∈ setFilter f.id c filters, q.2.Resolved := by
        intro q hq
        rcases mem_setFilter.1 hq with ⟨hq, -⟩ | rfl
        · exact hresolved q hq
        · exact resolved_of_gives hc
      obtain ⟨hfills, hkeep⟩ := ih hset h
      have hself := hkeep f.id ⟨(f.id, c), mem_setFilter.2 (.inr rfl), rfl⟩
      refine ⟨⟨hfills.resolved, List.forall_mem_cons.2 ⟨fun _ _ _ _ _ _ => hself, hfills.filled⟩⟩,
        fun id hid => hkeep id (exists_mem_setFilter hid)⟩

theorem failsOver_linksOf {blame : RuleOp → String → Prop} (id : String) :
    (Program.linksOf id).FailsOver t blame :=
  .withLinks fun op key h => absurd h (t.links_ne id op key)

theorem failsOver_entityFilters (es : List Entity) (filters : List (String × Condition)) :
    (entityFilters ctx es filters).FailsOver t (HiddenBelow t ctx) := by
  induction es generalizing filters with
  | nil => exact .pure
  | cons e rest ih =>
    rw [entityFilters]
    exact (failsOver_linksOf e.id).bind fun links _ =>
      (failsOver_fieldFilters links e.fields filters).bind fun _ _ => ih _

theorem fills_of_entityFilters {es : List Entity} {filters filters' : List (String × Condition)}
    (hresolved : ∀ q ∈ filters, q.2.Resolved)
    (h : (entityFilters ctx es filters).Gives t filters') :
    (∀ q ∈ filters', q.2.Resolved) ∧
      (∀ id, (∃ q ∈ filters, q.1 = id) → ∃ q ∈ filters', q.1 = id) ∧
      ∀ e ∈ es, ∃ links, t.links e.id = .ok links ∧ Fills links e.fields filters' := by
  induction es generalizing filters with
  | nil =>
    cases Program.Gives.pure_iff.1 h
    exact ⟨hresolved, fun _ h => h, by simp⟩
  | cons e rest ih =>
    rw [entityFilters, Program.Gives.bind_iff] at h
    obtain ⟨links, hlinks, h⟩ := h
    obtain ⟨next, hnext, h⟩ := Program.Gives.bind_iff.1 h
    obtain ⟨hfills, hkeep⟩ := fills_of_fieldFilters hresolved hnext
    obtain ⟨hresolved', hkeep', hrest⟩ := ih hfills.resolved h
    refine ⟨hresolved', fun id hid => hkeep' id (hkeep id hid),
      List.forall_mem_cons.2 ⟨⟨links, hlinks.withLinks, hresolved', ?_⟩, hrest⟩⟩
    exact fun f hf formula htype d hd hnot hl =>
      hkeep' _ (hfills.filled f hf formula htype d hd hnot hl)

theorem failsOver_formulaFilters (s : Session) (es : List Entity) (caller : Caller) :
    (formulaFilters s es caller).FailsOver t (HiddenBelow t ⟨s, t.catalog, caller, .everything⟩) := by
  rw [formulaFilters]
  refine Program.FailsOver.catalog.bind fun catalog hcatalog => ?_
  rw [hcatalog.catalog]
  exact failsOver_entityFilters es []

/-- The filters that are given for some objects cover their formula fields. -/
theorem covers_of_formulaFilters {s : Session} {es : List Entity} {caller : Caller}
    {filters : List (String × Condition)} (h : (formulaFilters s es caller).Gives t filters)
    {env : Compile.Env} (hlinks : env.links = t.links) (hfilters : env.filters = filters) :
    Compile.Covers env es := by
  rw [formulaFilters, Program.Gives.bind_iff] at h
  obtain ⟨catalog, -, h⟩ := h
  obtain ⟨hresolved, -, hfills⟩ := fills_of_entityFilters (by simp) h
  refine ⟨hfilters ▸ hresolved, fun e he f hf formula htype d hd hnot hl => ?_⟩
  obtain ⟨links, hof, hfill⟩ := hfills e he
  rw [hfilters]
  refine hfill.filled f hf formula htype d hd hnot ?_
  obtain ⟨l, hl⟩ := hl
  rw [Compile.link, hlinks] at hl
  obtain ⟨m, hm, hl⟩ := Traced.result_bind_ok.1 hl
  have hm : t.links e.id = .ok m := hm
  rw [hof] at hm
  cases hm
  split at hl
  · exact ⟨_, ‹_›⟩
  · cases hl

end Reduce

end CatalogQuery
