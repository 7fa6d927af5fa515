import CatalogQuery.Link.Resolve
import CatalogQuery.Proofs.Reduce.Nesting
import CatalogQuery.Proofs.Session.ReadOnly

/-!
# Reads of placeholders

Besides what reducing a stored filter takes, a rule of membership in one reads its keys once, a rule
that a field holds the caller reads nothing, and a rule about the caller's own records reads at most
once for each hop of its chain. Main statement: this, together with how the trees of stored filters
nest and that a turn takes one placeholder away.
-/

namespace CatalogQuery

/-- Whether a run sends these reads one after another, each with its repeats, and no other
statement. -/
inductive Session.Reads (s : Session) : List Sql.Select → List Exchange → Prop
  | none {t : List Exchange} (ht : Exchange.Quiet t) : Reads s [] t
  | next {statement : Sql.Select} {rest : List Sql.Select} {t u v : List Exchange}
      {answer : Except DatabaseFailure (List Row)} (ht : Exchange.Quiet t)
      (hu : Program.IsRead s.channel statement s.settings.readRetries u answer)
      (hv : Reads s rest v) : Reads s (statement :: rest) (t ++ (u ++ v))

/-- A read after what is worked out from the links. -/
theorem Session.Reads.of_withLinks {s : Session} {α : Type} {f : Links → Traced α}
    {statement : Sql.Select} {rest : List Sql.Select} {t u v : List Exchange} {found : Result α}
    {read : Result (List Row)} (ht : (Program.withLinks f).Runs t found)
    (hu : (s.fetch statement).Runs u read) (hv : s.Reads rest v) :
    s.Reads (statement :: rest) (t ++ (u ++ v)) := by
  obtain ⟨answer, hread, -⟩ := Program.Runs.fetch hu
  exact .next (Program.Silent.withLinks.quiet ht) hread hv

theorem Session.Reads.quiet_append {s : Session} {statements : List Sql.Select}
    {t u : List Exchange} (ht : Exchange.Quiet t) (hu : s.Reads statements u) :
    s.Reads statements (t ++ u) := by
  cases hu with
  | none hu => exact .none (ht.append hu)
  | next ht' hu hv =>
    rw [← List.append_assoc]
    exact .next (ht.append ht') hu hv

namespace Reduce

open Program (Silent)

/-! ## Membership in a stored filter -/

/-- The operators of membership in a stored filter. -/
def memberships : List RuleOp :=
  [.inQuery, .notInQuery, .inQueryField, .notInQueryField, .inDataCollection, .notInDataCollection]

theorem exists_sourceOf (catalog : Catalog) {r : Rule} (h : r.op ∈ memberships) :
    ∃ source, sourceOf catalog r = some source := by
  rw [sourceOf.eq_def]
  simp only [memberships, List.mem_cons, List.not_mem_nil, or_false] at h
  rcases h with h | h | h | h | h | h <;> rw [h] <;> exact ⟨_, rfl⟩

theorem silent_sourceOf {catalog : Catalog} {r : Rule}
    {source : Program (StoredSource × Option String)} (h : sourceOf catalog r = some source) :
    source.Silent := by
  rw [sourceOf.eq_def] at h
  split at h <;> cases h <;> exact Silent.withLinks.bind fun _ => trivial

/-- Whether a run resolves a rule of membership: the stored filter is looked up, it is reduced, and its
keys are read once. -/
def ResolvesMembership (ctx : Context) (expand : Expand) (e : Entity) (r : Rule)
    (t : List Exchange) : Prop :=
  ∃ (found nested last : List Exchange) (source : Program (StoredSource × Option String))
    (stored : StoredSource) (column : Option String) (reduced : Condition) (links : Links)
    (statement : Sql.Select) (key : String),
    t = found ++ (nested ++ last) ∧ Exchange.Quiet found ∧
    sourceOf ctx.catalog r = some source ∧ source.Runs found (.ok (stored, column)) ∧
    (expand stored).Runs nested (.ok reduced) ∧
    (membershipSelect (ctx.env links) e r stored reduced column).result = .ok (statement, key) ∧
    ctx.session.Reads [statement] last

theorem resolvesMembership_of_runs {ctx : Context} {expand : Expand} {e : Entity} {r : Rule}
    {t : List Exchange} {node : Condition} (hop : r.op ∈ memberships)
    (h : (placeholder ctx expand e r).Runs t (.ok node)) :
    ResolvesMembership ctx expand e r t := by
  obtain ⟨source, hsource⟩ := exists_sourceOf ctx.catalog hop
  rw [placeholder_of_source hsource] at h
  obtain ⟨found, t', ⟨stored, column⟩, rfl, hfound, h⟩ := Program.Runs.bind_ok.1 h
  obtain ⟨nested, last, reduced, rfl, hnested, h⟩ := Program.Runs.bind_ok.1 h
  obtain ⟨t₁, t', ⟨statement, key⟩, rfl, hselect, h⟩ := Program.Runs.bind_ok.1 h
  obtain ⟨t₂, t₃, rows, rfl, hread, rfl, -⟩ := Program.Runs.bind_ok.1 h
  have hreads := Session.Reads.of_withLinks hselect hread (.none .nil)
  obtain ⟨links, -, hresult⟩ := Program.Runs.withLinks_iff.1 hselect
  exact ⟨found, nested, _, source, stored, column, reduced, links, statement, key, rfl,
    (silent_sourceOf hsource).quiet hfound, hsource, hfound, hnested, hresult.symm, hreads⟩

/-! ## Rules about the caller -/

/-- Whether a statement reads the keys at one hop of a chain. -/
def IsHopSelect (env : Links → Compile.Env) (startKey username : String)
    (hop : Option Hop × Hop) (statement : Sql.Select) : Prop :=
  ∃ links keys,
    (hopSelect (env links) startKey username hop.1 hop.2 keys).result = .ok statement

/-- A walk reads at the first hops, once at each. The induction is on the hops. -/
theorem reads_of_walk {s : Session} {env : Links → Compile.Env} {startKey username : String}
    {hops : List (Option Hop × Hop)} {keys : List Json} {t : List Exchange}
    {result : Result (List Json)}
    (h : (walk s env startKey username hops keys).Runs t result) :
    ∃ walked statements, walked <+: hops ∧
      List.Forall₂ (IsHopSelect env startKey username) walked statements ∧
      s.Reads statements t := by
  have hnone : s.Reads [] [] := .none .nil
  induction hops generalizing keys t with
  | nil =>
    obtain ⟨rfl, -⟩ := h
    exact ⟨[], [], List.nil_prefix, .nil, hnone⟩
  | cons hop rest ih =>
    obtain ⟨before, hop⟩ := hop
    rw [walk] at h
    -- A run may end with the statement that cannot be made, with its read, or go on.
    rcases Program.Runs.bind_iff.1 h with ⟨e, hselect, -⟩ | ⟨t₁, t', statement, rfl, hselect, h⟩
    · exact ⟨[], [], List.nil_prefix, .nil, .none (Silent.withLinks.quiet hselect)⟩
    obtain ⟨links, -, hresult⟩ := Program.Runs.withLinks_iff.1 hselect
    have hhop : IsHopSelect env startKey username (before, hop) statement :=
      ⟨links, keys, hresult.symm⟩
    have hprefix {walked : List (Option Hop × Hop)} (hw : walked <+: rest) :
        (before, hop) :: walked <+: (before, hop) :: rest :=
      List.cons_prefix_cons.2 ⟨rfl, hw⟩
    rcases Program.Runs.bind_iff.1 h with ⟨e, hread, -⟩ | ⟨t₂, t₃, rows, rfl, hread, h⟩
    · refine ⟨_, [statement], hprefix List.nil_prefix, .cons hhop .nil, ?_⟩
      have hreads := Session.Reads.of_withLinks hselect hread hnone
      rwa [List.append_nil] at hreads
    dsimp only at h
    split at h
    · obtain ⟨rfl, -⟩ := h
      exact ⟨_, [statement], hprefix List.nil_prefix, .cons hhop .nil,
        .of_withLinks hselect hread hnone⟩
    · obtain ⟨walked, statements, hw, hall, hreads⟩ := ih h
      exact ⟨_, statement :: statements, hprefix hw, .cons hhop hall,
        .of_withLinks hselect hread hreads⟩

theorem length_backwards (path : List Hop) : (backwards path).length = path.length := by
  simp [backwards]

/-- Whether a run reads nothing, or follows a chain and reads at its last hops, once at each. -/
def FollowsChain (ctx : Context) (e : Entity) (r : Rule) (t : List Exchange) : Prop :=
  Exchange.Quiet t ∨ ∃ links path startKey walked statements,
    (callerRule (ctx.env links) ctx.caller.username e r).result = .ok (.chain path startKey) ∧
    walked <+: backwards path ∧
    List.Forall₂ (IsHopSelect ctx.env startKey (ctx.caller.username.getD "")) walked statements ∧
    statements.length ≤ path.length ∧ ctx.session.Reads statements t

theorem followsChain_of_runs {ctx : Context} {e : Entity} {r : Rule} {t : List Exchange}
    {result : Result Condition} (h : (sameAsCaller ctx e r).Runs t result) :
    FollowsChain ctx e r t := by
  rw [sameAsCaller] at h
  rcases Program.Runs.bind_iff.1 h with ⟨error, hfound, -⟩ | ⟨t₁, t', found, rfl, hfound, h⟩
  · exact .inl (Silent.withLinks.quiet hfound)
  have hquiet := Silent.withLinks.quiet hfound
  cases found with
  | settled c =>
    obtain ⟨rfl, -⟩ := h
    rw [List.append_nil]
    exact .inl hquiet
  | chain path startKey =>
    obtain ⟨links, -, hchain⟩ := Program.Runs.withLinks_iff.1 hfound
    have hwalk : ∃ read, (walk ctx.session ctx.env startKey (ctx.caller.username.getD "")
        (backwards path) []).Runs t' read := by
      rcases Program.Runs.bind_iff.1 h with ⟨error, hw, -⟩ | ⟨t₂, t₃, keys, rfl, hw, rfl, -⟩
      · exact ⟨_, hw⟩
      · exact ⟨_, by rwa [List.append_nil]⟩
    obtain ⟨read, hwalk⟩ := hwalk
    obtain ⟨walked, statements, hprefix, hall, hreads⟩ := reads_of_walk hwalk
    refine .inr ⟨links, path, startKey, walked, statements, hchain.symm, hprefix, hall, ?_,
      hreads.quiet_append hquiet⟩
    have hle := hprefix.length_le
    rwa [hall.length_eq, length_backwards] at hle

/-! ## Reducing -/

theorem quiet_containsCaller {ctx : Context} {expand : Expand} {e : Entity} {r : Rule}
    {t : List Exchange} {result : Result Condition}
    (hop : r.op = .containCurrentUser ∨ r.op = .notContainCurrentUser)
    (h : (placeholder ctx expand e r).Runs t result) : Exchange.Quiet t := by
  rw [placeholder.eq_def] at h
  rcases hop with hop | hop <;> rw [hop] at h <;> exact Silent.withLinks.quiet h

end Reduce

end CatalogQuery
