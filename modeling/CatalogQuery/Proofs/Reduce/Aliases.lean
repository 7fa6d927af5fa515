import CatalogQuery.Proofs.Compile.Composed
import CatalogQuery.Proofs.Reduce.KeyReads

/-!
# Placeholders under an alias

A rule may be about a key of a joined object, which it names by an alias. Main statement: a membership
under an alias is resolved without a look at the object itself, and its key stays that of the joined
object; so does the key of a rule about the caller, unless it comes to user fields of the object itself,
which are asked for without the alias.
-/

namespace CatalogQuery.Reduce

open Compile

/-- The operators that ask for the caller. -/
def callerOps : List RuleOp :=
  [.containCurrentUser, .notContainCurrentUser, .sameAsUser, .notSameAsUser]

/-- Whether a rule is about the caller's own records among those of the object itself. -/
def AsksSelf (r : Rule) : Prop :=
  (r.op = .sameAsUser ∨ r.op = .notSameAsUser) ∧ r.key = Rule.selfKey

/-- Whether a rule about the caller comes to user fields of the object itself. -/
def AsksOwnUsers (e : Entity) (r : Rule) : Prop :=
  AsksSelf r ∧ e.userFields ≠ [] ∨
    ¬AsksSelf r ∧ ∃ f, e.field r.key = some f ∧ f.isConnection = false

/-- Whether a tree is a constant, or one rule on a key under an alias. -/
def Keeps (key : String) (joined : Option String) (node : Condition) : Prop :=
  (∃ truth, node = Condition.constant truth) ∨ ∃ op v, node = .ofRule key op v joined

/-- Whether a tree is made of rules on fields of an object, none of them under an alias. -/
def Drops (e : Entity) (node : Condition) : Prop :=
  node.rules ≠ [] ∧ ∀ s ∈ node.rules, s.joined = none ∧ ∃ f ∈ e.fields, s.key = f.column

section

variable {env : Env} {e : Entity} {r : Rule} {username : String} {node : Condition}

theorem Keeps.constant {key : String} {joined : Option String} (truth : Bool) :
    Keeps key joined (Condition.constant truth) := .inl ⟨truth, rfl⟩

/-- A rule under an alias is compiled as one on the joined object. -/
theorem Keeps.subject {frame : Frame} {a : String} {joined : Entity}
    (h : Keeps r.key (some a) node) (haliased : frame.aliased? a = some joined) :
    ∀ s ∈ node.rules, (∃ truth, (condition env frame (.rule s)).result = .ok (some (.constant truth))) ∨
      s.joined = some a ∧ subject frame s.key s.joined = subjectOf joined a r.key := by
  intro s hs
  rcases h with ⟨truth, rfl⟩ | ⟨op, v, rfl⟩
  · refine .inl ⟨truth, ?_⟩
    cases List.mem_singleton.1 hs
    exact congrArg Traced.result (condition_constant env frame truth)
  · cases List.mem_singleton.1 hs
    refine .inr ⟨rfl, ?_⟩
    rw [Compile.subject, owner, haliased]

/-! ## Membership -/

theorem membershipSelect_joined (hjoined : r.joined ≠ none) (e' : Entity) (stored : StoredSource)
    (reduced : Condition) (column : Option String) :
    membershipSelect env e r stored reduced column =
      membershipSelect env e' r stored reduced column := by
  obtain ⟨a, ha⟩ := Option.ne_none_iff_exists'.1 hjoined
  rw [membershipSelect, membershipSelect, ha]
  cases column <;> rfl

/-- Under an alias a membership is resolved as it is on any other object. -/
theorem placeholder_joined {ctx : Context} {expand : Expand} (hop : r.op ∈ memberships)
    (hjoined : r.joined ≠ none) (e' : Entity) :
    placeholder ctx expand e r = placeholder ctx expand e' r := by
  obtain ⟨source, hsource⟩ := exists_sourceOf ctx.catalog hop
  simp only [placeholder_of_source hsource, membership, membershipSelect_joined hjoined e']

theorem ensures_membershipSelect_joined (hjoined : r.joined ≠ none) (stored : StoredSource)
    (reduced : Condition) (column : Option String) :
    (membershipSelect env e r stored reduced column).Ensures fun found => found.2 = r.key := by
  obtain ⟨a, ha⟩ := Option.ne_none_iff_exists'.1 hjoined
  rw [membershipSelect, ha]
  refine Traced.Ensures.trivial.bind fun target _ => Traced.Ensures.trivial.bind fun rows _ => ?_
  cases column <;> exact .pure rfl

theorem keeps_of_membership {ctx : Context} {expand : Expand} (hop : r.op ∈ memberships)
    (hjoined : r.joined ≠ none) :
    (placeholder ctx expand e r).Yields (Keeps r.key r.joined) := by
  obtain ⟨source, hsource⟩ := exists_sourceOf ctx.catalog hop
  rw [placeholder_of_source hsource]
  refine .next fun found => .next fun reduced => ?_
  refine (Program.Yields.withLinks fun links =>
    ensures_membershipSelect_joined hjoined found.1 reduced found.2).bind fun selected hkey => ?_
  obtain ⟨select, key⟩ := selected
  subst hkey
  exact .next fun rows => .pure (.inr ⟨_, _, rfl⟩)

/-! ## The caller -/

theorem drops_userRule {f : Field} (hf : f ∈ e.fields) (negated : Bool) :
    Drops e (userRule f username negated) := by
  refine ⟨List.cons_ne_nil _ _, fun s hs => ?_⟩
  cases List.mem_singleton.1 hs
  exact ⟨rfl, f, hf, rfl⟩

theorem drops_userMatch {negated : Bool} (h : userMatch e username negated = some node) :
    Drops e node := by
  rw [userMatch] at h
  split at h
  · cases h
  rename_i howns
  have hdrops : ∀ f ∈ e.userFields, Drops e (userRule f username negated) := fun f hf =>
    drops_userRule (List.mem_of_mem_filter hf) negated
  cases h
  refine ⟨?_, fun s hs => ?_⟩
  · obtain ⟨f, hf⟩ := List.exists_mem_of_ne_nil _ howns
    obtain ⟨s, hs⟩ := List.exists_mem_of_ne_nil _ (hdrops f hf).1
    exact List.ne_nil_of_mem (mem_rulesOf.2 ⟨_, List.mem_map_of_mem hf, hs⟩)
  · obtain ⟨c, hc, hs⟩ := mem_rulesOf.1 hs
    obtain ⟨f, hf, rfl⟩ := List.mem_map.1 hc
    exact (hdrops f hf).2 s hs

/-- Whether a tree is what a rule about the caller may come to: it keeps the alias unless it comes to
user fields of the object itself. -/
def CallerNode (e : Entity) (r : Rule) (node : Condition) : Prop :=
  (¬AsksOwnUsers e r → Keeps r.key r.joined node) ∧ (AsksOwnUsers e r → Drops e node)

theorem CallerNode.keeps (hown : ¬AsksOwnUsers e r) (h : Keeps r.key r.joined node) :
    CallerNode e r node := ⟨fun _ => h, fun h => absurd h hown⟩

theorem CallerNode.drops (hown : AsksOwnUsers e r) (h : Drops e node) : CallerNode e r node :=
  ⟨fun hnot => absurd hown hnot, fun _ => h⟩

theorem callerNode_userRule (hself : ¬AsksSelf r) {f : Field} (hf : e.field r.key = some f)
    (hconnection : f.isConnection = false) (negated : Bool) :
    CallerNode e r (userRule f username negated) :=
  .drops (.inr ⟨hself, f, hf, hconnection⟩) (drops_userRule (Entity.mem_of_field hf) negated)

theorem not_asksOwnUsers (hself : ¬AsksSelf r) {f : Field} (hf : e.field r.key = some f)
    (hconnection : ¬f.isConnection = false) : ¬AsksOwnUsers e r := by
  rintro (⟨h, -⟩ | ⟨-, g, hg, hg'⟩)
  · exact hself h
  · rw [hf] at hg
    cases hg
    exact hconnection hg'

/-- Asking whether a field holds the caller keeps the alias for a connection and drops it for any other
field. -/
theorem callerNode_containsCaller (hself : ¬AsksSelf r) :
    (containsCaller env (some username) e r).Ensures fun node =>
      (e.field r.key).isSome ∧ CallerNode e r node := by
  rw [containsCaller.eq_def]
  refine Traced.Ensures.bind (fun f => field_of_fieldOf) fun f hf => ?_
  have hsome : (e.field r.key).isSome := by
    rw [hf]
    rfl
  split
  · rename_i hconnection
    exact .pure ⟨hsome, callerNode_userRule hself hf (by simpa using hconnection) _⟩
  · rename_i hconnection
    have hown := not_asksOwnUsers hself hf (by simpa using hconnection)
    refine Traced.Ensures.trivial.bind fun l _ => Traced.Ensures.trivial.bind fun target _ => ?_
    split
    · exact .pure ⟨hsome, .keeps hown (.constant _)⟩
    · exact .pure ⟨hsome, .keeps hown (.inr ⟨_, _, rfl⟩)⟩

/-- An object with user fields is itself the end of its chain. -/
theorem userPath_of_owns (he : env.catalog.entity e.id = .ok e) (howns : e.userFields ≠ []) :
    (userPath env e).result = .ok (some [⟨e.id, none⟩]) := by
  refine Traced.result_bind_ok.2 ⟨e, he, ?_⟩
  rw [if_pos (by simpa using howns)]
  rfl

/-- How a rule about the caller's own records goes on: settled, or along a chain, but not with user
fields of its own. -/
def CallerRule.Follows (e : Entity) (r : Rule) : CallerRule → Prop
  | .settled c => CallerNode e r c
  | .chain _ _ => ¬AsksOwnUsers e r

/-- For the records that are the caller's own it matters whether the object has user fields. -/
theorem follows_callerRule_self (he : env.catalog.entity e.id = .ok e) (hself : AsksSelf r) :
    (callerRule env (some username) e r).Ensures (CallerRule.Follows e r) := by
  rw [callerRule.eq_def]
  dsimp only
  rw [if_pos hself.2]
  intro found hfound
  obtain ⟨path, hpath, hfound⟩ := Traced.result_bind_ok.1 hfound
  by_cases howns : e.userFields = []
  · have hown : ¬AsksOwnUsers e r := by
      rintro (⟨-, h⟩ | ⟨h, -⟩)
      · exact h howns
      · exact h hself
    have hmatch (negated : Bool) : userMatch e username negated = none := by rw [userMatch, howns]
    revert hfound
    split
    · rintro ⟨⟩
      exact .keeps hown (.constant _)
    · split
      · rw [hmatch]
        rintro ⟨⟩
        exact .keeps hown (.constant _)
      · rintro ⟨⟩
        exact hown
  · cases (userPath_of_owns he howns).symm.trans hpath
    dsimp only at hfound
    rw [if_pos ⟨rfl, hself.2⟩] at hfound
    cases hfound
    have hown : AsksOwnUsers e r := .inl ⟨hself, howns⟩
    cases hmatch : userMatch e username (r.op == .notSameAsUser) with
    | none =>
      rw [userMatch] at hmatch
      split at hmatch
      · exact absurd ‹_› howns
      · cases hmatch
    | some c => exact .drops hown (drops_userMatch hmatch)

theorem follows_callerRule (he : env.catalog.entity e.id = .ok e)
    (hop : r.op = .sameAsUser ∨ r.op = .notSameAsUser) :
    (callerRule env (some username) e r).Ensures fun found =>
      (AsksSelf r ∨ (e.field r.key).isSome) ∧ found.Follows e r := by
  by_cases hkey : r.key = Rule.selfKey
  · have hself : AsksSelf r := ⟨hop, hkey⟩
    exact (follows_callerRule_self he hself).mono fun _ h => ⟨.inl hself, h⟩
  · have hself : ¬AsksSelf r := fun h => hkey h.2
    rw [callerRule.eq_def]
    dsimp only
    rw [if_neg hkey]
    refine Traced.Ensures.bind (fun f => field_of_fieldOf) fun f hf => ?_
    have hsome : AsksSelf r ∨ (e.field r.key).isSome := by
      rw [hf]
      exact .inr rfl
    split
    · rename_i hconnection
      exact .pure ⟨hsome, callerNode_userRule hself hf (by simpa using hconnection) _⟩
    · rename_i hconnection
      have hown := not_asksOwnUsers hself hf (by simpa using hconnection)
      refine Traced.Ensures.trivial.bind fun l _ => Traced.Ensures.trivial.bind fun target _ =>
        Traced.Ensures.trivial.bind fun path _ => ?_
      split
      · exact .pure ⟨hsome, .keeps hown (.constant _)⟩
      · rw [if_neg fun h => hkey h.2]
        exact .pure ⟨hsome, hown⟩

/-- What takes the place of a rule about the caller. -/
theorem callerNode_of_caller {ctx : Context} {expand : Expand} (he : ctx.catalog.entity e.id = .ok e)
    (hop : r.op ∈ callerOps) (husername : ctx.caller.username = some username) :
    (placeholder ctx expand e r).Yields fun node =>
      (AsksSelf r ∨ (e.field r.key).isSome) ∧ CallerNode e r node := by
  have hcontains (h : r.op = .containCurrentUser ∨ r.op = .notContainCurrentUser) :
      (Program.withLinks fun links => containsCaller (ctx.env links) ctx.caller.username e r).Yields
        fun node => (AsksSelf r ∨ (e.field r.key).isSome) ∧ CallerNode e r node := by
    have hself : ¬AsksSelf r := by
      rintro ⟨h', -⟩
      rcases h with h | h <;> rw [h] at h' <;> simp at h'
    rw [husername]
    exact .withLinks fun links => (callerNode_containsCaller hself).mono fun node h => ⟨.inr h.1, h.2⟩
  have hsame (h : r.op = .sameAsUser ∨ r.op = .notSameAsUser) :
      (sameAsCaller ctx e r).Yields fun node =>
        (AsksSelf r ∨ (e.field r.key).isSome) ∧ CallerNode e r node := by
    rw [sameAsCaller, husername]
    have hfollows (links : Links) : (callerRule (ctx.env links) (some username) e r).Ensures
        fun found => (AsksSelf r ∨ (e.field r.key).isSome) ∧ found.Follows e r :=
      follows_callerRule he h
    refine (Program.Yields.withLinks hfollows).bind fun found hfound => ?_
    cases found with
    | settled c => exact .pure hfound
    | chain path startKey =>
      exact .next fun keys => .pure ⟨hfound.1, .keeps hfound.2 (.inr ⟨_, _, rfl⟩)⟩
  simp only [callerOps, List.mem_cons, List.not_mem_nil, or_false] at hop
  rw [placeholder.eq_def]
  rcases hop with h | h | h | h <;> rw [h]
  · exact hcontains (.inl h)
  · exact hcontains (.inr h)
  · exact hsame (.inl h)
  · exact hsame (.inr h)

/-- Without a caller there is nobody to ask for. -/
theorem keeps_of_nobody {ctx : Context} {expand : Expand} (hop : r.op ∈ callerOps)
    (husername : ctx.caller.username = none) :
    (placeholder ctx expand e r).Yields (Keeps r.key r.joined) := by
  simp only [callerOps, List.mem_cons, List.not_mem_nil, or_false] at hop
  rw [placeholder.eq_def]
  rcases hop with h | h | h | h <;> rw [h]
  · rw [husername]
    exact .withLinks fun links => .pure (.constant _)
  · rw [husername]
    exact .withLinks fun links => .pure (.constant _)
  all_goals
    dsimp only
    rw [sameAsCaller, husername]
    have hsettled (links : Links) : (callerRule (ctx.env links) none e r).Ensures
        fun found => ∃ truth, found = .settled (Condition.constant truth) := .pure ⟨_, rfl⟩
    refine (Program.Yields.withLinks hsettled).bind fun found hfound => ?_
    obtain ⟨truth, rfl⟩ := hfound
    exact .pure (.constant truth)

/-- Only placeholders are resolved, and they are of two kinds. -/
theorem memberships_or_callerOps {ctx : Context} {expand : Expand} {t : List Exchange}
    (h : (placeholder ctx expand e r).Runs t (.ok node)) :
    r.op ∈ memberships ∨ r.op ∈ callerOps := by
  rw [placeholder.eq_def] at h
  cases hop : r.op <;> rw [hop] at h <;>
    first | decide | cases (Program.Runs.ofResult_iff.1 h).2

end

/-- A membership under an alias comes to the same on whatever object it is resolved, and what takes its
place asks for the key of the joined object. A rule about the caller is resolved by what its key is to the
object itself. What takes its place asks for the key of the joined object too, unless it comes to user
fields of the object itself: then it asks for those, and nothing is left of the alias. -/
theorem aliases_kept (ctx : Context) (expand : Expand) {e : Entity} {r : Rule} {a : String}
    (he : ctx.catalog.entity e.id = .ok e) (hjoined : r.joined = some a) {t : List Exchange}
    {node : Condition} (hrun : (placeholder ctx expand e r).Runs t (.ok node)) :
    (r.op ∈ memberships ∨ r.op ∈ callerOps) ∧
    (r.op ∈ memberships → ∀ e', (placeholder ctx expand e' r).Runs t (.ok node)) ∧
    (r.op ∈ memberships ∨ ¬AsksOwnUsers e r →
      ∀ (env : Env) (frame : Frame) (joined : Entity), frame.aliased? a = some joined →
        ∀ s ∈ node.rules,
          (∃ truth, (condition env frame (.rule s)).result = .ok (some (.constant truth))) ∨
            s.joined = some a ∧ subject frame s.key s.joined = subjectOf joined a r.key) ∧
    (r.op ∈ callerOps → ctx.caller.username ≠ none →
      (AsksSelf r ∨ (e.field r.key).isSome) ∧ (AsksOwnUsers e r → Drops e node)) := by
  have hnamed : r.joined ≠ none := by simp [hjoined]
  have hop := memberships_or_callerOps hrun
  refine ⟨hop, fun hmembership e' => placeholder_joined hmembership hnamed e' ▸ hrun, ?_, ?_⟩
  · intro hkeeps env frame joined haliased
    refine Keeps.subject (hjoined ▸ ?_) haliased
    by_cases hmembership : r.op ∈ memberships
    · exact (keeps_of_membership hmembership hnamed).of_runs hrun
    · have hown := hkeeps.resolve_left hmembership
      have hcaller := hop.resolve_left hmembership
      cases husername : ctx.caller.username with
      | none => exact (keeps_of_nobody hcaller husername).of_runs hrun
      | some username => exact ((callerNode_of_caller he hcaller husername).of_runs hrun).2.1 hown
  · intro hcaller husername
    obtain ⟨username, husername⟩ := Option.ne_none_iff_exists'.1 husername
    obtain ⟨hfound, hnode⟩ := (callerNode_of_caller he hcaller husername).of_runs hrun
    exact ⟨hfound, hnode.2⟩

/-- Employees whose boss's boss is the caller. -/
theorem aliases_kept_boss :
    let boss := Field.new "b" "boss" (.connection (.between "employee" .one .many))
    let employee := Entity.new "employee" "Employee" "EMPLOYEE" [boss, Field.new "l" "login" (.user false)]
    let catalog : Catalog := ⟨[employee], [], []⟩
    let links := LinkMap.ofCatalog {} catalog
    let ctx : Context := ⟨⟨{}, {}, .tenant⟩, catalog, ⟨some "alice", "en", true⟩, .everything⟩
    let r : Rule := ⟨"boss", .containCurrentUser, .null, some "boss"⟩
    let frame := (Frame.base employee).withAlias "boss" employee
    let users : Condition := .group .or [.ofRule "login" .equals (.str "alice")]
    let node : Condition := .ofRule "boss" .haveRelation users.toJson (some "boss")
    catalog.entity employee.id = .ok employee ∧ r.joined = some "boss" ∧
      (placeholder ctx (expansion ctx 0 []) employee r).Runs
        [⟨.links, links⟩, ⟨.consult "employee", ()⟩] (.ok node) ∧
      ∀ s ∈ node.rules,
        (∃ truth, (condition (ctx.env links) frame (.rule s)).result = .ok (some (.constant truth))) ∨
          s.joined = some "boss" ∧ subject frame s.key s.joined = subjectOf employee "boss" "boss" := by
  intro boss employee catalog links ctx r frame users node
  have hrun : (placeholder ctx (expansion ctx 0 []) employee r).Runs
      [⟨.links, links⟩, ⟨.consult "employee", ()⟩] (.ok node) := by
    dsimp only [boss, employee, catalog, links, ctx, r, users, node]
    exact ⟨_, _, rfl, _, _, rfl, rfl, rfl⟩
  obtain ⟨-, -, hkeeps, -⟩ := aliases_kept ctx _ rfl rfl hrun
  have hown : ¬AsksOwnUsers employee r := by
    rintro (⟨⟨-, hkey⟩, -⟩ | ⟨-, f, hf, hconnection⟩)
    · exact absurd hkey (by decide)
    · cases hf
      cases hconnection
  exact ⟨rfl, rfl, hrun, hkeeps (.inr hown) _ _ _ rfl⟩

/-- Invoices whose customer is managed by the caller: with managers of their own it is these who are asked
for, and without them nobody is. -/
theorem aliases_dropped :
    let customer := Entity.new "customer" "Customer" "CUSTOMER" [Field.new "m" "manager" (.user false)]
    let c := Field.new "c" "customer" (.connection (.between "customer" .one .many))
    let managed := Entity.new "invoice" "Invoice" "INVOICE" [c, Field.new "m" "manager" (.user false)]
    let plain := Entity.new "invoice" "Invoice" "INVOICE" [c]
    let ctx (invoice : Entity) : Context := ⟨⟨{}, {}, .tenant⟩, ⟨[invoice, customer], [], []⟩,
      ⟨some "alice", "en", true⟩, .everything⟩
    let links (invoice : Entity) := LinkMap.ofCatalog {} (ctx invoice).catalog
    let frame (invoice : Entity) := (Frame.base invoice).withAlias "c" customer
    let r : Rule := ⟨"manager", .containCurrentUser, .null, some "c"⟩
    let node : Condition := .ofRule "manager" .equals (.str "alice")
    ((placeholder (ctx managed) (expansion (ctx managed) 0 []) managed r).Runs
        [⟨.links, links managed⟩] (.ok node) ∧
      (condition ((ctx managed).env (links managed)) (frame managed) node).result =
        .ok (some (.compare (.column ⟨"INVOICE", "manager"⟩) .eq (.value (.str "alice")))) ∧
      (frame managed).aliased? "c" = some customer ∧ ¬∀ s ∈ node.rules, s.joined = some "c") ∧
    (placeholder (ctx plain) (expansion (ctx plain) 0 []) plain r).Runs [⟨.links, links plain⟩]
      (.error (.fieldNotFound "Invoice" "manager")) ∧ (customer.field "manager").isSome := by
  intro customer c managed plain ctx links frame r node
  refine ⟨⟨?_, ?_, rfl, fun h => ?_⟩, ?_, rfl⟩
  · dsimp only [customer, c, managed, ctx, links, r, node]
    exact ⟨_, _, rfl, rfl, rfl⟩
  · dsimp only [customer, c, managed, ctx, links, frame, node]
    rfl
  · cases h _ (List.mem_singleton.2 rfl)
  · dsimp only [customer, c, plain, ctx, links, r]
    exact ⟨_, _, rfl, rfl, rfl⟩

end CatalogQuery.Reduce
