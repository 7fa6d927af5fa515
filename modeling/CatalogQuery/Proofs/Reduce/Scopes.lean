import CatalogQuery.Proofs.Compile.Rows
import CatalogQuery.Proofs.Reduce.Substitution

/-!
# Reducing enforces scopes

Main statement: what a tree is reduced to for a caller is passed only by rows that pass the tree
itself and the filter of a scope that covers the object; without such a scope no row passes it.
This holds for the caller's own tree and for those of the stored filters in it alike. For the
system no tree is narrowed.
-/

namespace CatalogQuery

namespace Condition

mutual
/-- Whether a tree comes of another one when each placeholder gives way to a node that `f` may come
to and nothing else changes. -/
def ResolvesTo (f : Rule → Program Condition) : Condition → Condition → Prop
  | group g nodes, c' => ∃ nodes', c' = group g nodes' ∧ ResolveTo f nodes nodes'
  | rule r, c' => if r.op.isPlaceholder then (f r).MayGive c' else c' = rule r
  | malformed node, c' => c' = malformed node
def ResolveTo (f : Rule → Program Condition) : List Condition → List Condition → Prop
  | [], cs' => cs' = []
  | c :: rest, cs' => ∃ c' rest', cs' = c' :: rest' ∧ c.ResolvesTo f c' ∧ ResolveTo f rest rest'
end

variable {f : Rule → Program Condition}

theorem resolveTo_iff {cs cs' : List Condition} :
    ResolveTo f cs cs' ↔ List.Forall₂ (ResolvesTo f) cs cs' := by
  induction cs generalizing cs' with
  | nil => rw [ResolveTo, List.forall₂_nil_left_iff]
  | cons c rest ih =>
    rw [ResolveTo, List.forall₂_cons_left_iff]
    constructor
    · rintro ⟨c', rest', rfl, hc, hrest⟩
      exact ⟨c', rest', hc, ih.1 hrest, rfl⟩
    · rintro ⟨c', rest', hc, hrest, rfl⟩
      exact ⟨c', rest', rfl, hc, ih.2 hrest⟩

mutual
theorem resolvesTo_graft {σ : Nat → Option Condition} :
    (k : Nat) → (c : Condition) → (∀ o ∈ c.rules.zipIdx k, (rule o.1).ResolvesTo f (leaf σ o)) →
      c.ResolvesTo f (graft σ k c)
  | k, group g nodes, h => by
    rw [ResolvesTo, graft]
    exact ⟨_, rfl, resolveTo_graftIn k nodes h⟩
  | k, rule r, h => by
    have hr := h (r, k) (by simp [rules])
    rw [graft]
    exact hr
  | _, malformed _, _ => by
    rw [ResolvesTo, graft]
theorem resolveTo_graftIn {σ : Nat → Option Condition} :
    (k : Nat) → (cs : List Condition) →
      (∀ o ∈ (rulesOf cs).zipIdx k, (rule o.1).ResolvesTo f (leaf σ o)) →
      ResolveTo f cs (graftIn σ k cs)
  | _, [], _ => by
    rw [ResolveTo, graftIn]
  | k, c :: rest, h => by
    rw [rulesOf, List.zipIdx_append, List.forall_mem_append] at h
    rw [ResolveTo, graftIn]
    exact ⟨_, _, rfl, resolvesTo_graft k c h.1, resolveTo_graftIn _ rest h.2⟩
end

mutual
/-- A tree without rules has no placeholders. -/
theorem resolvesTo_of_isEmpty : (c : Condition) → c.isEmpty = true → c.ResolvesTo f c
  | group g nodes, h => by
    rw [isEmpty] at h
    rw [ResolvesTo]
    exact ⟨nodes, rfl, resolveTo_of_allEmpty nodes h⟩
  | rule _, h => by cases h
  | malformed _, h => by cases h
theorem resolveTo_of_allEmpty : (cs : List Condition) → allEmpty cs = true → ResolveTo f cs cs
  | [], _ => by rw [ResolveTo]
  | c :: rest, h => by
    rw [allEmpty, Bool.and_eq_true] at h
    rw [ResolveTo]
    exact ⟨c, rest, rfl, resolvesTo_of_isEmpty c h.1, resolveTo_of_allEmpty rest h.2⟩
end

end Condition

namespace Reduce

open Condition

/-- What placeholders of a tree were resolved to, in their places. -/
theorem resolvesTo_substituted {f : Rule → Program Condition} {c : Condition}
    {nodes : List Condition}
    (h : List.Forall₂ (fun o node => (f o.1).MayGive node) (occurrences c) nodes) :
    c.ResolvesTo f (substituted c nodes) := by
  refine resolvesTo_graft 0 c fun o ho => ?_
  rw [ResolvesTo, leaf]
  cases hop : o.1.op.isPlaceholder with
  | false =>
    rw [resolutions_of_not_placeholder nodes ho hop, if_neg (by simp)]
    rfl
  | true =>
    -- A placeholder has the place in the order of resolving that its node has among the nodes.
    obtain ⟨k, hk, hok⟩ := List.getElem_of_mem (mem_occurrences.2 ⟨ho, hop⟩)
    have hlength := h.length_eq
    have hmem : (o, nodes[k]) ∈ (occurrences c).zip nodes := by
      rw [← hok]
      exact List.mem_iff_getElem.2 ⟨k, by simp [← hlength, hk], by simp⟩
    have hgive := (List.forall₂_iff_zip.1 h).2 hmem
    rw [resolutions_of_mem_zip hmem, if_pos rfl]
    exact hgive

/-! ## Any of several filters -/

theorem isEmpty_anyOf {cs : List Condition} (hne : cs ≠ []) (h : ∀ c ∈ cs, c.isEmpty = false) :
    (anyOf cs).isEmpty = false := by
  match cs with
  | [] => exact absurd rfl hne
  | [c] => exact h c (by simp)
  | c :: d :: rest =>
    have hc := h c (by simp)
    show allEmpty (c :: d :: rest) = false
    rw [allEmpty, hc, Bool.false_and]

theorem resolvesTo_anyOf {f : Rule → Program Condition} {cs : List Condition} {c' : Condition}
    (h : (anyOf cs).ResolvesTo f c') :
    ∃ cs', List.Forall₂ (ResolvesTo f) cs cs' ∧ c' = anyOf cs' := by
  have hgroup (hor : (group .or cs).ResolvesTo f c') :
      ∃ cs', List.Forall₂ (ResolvesTo f) cs cs' ∧ c' = group .or cs' := by
    rw [ResolvesTo] at hor
    obtain ⟨cs', rfl, hcs⟩ := hor
    exact ⟨cs', resolveTo_iff.1 hcs, rfl⟩
  -- One filter stands by itself, and so does what it is resolved to.
  match cs with
  | [] =>
    obtain ⟨cs', hcs, rfl⟩ := hgroup h
    cases hcs
    exact ⟨[], .nil, rfl⟩
  | [c] => exact ⟨[c'], .cons h .nil, rfl⟩
  | c :: d :: rest =>
    obtain ⟨cs', hcs, rfl⟩ := hgroup h
    obtain ⟨_, _, _, hcs', rfl⟩ := List.forall₂_cons_left_iff.1 hcs
    obtain ⟨_, _, _, _, rfl⟩ := List.forall₂_cons_left_iff.1 hcs'
    exact ⟨_, hcs, rfl⟩

theorem exists_holds_of_anyOf {env : Compile.Env} {levels : Nat} {frame : Compile.Frame}
    {ν : Sql.Predicate → Bool} {cs : List Condition}
    (h : Compile.Holds env levels frame ν (anyOf cs)) (hne : cs ≠ []) :
    ∃ c ∈ cs, Compile.Holds env levels frame ν c := by
  match cs with
  | [] => exact absurd rfl hne
  | [c] => exact ⟨c, by simp, h⟩
  | c :: d :: rest => exact Compile.Holds.of_or h (by simp)

/-! ## Narrowing -/

theorem scopeFilters_eq_nil {e : Entity} {scopes : List Scope} :
    scopeFilters e scopes = [] ↔ ∀ s ∈ scopes, s.covers e.id = false := by
  rw [scopeFilters, List.map_eq_nil_iff, List.filter_eq_nil_iff]
  simp

theorem mem_scopeFilters {e : Entity} {scopes : List Scope} {c : Condition} :
    c ∈ scopeFilters e scopes ↔
      ∃ s ∈ scopes, s.covers e.id = true ∧ s.filter.retain (ownsKey e) = c := by
  simp only [scopeFilters, List.mem_map, List.mem_filter, and_assoc]

theorem narrow_of_not_covered {e : Entity} {scopes : List Scope}
    (h : ∀ s ∈ scopes, s.covers e.id = false) (c : Condition) :
    (Sight.covered scopes).narrow e c = Condition.constant false := by
  rw [Sight.narrow, scopeFilters_eq_nil.2 h]
  rfl

theorem narrow_of_granted {e : Entity} {scopes : List Scope} {s : Scope} (hs : s ∈ scopes)
    (hcovers : s.covers e.id = true) (hempty : (s.filter.retain (ownsKey e)).isEmpty = true)
    (c : Condition) : (Sight.covered scopes).narrow e c = c := by
  have hmem := mem_scopeFilters.2 ⟨s, hs, hcovers, rfl⟩
  have hany : (scopeFilters e scopes).any (·.isEmpty) = true := List.any_eq_true.2 ⟨_, hmem, hempty⟩
  have hne : (scopeFilters e scopes).isEmpty = false := by
    rw [List.isEmpty_eq_false_iff]
    exact List.ne_nil_of_mem hmem
  simp only [Sight.narrow, hne, hany, if_true]
  rfl

theorem narrow_of_filtered {e : Entity} {scopes : List Scope} (hne : scopeFilters e scopes ≠ [])
    (h : ∀ f ∈ scopeFilters e scopes, f.isEmpty = false) (c : Condition) :
    (Sight.covered scopes).narrow e c = (anyOf (scopeFilters e scopes)).and c := by
  have hany : (scopeFilters e scopes).any (·.isEmpty) = false := by
    rw [List.any_eq_false]
    intro f hf
    rw [h f hf]
    simp
  have hne : (scopeFilters e scopes).isEmpty = false := List.isEmpty_eq_false_iff.2 hne
  simp only [Sight.narrow, hne, hany]
  rfl

/-- What a tree that filters are joined to is resolved to is passed only by rows that pass the
resolved tree and one of the resolved filters. -/
theorem exists_of_resolvesTo_and {f : Rule → Program Condition} {filters : List Condition}
    {c c' : Condition} (hne : filters ≠ []) (hfilters : ∀ d ∈ filters, d.isEmpty = false)
    (h : ((anyOf filters).and c).ResolvesTo f c') :
    ∃ own grants, c.ResolvesTo f own ∧ List.Forall₂ (ResolvesTo f) filters grants ∧
      c' = (if c.isEmpty then anyOf grants else group .and [anyOf grants, own]) ∧
      ∀ env levels frame ν, Compile.Holds env levels frame ν c' →
        Compile.Holds env levels frame ν own ∧
        ∃ d ∈ grants, Compile.Holds env levels frame ν d := by
  have hlength {grants : List Condition} (hgrants : List.Forall₂ (ResolvesTo f) filters grants) :
      grants ≠ [] := by
    rintro rfl
    cases hgrants
    exact hne rfl
  rw [Condition.and, isEmpty_anyOf hne hfilters, if_neg (by simp)] at h
  split at h
  · -- An empty tree is left out, and a row passes it anyway.
    rename_i hempty
    obtain ⟨grants, hgrants, rfl⟩ := resolvesTo_anyOf h
    refine ⟨c, grants, resolvesTo_of_isEmpty c hempty, hgrants, (if_pos hempty).symm,
      fun env levels frame ν hholds => ?_⟩
    exact ⟨hholds.of_isEmpty hempty, exists_holds_of_anyOf hholds (hlength hgrants)⟩
  · rename_i hempty
    simp only [ResolvesTo, ResolveTo] at h
    obtain ⟨_, rfl, any', _, rfl, hany, own, _, rfl, hown, rfl⟩ := h
    obtain ⟨grants, hgrants, rfl⟩ := resolvesTo_anyOf hany
    refine ⟨own, grants, hown, hgrants, (if_neg hempty).symm,
      fun env levels frame ν hholds => ?_⟩
    -- A row that passes both nodes passes one of the filters in the first.
    have hboth := hholds.of_and
    exact ⟨hboth own (by simp), exists_holds_of_anyOf (hboth _ (by simp)) (hlength hgrants)⟩

/-! ## Trees -/

/-- The tree with each of its placeholders resolved. -/
def resolveAll (f : Rule → Program Condition) (c : Condition) : Program Condition := do
  let nodes ← (occurrences c).mapM fun o => f o.1
  pure (substituted c nodes)

theorem yields_resolveAll (f : Rule → Program Condition) (c : Condition) :
    (resolveAll f c).Yields (c.ResolvesTo f) := by
  rw [resolveAll]
  refine Program.Yields.bind (.forall₂ fun o _ => .mayGive _) fun nodes hnodes => ?_
  exact .pure (resolvesTo_substituted hnodes)

/-- A tree without placeholders stays as it is. -/
theorem resolveAll_of_resolved (f : Rule → Program Condition) {c : Condition} (hc : c.Resolved) :
    resolveAll f c = pure c := by
  have hsub := substituted_of_resolved hc
  rw [resolveAll, hsub.1, List.mapM_nil, pure_bind, hsub.2]

theorem resolveAll_constant (f : Rule → Program Condition) :
    resolveAll f (constant false) = pure (constant false) :=
  resolveAll_of_resolved f (resolved_constant false)

theorem reduceTree_of_entity {ctx : Context} {entity : String} {e : Entity}
    (he : ctx.catalog.entity entity = .ok e) (levels : Nat) (visiting : List String)
    (c : Condition) :
    reduceTree ctx levels visiting entity c =
      resolveAll (placeholder ctx (expansion ctx levels visiting) e) (ctx.sight.narrow e c) := by
  rw [reduceTree_eq, reduceWith_eq, he]
  rfl

/-! ## The directory -/

section

variable (s : Session) (d : Directory)

theorem walk_directory (env : Links → Compile.Env) (startKey username : String)
    (steps : List (Option Hop × Hop)) (keys : List Json) :
    walk { s with directory := d } env startKey username steps keys =
      walk s env startKey username steps keys := by
  induction steps generalizing keys with
  | nil => rfl
  | cons step rest ih =>
    simp only [walk, ih]
    rfl

variable (catalog : Catalog) (caller : Caller) (sight : Sight)

theorem placeholder_directory (expand : Expand) (e : Entity) (r : Rule) :
    placeholder ⟨{ s with directory := d }, catalog, caller, sight⟩ expand e r =
      placeholder ⟨s, catalog, caller, sight⟩ expand e r := by
  have hcaller : sameAsCaller ⟨{ s with directory := d }, catalog, caller, sight⟩ e r =
      sameAsCaller ⟨s, catalog, caller, sight⟩ e r := by
    simp only [sameAsCaller, walk_directory]
    rfl
  rw [placeholder.eq_def, placeholder.eq_def]
  split
  case h_9 | h_10 => exact hcaller
  all_goals rfl

theorem reduceTree_directory (levels : Nat) (visiting : List String) (entity : String)
    (c : Condition) :
    reduceTree ⟨{ s with directory := d }, catalog, caller, sight⟩ levels visiting entity c =
      reduceTree ⟨s, catalog, caller, sight⟩ levels visiting entity c := by
  have hwith (expand : Expand) (entity : String) (c : Condition) :
      reduceWith ⟨{ s with directory := d }, catalog, caller, sight⟩ expand entity c =
        reduceWith ⟨s, catalog, caller, sight⟩ expand entity c := by
    simp only [reduceWith_eq, placeholder_directory]
  -- Trees of stored filters are reduced at one level less.
  induction levels generalizing visiting entity c with
  | zero => exact hwith _ entity c
  | succ levels ih =>
    simp only [reduceTree, ih]
    exact hwith _ entity c

end

/-! ## Enforcement -/

/-- Scopes are enforced on the caller's tree and on those of the stored filters that are expanded on
the way, which go on with what the caller sees and each with its own object. Where no scope covers
the object nothing is left of a tree and nothing in it is resolved; a scope without rules leaves the
tree as it is; and otherwise a row passes what the tree comes to only if it passes the tree and the
filter of a scope. The system is spared all of this, and nothing depends on the directory then. -/
theorem reduce_enforces_scopes (s : Session) (caller : Caller) :
    (caller.isSystem = true → ∀ entity c,
      reduce s entity c caller = (do
        let catalog ← Program.catalog
        let _ ← Program.ofResult (catalog.entity entity)
        reduceTree ⟨s, catalog, caller, .everything⟩ catalog.storedFilters [] entity c) ∧
      ∀ d, reduce { s with directory := d } entity c caller = reduce s entity c caller) ∧
    (caller.isSystem = false → caller.username = none → ∀ entity c,
      reduce s entity c caller = (do
        let catalog ← Program.catalog
        let _ ← Program.ofResult (catalog.entity entity)
        reduceTree ⟨s, catalog, caller, .nothing⟩ catalog.storedFilters [] entity c)) ∧
    (caller.isSystem = false → ∀ username, caller.username = some username → ∀ entity c,
      reduce s entity c caller = (do
        let catalog ← Program.catalog
        let _ ← Program.ofResult (catalog.entity entity)
        let scopes ← s.directory.scopesOf s.channel username
        reduceTree ⟨s, catalog, caller, .covered scopes⟩ catalog.storedFilters [] entity c)) ∧
    (∀ ctx levels visiting stored, expansion ctx (levels + 1) visiting stored =
      if visiting.contains stored.id then cyclic (visiting ++ [stored.id])
      else reduceTree ctx levels (visiting ++ [stored.id]) stored.entity stored.condition) ∧
    (∀ env levels frame, (Compile.within env (levels + 1) frame (constant false)).result =
      .ok (some (.constant false))) ∧
    (Sql.Predicate.constant false).sql.toText = "1 = 0" ∧
    ∀ catalog sight levels visiting entity e c, catalog.entity entity = .ok e →
      let ctx : Context := ⟨s, catalog, caller, sight⟩
      let resolve := placeholder ctx (expansion ctx levels visiting) e
      let reduced := reduceTree ctx levels visiting entity c
      (sight = .everything → reduced = resolveAll resolve c) ∧
      (sight = .nothing → reduced = pure (constant false)) ∧
      ∀ scopes, sight = .covered scopes →
        ((∀ t ∈ scopes, t.covers e.id = false) → reduced = pure (constant false)) ∧
        ((∃ t ∈ scopes, t.covers e.id = true ∧ (t.filter.retain (ownsKey e)).isEmpty = true) →
          reduced = resolveAll resolve c) ∧
        ((∃ t ∈ scopes, t.covers e.id = true) →
          (∀ t ∈ scopes, t.covers e.id = true → (t.filter.retain (ownsKey e)).isEmpty = false) →
          reduced = resolveAll resolve ((anyOf (scopeFilters e scopes)).and c) ∧
          reduced.Yields fun c' => ∃ own grants, c.ResolvesTo resolve own ∧
            List.Forall₂ (ResolvesTo resolve) (scopeFilters e scopes) grants ∧
            c' = (if c.isEmpty then anyOf grants else group .and [anyOf grants, own]) ∧
            ∀ env levels frame ν, Compile.Holds env levels frame ν c' →
              Compile.Holds env levels frame ν own ∧
              ∃ d ∈ grants, Compile.Holds env levels frame ν d) := by
  refine ⟨fun hsystem entity c => ?_, fun hsystem hnone entity c => ?_,
    fun hsystem username hsome entity c => ?_, fun _ _ _ _ => rfl, fun _ _ _ => rfl,
    by decide, ?_⟩
  · -- What the system sees is not asked for, so the directory has no part in it.
    have hsight (s : Session) : s.sight caller = pure .everything := if_pos hsystem
    refine ⟨?_, fun d => ?_⟩
    · rw [reduce, hsight]
      rfl
    · simp only [reduce, hsight, pure_bind, reduceTree_directory]
  · have hsight : s.sight caller = pure .nothing := by
      rw [Session.sight, hsystem, hnone]
      rfl
    rw [reduce, hsight]
    rfl
  · have hsight : s.sight caller = Sight.covered <$> s.directory.scopesOf s.channel username := by
      rw [Session.sight, hsystem, hsome]
      rfl
    simp only [reduce, hsight, map_eq_pure_bind, bind_assoc, pure_bind]
  · -- Only the narrowed tree is resolved, so the cases are those of narrowing.
    intro catalog sight levels visiting entity e c he ctx resolve reduced
    have hentity : ctx.catalog.entity entity = .ok e := he
    have hreduced : reduced = resolveAll resolve (sight.narrow e c) :=
      reduceTree_of_entity hentity levels visiting c
    rw [hreduced]
    refine ⟨?_, ?_, ?_⟩
    · rintro rfl
      rfl
    · rintro rfl
      exact resolveAll_constant resolve
    · rintro scopes rfl
      refine ⟨fun h => ?_, fun h => ?_, fun hsome h => ?_⟩
      · rw [narrow_of_not_covered h, resolveAll_constant]
      · obtain ⟨t, ht, hcovers, hempty⟩ := h
        rw [narrow_of_granted ht hcovers hempty]
      · have hne : scopeFilters e scopes ≠ [] := by
          obtain ⟨t, ht, hcovers⟩ := hsome
          exact List.ne_nil_of_mem (mem_scopeFilters.2 ⟨t, ht, hcovers, rfl⟩)
        have hfilters : ∀ d ∈ scopeFilters e scopes, d.isEmpty = false := by
          intro d hd
          obtain ⟨t, ht, hcovers, rfl⟩ := mem_scopeFilters.1 hd
          exact h t ht hcovers
        rw [narrow_of_filtered hne hfilters]
        refine ⟨rfl, ?_⟩
        exact (yields_resolveAll resolve _).mono fun c' hc' =>
          exists_of_resolvesTo_and hne hfilters hc'

/-- Two scopes that cover an object, of which a row has to pass one. -/
theorem reduce_enforces_scopes_two :
    let person := Entity.new "p" "Person" "PERSON" [.new "a" "age" .text, .new "n" "name" .text]
    let catalog : Catalog := ⟨[person], [], []⟩
    let named := Condition.eq "name" (.str "x")
    let young := Condition.eq "age" (.str "1")
    let old := Condition.eq "age" (.str "90")
    let scopes : List Scope := [⟨"s", "", true, [], young⟩, ⟨"t", "", false, ["p"], old⟩]
    let ctx : Context := ⟨⟨{}, {}, .tenant⟩, catalog, {}, .covered scopes⟩
    reduceTree ctx 0 [] "p" named = pure (.group .and [.group .or [young, old], named]) ∧
    ∀ env levels frame ν,
      Compile.Holds env levels frame ν (.group .and [.group .or [young, old], named]) →
      Compile.Holds env levels frame ν named ∧
        (Compile.Holds env levels frame ν young ∨ Compile.Holds env levels frame ν old) := by
  intro person catalog named young old scopes ctx
  have hall := (reduce_enforces_scopes ⟨{}, {}, .tenant⟩ {}).2.2.2.2.2.2 catalog (.covered scopes) 0
    [] "p" person named rfl
  have hreduced : reduceTree ctx 0 [] "p" named =
      pure (.group .and [.group .or [young, old], named]) := rfl
  have hyields := ((hall.2.2 scopes rfl).2.2 ⟨_, List.mem_cons_self, rfl⟩ (by decide)).2
  rw [show reduceTree _ 0 [] "p" named = _ from hreduced] at hyields
  obtain ⟨own, grants, hown, hgrants, -, hrows⟩ := hyields
  rw [show scopeFilters person scopes = [young, old] from rfl] at hgrants
  obtain ⟨a, _, ha, hrest, rfl⟩ := List.forall₂_cons_left_iff.1 hgrants
  obtain ⟨b, _, hb, hnil, rfl⟩ := List.forall₂_cons_left_iff.1 hrest
  cases hnil
  simp only [named, young, old, Condition.eq, ofRule, ResolvesTo, RuleOp.isPlaceholder]
    at hown ha hb
  cases hown
  cases ha
  cases hb
  refine ⟨hreduced, fun env levels frame ν hholds => ?_⟩
  obtain ⟨hnamed, d, hd, hpasses⟩ := hrows env levels frame ν hholds
  simp only [List.mem_cons, List.not_mem_nil, or_false] at hd
  rcases hd with rfl | rfl
  · exact ⟨hnamed, .inl hpasses⟩
  · exact ⟨hnamed, .inr hpasses⟩

end Reduce

end CatalogQuery
