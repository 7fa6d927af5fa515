import CatalogQuery.Proofs.Compile.Groups
import CatalogQuery.Proofs.Reduce.Restriction
import CatalogQuery.Proofs.Session.Finding

/-!
# Granting a scope

Of the scopes that cover an object, a row has to pass the filter of one. A filter that has rules but is
compiled to nothing grants every record only as long as no other filter restricts something. Main
statement: with more scopes a find finds all it found before, unless the scopes it had restrict nothing
although their filters have rules; then it loses the rows that pass none of the filters that do
restrict something.
-/

namespace CatalogQuery

open Sql Condition

/-! ## Placeholders that stand for the same -/

namespace Condition

mutual
/-- The tree with what its placeholders stand for in their places. -/
def resolve (ρ : Rule → Condition) : Condition → Condition
  | group g nodes => group g (resolveIn ρ nodes)
  | rule r => if r.op.isPlaceholder then ρ r else rule r
  | malformed node => malformed node
def resolveIn (ρ : Rule → Condition) : List Condition → List Condition
  | [] => []
  | c :: rest => c.resolve ρ :: resolveIn ρ rest
end

theorem resolveIn_eq_map (ρ : Rule → Condition) (cs : List Condition) :
    resolveIn ρ cs = cs.map (resolve ρ) := by
  induction cs with
  | nil => rfl
  | cons c rest ih => rw [resolveIn, ih, List.map_cons]

mutual
theorem eq_resolve {ρ : Rule → Condition} : (c : Condition) → {c' : Condition} →
    c.ResolvesTo (fun r => pure (ρ r)) c' → c' = c.resolve ρ
  | group g nodes, c', h => by
    rw [ResolvesTo] at h
    obtain ⟨nodes', rfl, hnodes⟩ := h
    rw [resolve, eq_resolveIn nodes hnodes]
  | rule r, c', h => by
    rw [ResolvesTo] at h
    rw [resolve]
    split at h <;> rename_i hop
    · rw [if_pos hop]
      exact Eq.symm h
    · rw [if_neg hop]
      exact h
  | malformed node, c', h => by
    rw [ResolvesTo] at h
    rw [resolve, h]
theorem eq_resolveIn {ρ : Rule → Condition} : (cs : List Condition) → {cs' : List Condition} →
    ResolveTo (fun r => pure (ρ r)) cs cs' → cs' = resolveIn ρ cs
  | [], cs', h => by
    rw [ResolveTo] at h
    rw [resolveIn, h]
  | c :: rest, cs', h => by
    rw [ResolveTo] at h
    obtain ⟨c', rest', rfl, hc, hrest⟩ := h
    rw [resolveIn, eq_resolve c hc, eq_resolveIn rest hrest]
end

theorem resolve_of_isEmpty {ρ : Rule → Condition} {c : Condition} (h : c.isEmpty = true) :
    c.resolve ρ = c :=
  (eq_resolve c (resolvesTo_of_isEmpty c h)).symm

theorem resolve_and (ρ : Rule → Condition) {c d : Condition} (hc : c.isEmpty = false) :
    (c.and d).resolve ρ =
      if d.isEmpty then c.resolve ρ else group .and [c.resolve ρ, d.resolve ρ] := by
  rw [Condition.and, hc, if_neg (by simp)]
  split
  · rfl
  · rw [resolve, resolveIn, resolveIn, resolveIn]

end Condition

namespace Reduce

open Compile (CompilesTo Passes)

/-- What is substituted for placeholders that come to the same wherever they stand. -/
theorem substituted_eq_resolve (ρ : Rule → Condition) (c : Condition) :
    substituted c ((occurrences c).map fun o => ρ o.1) = c.resolve ρ := by
  refine eq_resolve c (resolvesTo_substituted ?_)
  rw [List.forall₂_map_right_iff, List.forall₂_same]
  exact fun o _ => rfl

theorem resolve_anyOf (ρ : Rule → Condition) (cs : List Condition) :
    (anyOf cs).resolve ρ = anyOf (cs.map (resolve ρ)) := by
  match cs with
  | [] => rfl
  | [c] => rfl
  | c :: d :: rest =>
    show (group .or (c :: d :: rest)).resolve ρ = group .or ((c :: d :: rest).map (resolve ρ))
    rw [resolve, resolveIn_eq_map]

/-! ## What scopes let through -/

section

variable {env : Compile.Env} {frame : Compile.Frame} {ρ : Rule → Condition}
  {ν : Predicate → Bool} {p : Option Predicate}

theorem passes_anyOf {cs : List Condition} (hne : cs ≠ []) (h : CompilesTo env frame (anyOf cs) p) :
    Passes ν p ↔ (∀ c ∈ cs, CompilesTo env frame c none) ∨
      ∃ c ∈ cs, ∃ t, CompilesTo env frame c (some t) ∧ Passes ν (some t) := by
  match cs with
  | [] => exact absurd rfl hne
  | [c] =>
    have hc : CompilesTo env frame c p := h
    cases p with
    | none =>
      exact iff_of_true trivial (.inl (by simpa using hc))
    | some t =>
      constructor
      · exact fun hpass => .inr ⟨c, by simp, t, hc, hpass⟩
      · rintro (hnone | ⟨d, hd, t', ht', hpass⟩)
        · cases hc.unique (hnone c (by simp))
        · cases List.mem_singleton.1 hd
          cases hc.unique ht'
          exact hpass
  | c :: d :: rest => exact h.passes_or

theorem exists_of_compilesTo_anyOf {cs : List Condition} (h : CompilesTo env frame (anyOf cs) p) :
    ∀ c ∈ cs, ∃ q, CompilesTo env frame c q := by
  match cs with
  | [] => simp
  | [c] => exact List.forall_mem_singleton.2 ⟨p, h⟩
  | c :: d :: rest =>
    obtain ⟨_, -, hnodes, -⟩ := Compile.CompilesTo.exists_parts h
    exact fun c hc => (hnodes c hc).imp fun _ => And.left

/-- Whether a row that makes the tests `ν` true gets past the filters of scopes: one of them has no
rules, none of them restricts anything, or the row passes one that does. -/
def LetThrough (env : Compile.Env) (frame : Compile.Frame) (ρ : Rule → Condition)
    (filters : List Condition) (ν : Predicate → Bool) : Prop :=
  (∃ d ∈ filters, d.isEmpty = true) ∨
    (∀ d ∈ filters, CompilesTo env frame (d.resolve ρ) none) ∨
    ∃ d ∈ filters, ∃ t, CompilesTo env frame (d.resolve ρ) (some t) ∧ Passes ν (some t)

/-- A row passes a narrowed condition if it passes the condition and gets past the filters. -/
theorem passes_narrow {e : Entity} {scopes : List Scope} {c : Condition}
    (hne : scopeFilters e scopes ≠ [])
    (h : CompilesTo env frame (((Sight.covered scopes).narrow e c).resolve ρ) p) :
    ((∀ d ∈ scopeFilters e scopes, d.isEmpty = false) →
      ∀ d ∈ scopeFilters e scopes, ∃ q, CompilesTo env frame (d.resolve ρ) q) ∧
    ∃ own, CompilesTo env frame (c.resolve ρ) own ∧
      ∀ ν, Passes ν p ↔ Passes ν own ∧ LetThrough env frame ρ (scopeFilters e scopes) ν := by
  by_cases hempty : ∃ d ∈ scopeFilters e scopes, d.isEmpty = true
  · -- A filter without rules grants every record, and nothing is narrowed.
    obtain ⟨d, hd, hdempty⟩ := id hempty
    obtain ⟨t, ht, hcovers, rfl⟩ := mem_scopeFilters.1 hd
    rw [narrow_of_granted ht hcovers hdempty] at h
    refine ⟨fun hruled => ?_, p, h, fun ν => (and_iff_left (.inl hempty)).symm⟩
    cases (hruled _ hd).symm.trans hdempty
  have hfilters : ∀ d ∈ scopeFilters e scopes, d.isEmpty = false := fun d hd =>
    Bool.eq_false_iff.2 fun hdempty => hempty ⟨d, hd, hdempty⟩
  have hgrants : (scopeFilters e scopes).map (resolve ρ) ≠ [] := by simpa using hne
  have hany {q : Option Predicate} (ν : Predicate → Bool)
      (hq : CompilesTo env frame ((anyOf (scopeFilters e scopes)).resolve ρ) q) :
      Passes ν q ↔ LetThrough env frame ρ (scopeFilters e scopes) ν := by
    rw [resolve_anyOf] at hq
    rw [passes_anyOf hgrants hq, LetThrough, or_iff_right hempty]
    rw [List.forall_mem_map]
    simp only [List.mem_map, exists_exists_and_eq_and]
  have heach {q : Option Predicate}
      (hq : CompilesTo env frame ((anyOf (scopeFilters e scopes)).resolve ρ) q) :
      ∀ d ∈ scopeFilters e scopes, ∃ q, CompilesTo env frame (d.resolve ρ) q := by
    rw [resolve_anyOf] at hq
    intro d hd
    exact exists_of_compilesTo_anyOf hq _ (List.mem_map_of_mem hd)
  rw [narrow_of_filtered hne hfilters, resolve_and ρ (isEmpty_anyOf hne hfilters)] at h
  split at h
  · -- Where there are no rules in the condition, the filters are all that is left.
    rename_i hc
    refine ⟨fun _ => heach h, none, ?_, fun ν => ?_⟩
    · rw [resolve_of_isEmpty hc]
      exact ⟨1, by rw [Compile.within, Compile.tree_of_isEmpty c hc]; rfl⟩
    · rw [hany ν h]
      exact (and_iff_right trivial).symm
  · obtain ⟨parts, -, hnodes, -⟩ := h.exists_parts
    obtain ⟨q, hq, -⟩ := hnodes _ List.mem_cons_self
    obtain ⟨own, hown, -⟩ := hnodes (c.resolve ρ) (by simp)
    refine ⟨fun _ => heach hq, own, hown, fun ν => ?_⟩
    rw [h.passes_and, List.forall_mem_cons, List.forall_mem_singleton, ← hany ν hq]
    constructor
    · exact fun hpass => ⟨hpass.2 own hown, hpass.1 q hq⟩
    · rintro ⟨hpass, hthrough⟩
      refine ⟨fun q' hq' => ?_, fun own' hown' => ?_⟩
      · rwa [hq'.unique hq]
      · rwa [hown'.unique hown]

theorem scopeFilters_mono {e : Entity} {scopes scopes' : List Scope}
    (h : ∀ s ∈ scopes, s ∈ scopes') : ∀ d ∈ scopeFilters e scopes, d ∈ scopeFilters e scopes' := by
  intro d hd
  obtain ⟨s, hs, hcovers, rfl⟩ := mem_scopeFilters.1 hd
  exact mem_scopeFilters.2 ⟨s, h s hs, hcovers, rfl⟩

/-- Whether further filters hide a row that gets past the first ones: these have rules but restrict
nothing, and of the further ones, all of which have rules, some restrict something and the row passes
none of those. -/
structure Hides (env : Compile.Env) (frame : Compile.Frame) (ρ : Rule → Condition)
    (filters filters' : List Condition) (ν : Predicate → Bool) : Prop where
  unrestricting : ∀ d ∈ filters, CompilesTo env frame (d.resolve ρ) none
  ruled : ∀ d ∈ filters', d.isEmpty = false
  restricting : ∃ d ∈ filters', ∃ t, CompilesTo env frame (d.resolve ρ) (some t)
  fails : ∀ d ∈ filters', ∀ t, CompilesTo env frame (d.resolve ρ) (some t) → ¬ Passes ν (some t)

/-- A row that gets past some filters gets past more of them unless these hide it. -/
theorem LetThrough.iff_not_hides {filters filters' : List Condition}
    (hsub : ∀ d ∈ filters, d ∈ filters')
    (hcompiles : (∀ d ∈ filters', d.isEmpty = false) →
      ∀ d ∈ filters', ∃ q, CompilesTo env frame (d.resolve ρ) q)
    (h : LetThrough env frame ρ filters ν) :
    LetThrough env frame ρ filters' ν ↔ ¬ Hides env frame ρ filters filters' ν := by
  constructor
  · rintro (⟨d, hd, hempty⟩ | hnone | ⟨d, hd, t, ht, hpass⟩) hhides
    · cases (hhides.ruled d hd).symm.trans hempty
    · obtain ⟨d, hd, t, ht⟩ := hhides.restricting
      cases (hnone d hd).unique ht
    · exact hhides.fails d hd t ht hpass
  · intro hshown
    rcases h with ⟨d, hd, hempty⟩ | hnone | ⟨d, hd, t, ht, hpass⟩
    · exact .inl ⟨d, hsub d hd, hempty⟩
    · by_contra hstopped
      obtain ⟨hruled, hrest⟩ := not_or.1 hstopped
      obtain ⟨hsome, hfails⟩ := not_or.1 hrest
      have hruled : ∀ d ∈ filters', d.isEmpty = false := fun d hd =>
        Bool.eq_false_iff.2 fun hempty => hruled ⟨d, hd, hempty⟩
      refine hshown ⟨hnone, hruled, ?_, fun d hd t ht hpass => hfails ⟨d, hd, t, ht, hpass⟩⟩
      by_contra hvoid
      refine hsome fun d hd => ?_
      obtain ⟨q, hq⟩ := hcompiles hruled d hd
      cases q with
      | none => exact hq
      | some t => exact absurd ⟨d, hd, t, hq⟩ hvoid
    · exact .inr (.inr ⟨d, hsub d hd, t, ht, hpass⟩)

end

end Reduce

/-! ## Finds with more scopes -/

open Reduce Compile

/-- The statements of two finds that differ in their conditions differ in what these are compiled to
on the rows of one frame. -/
theorem frame_of_findSelect {env : Env} {e : Entity} {o : FindOptions} {c c' : Condition}
    {statement statement' : Select} (h : (findSelect env e o c).result = .ok statement)
    (h' : (findSelect env e o c').result = .ok statement') :
    ∃ frame, (findSource env e o.joins).result = .ok (statement.source, frame) ∧
      CompilesTo env frame c statement.filter ∧ CompilesTo env frame c' statement'.filter ∧
      statement' = { statement with filter := statement'.filter } := by
  obtain ⟨⟨source, frame⟩, hsource, h₁⟩ := Traced.result_bind_ok.1 h
  obtain ⟨computed, hcomputed, h₂⟩ := Traced.result_bind_ok.1 h₁
  obtain ⟨filter, hfilter, h₃⟩ := Traced.result_bind_ok.1 h₂
  obtain ⟨order, horder, h₄⟩ := Traced.result_bind_ok.1 h₃
  obtain ⟨_, hsource', h₁'⟩ := Traced.result_bind_ok.1 h'
  cases hsource.symm.trans hsource'
  obtain ⟨_, hcomputed', h₂'⟩ := Traced.result_bind_ok.1 h₁'
  cases hcomputed.symm.trans hcomputed'
  obtain ⟨filter', hfilter', h₃'⟩ := Traced.result_bind_ok.1 h₂'
  obtain ⟨_, horder', h₄'⟩ := Traced.result_bind_ok.1 h₃'
  cases horder.symm.trans horder'
  cases h₄
  cases h₄'
  exact ⟨frame, hsource, ⟨_, hfilter⟩, ⟨_, hfilter'⟩, rfl⟩

/-- With more scopes a caller finds every row that was found with some that cover the object, unless
these restrict nothing although their filters have rules and the row passes none of the filters that
do restrict something. As long as one of the scopes grants every record or has a filter that
restricts something, no row is lost. -/
theorem granting_keeps_iff {s : Session} {entity : String} {o : FindOptions} {caller : Caller}
    {t t' : List Exchange} {f f' : Finding} (h : f.Of s entity o caller t)
    (h' : f'.Of s entity o caller t') (hsame : f.Alongside f') {scopes scopes' : List Scope}
    (hsight : f.sight = .covered scopes) (hsight' : f'.sight = .covered scopes')
    (hcovers : ∃ scope ∈ scopes, scope.covers entity = true)
    (hmore : ∀ scope ∈ scopes, scope ∈ scopes') (ρ : Rule → Condition)
    (hnodes : f.nodes = (occurrences (f.merged o)).map (ρ ·.1))
    (hnodes' : f'.nodes = (occurrences (f'.merged o)).map (ρ ·.1)) :
    ∃ frame,
      (findSource (f.env s caller) f.object o.joins).result = .ok (f.statement.source, frame) ∧
      f'.statement = { f.statement with filter := f'.statement.filter } ∧
      let filters := scopeFilters f.narrowed scopes
      (∀ D T, ∀ scene ∈ f.statement.scenes D T, scene ∈ f'.statement.scenes D T ↔
        ¬ Hides (f.env s caller) frame ρ filters (scopeFilters f.narrowed scopes')
          (tests D T scene)) ∧
      ((∃ d ∈ filters, d.isEmpty = true ∨
          ∃ p, CompilesTo (f.env s caller) frame (d.resolve ρ) (some p)) →
        ∀ D T, ∀ scene ∈ f.statement.scenes D T, scene ∈ f'.statement.scenes D T) := by
  have hmerged : f.merged o = (Sight.covered scopes).narrow f.narrowed o.condition := by
    rw [Finding.merged, hsight]
  have hmerged' : f'.merged o = (Sight.covered scopes').narrow f.narrowed o.condition := by
    rw [Finding.merged, hsight', hsame.narrowed]
  have henv : f'.env s caller = f.env s caller := by
    rw [Finding.env, Finding.env, hsame.catalog, hsame.links, hsame.filters]
  have hselect := h.statement
  have hselect' := h'.statement
  rw [hnodes, substituted_eq_resolve] at hselect
  rw [hnodes', substituted_eq_resolve, henv, ← hsame.object] at hselect'
  -- The two finds differ only in the scopes by which one condition is narrowed on one frame.
  obtain ⟨frame, hsource, hcompiled, hcompiled', hstatement⟩ :=
    frame_of_findSelect hselect hselect'
  rw [hmerged] at hcompiled
  rw [hmerged'] at hcompiled'
  have hsub := scopeFilters_mono (e := f.narrowed) hmore
  have hne : scopeFilters f.narrowed scopes ≠ [] := by
    obtain ⟨scope, hscope, hcover⟩ := hcovers
    obtain ⟨catalog, u, -, hnarrowed, -⟩ := h.nodes
    rw [← Catalog.id_of_entity hnarrowed] at hcover
    exact List.ne_nil_of_mem (mem_scopeFilters.2 ⟨scope, hscope, hcover, rfl⟩)
  obtain ⟨d, hd⟩ := List.exists_mem_of_ne_nil _ hne
  obtain ⟨-, own, hown, hpass⟩ := passes_narrow hne hcompiled
  obtain ⟨hcompiles, own', hown', hpass'⟩ :=
    passes_narrow (List.ne_nil_of_mem (hsub d hd)) hcompiled'
  cases hown.unique hown'
  have hkeeps (D : Dialect) (T : Tables) : ∀ scene ∈ f.statement.scenes D T,
      scene ∈ f'.statement.scenes D T ↔ ¬ Hides (f.env s caller) frame ρ
        (scopeFilters f.narrowed scopes) (scopeFilters f.narrowed scopes') (tests D T scene) := by
    intro scene hscene
    rw [Select.scenes, List.mem_filter, ← passes_tests, hpass] at hscene
    obtain ⟨hrow, hasked, hthrough⟩ := hscene
    rw [← hthrough.iff_not_hides hsub hcompiles, hstatement, Select.scenes, List.mem_filter,
      ← passes_tests, hpass']
    exact ⟨fun hfound => hfound.2.2, fun hthrough' => ⟨hrow, hasked, hthrough'⟩⟩
  refine ⟨frame, hsource, hstatement, hkeeps, fun hgrants D T scene hscene => ?_⟩
  rw [hkeeps D T scene hscene]
  intro hhides
  obtain ⟨d, hd, hempty | ⟨p, hp⟩⟩ := hgrants
  · cases (hhides.ruled d (hsub d hd)).symm.trans hempty
  · cases (hhides.unrestricting d hd).unique hp

/-- Who is shown the open invoices finds them all when shown the own ones as well. -/
theorem granting_keeps_iff_open :
    let invoice := Entity.new "invoice" "Invoice" "INVOICE"
      [.new "s" "status" .text, .new "o" "owner" (.user false)]
    let catalog : Catalog := ⟨[invoice], [], []⟩
    let s : Session := ⟨{}, {}, .tenant⟩
    let alice : Caller := { username := some "alice" }
    let opened : Scope := ⟨"s1", "", true, [], .eq "status" (.str "open")⟩
    let own : Scope := ⟨"s2", "", true, [], .ofRule "owner" .sameAsUser .null⟩
    let mine := Condition.eq "owner" (.str "alice")
    let is (column v : String) : Predicate :=
      .compare (.column ⟨"INVOICE", column⟩) .eq (.value (.str v))
    let finding (scopes : List Scope) (nodes : List Condition) (p : Predicate) : Finding :=
      ⟨catalog, invoice, invoice, [], LinkMap.ofCatalog {} catalog, .covered scopes, nodes,
        ⟨false, [.all "INVOICE"], ⟨"INVOICE", none, []⟩, some p, [], some 1000, none⟩, []⟩
    let f := finding [opened] [] (is "status" "open")
    let f' := finding [own, opened] [mine] (.glued .or [is "owner" "alice", is "status" "open"])
    (∃ t t', f.Of s "invoice" {} alice t ∧ f'.Of s "invoice" {} alice t') ∧
      f.Alongside f' ∧ opened.covers "invoice" = true ∧
      f.nodes = (occurrences (f.merged {})).map (fun _ => mine) ∧
      f'.nodes = (occurrences (f'.merged {})).map (fun _ => mine) ∧
      ∀ D T, ∀ scene ∈ f.statement.scenes D T, scene ∈ f'.statement.scenes D T := by
  intro invoice catalog s alice opened own mine is finding f f'
  let scope (id key op : String) (value : Json) : Row := [("uuid", .str id), ("allowAll", .bool true),
    ("filters", .obj [("key", .str key), ("rule", .str op), ("value", value)])]
  let first := scope "s1" "status" "equals" (.str "open")
  let second := scope "s2" "owner" "same_as_user" .null
  obtain ⟨t, -, h, -⟩ : ∃ t u, f.Of s "invoice" {} alice t ∧
      (s.find "invoice" {} alice).Runs (t ++ u) (.ok []) := by
    apply Finding.exists_of_answers (Request.underScopes {} catalog [first] fun _ => []) rfl rfl
    all_goals
      dsimp only [invoice, catalog, s, alice, opened, is, finding, f, scope, first]
      rfl
  obtain ⟨t', -, h', -⟩ : ∃ t u, f'.Of s "invoice" {} alice t ∧
      (s.find "invoice" {} alice).Runs (t ++ u) (.ok []) := by
    apply Finding.exists_of_answers
      (Request.underScopes {} catalog [second, first] fun _ => []) rfl rfl
    all_goals
      dsimp only [invoice, catalog, s, alice, opened, own, mine, is, finding, f', scope, first, second]
      rfl
  have hsame : f.Alongside f' := ⟨rfl, rfl, rfl, rfl, rfl⟩
  have hnodes : f.nodes = (occurrences (f.merged {})).map (fun _ => mine) := by
    dsimp only [invoice, catalog, opened, is, finding, f]
    rfl
  have hnodes' : f'.nodes = (occurrences (f'.merged {})).map (fun _ => mine) := by
    dsimp only [invoice, catalog, opened, own, mine, is, finding, f']
    rfl
  obtain ⟨frame, hsource, -, -, hkeeps⟩ := granting_keeps_iff h h' hsame rfl rfl
    ⟨opened, List.mem_cons_self, rfl⟩ (List.subset_cons_self _ _) (fun _ => mine) hnodes hnodes'
  refine ⟨⟨t, t', h, h'⟩, hsame, rfl, hnodes, hnodes', hkeeps ⟨_, List.mem_cons_self, .inr ?_⟩⟩
  cases hsource
  exact ⟨is "status" "open", 1, rfl⟩

/-- Who is shown all invoices by a filter that asks for nothing loses the closed ones when shown the
open ones as well. -/
theorem granting_hides_closed :
    let invoice := Entity.new "invoice" "Invoice" "INVOICE"
      [.new "a" "amount" .number, .new "s" "status" .text]
    let catalog : Catalog := ⟨[invoice], [], []⟩
    let s : Session := ⟨{}, {}, .tenant⟩
    let alice : Caller := { username := some "alice" }
    let all : Scope := ⟨"s1", "", true, [], .ofRule "amount" .greater .null⟩
    let opened : Scope := ⟨"s2", "", true, [], .eq "status" (.str "open")⟩
    let finding (scopes : List Scope) (p : Option Predicate) : Finding :=
      ⟨catalog, invoice, invoice, [], LinkMap.ofCatalog {} catalog, .covered scopes, [],
        ⟨false, [.all "INVOICE"], ⟨"INVOICE", none, []⟩, p, [], some 1000, none⟩, []⟩
    let f := finding [all] none
    let f' := finding [all, opened]
      (some (.compare (.column ⟨"INVOICE", "status"⟩) .eq (.value (.str "open"))))
    let closed : Stored := ([("status", "closed")].lookup ·)
    let T : Tables := fun _ => [closed]
    (∃ t t', f.Of s "invoice" {} alice t ∧ f'.Of s "invoice" {} alice t') ∧
      f.Alongside f' ∧ all.covers "invoice" = true ∧
      f.statement.scenes .mute T = [Scene.empty.add "INVOICE" closed] ∧
      f'.statement.scenes .mute T = [] := by
  intro invoice catalog s alice all opened finding f f' closed T
  let scope (id key op : String) (value : Json) : Row := [("uuid", .str id), ("allowAll", .bool true),
    ("filters", .obj [("key", .str key), ("rule", .str op), ("value", value)])]
  let first := scope "s1" "amount" "greater" .null
  let second := scope "s2" "status" "equals" (.str "open")
  obtain ⟨t, -, h, -⟩ : ∃ t u, f.Of s "invoice" {} alice t ∧
      (s.find "invoice" {} alice).Runs (t ++ u) (.ok []) := by
    apply Finding.exists_of_answers (Request.underScopes {} catalog [first] fun _ => []) rfl rfl
    all_goals
      dsimp only [invoice, catalog, s, alice, all, finding, f, scope, first]
      rfl
  obtain ⟨t', -, h', -⟩ : ∃ t u, f'.Of s "invoice" {} alice t ∧
      (s.find "invoice" {} alice).Runs (t ++ u) (.ok []) := by
    apply Finding.exists_of_answers
      (Request.underScopes {} catalog [first, second] fun _ => []) rfl rfl
    all_goals
      dsimp only [invoice, catalog, s, alice, all, opened, finding, f', scope, first, second]
      rfl
  refine ⟨⟨t, t', h, h'⟩, ⟨rfl, rfl, rfl, rfl, rfl⟩, rfl, rfl, ?_⟩
  rfl

end CatalogQuery
