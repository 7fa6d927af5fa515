import CatalogQuery.Proofs.Reduce.Unreplaced

/-!
# The filters that formula fields get

Filters of formula fields that hold placeholders are reduced one after the other, for one object after
the other, and each is kept under the id of its field. Main statement: what is kept under an id is what
the filter of the last field with that id came to, whichever object the field belongs to.
-/

namespace CatalogQuery.Reduce

/-- What has to be reduced for the fields of an object, in their order. -/
def pendingOf (links : Links) (e : Entity) : List Pending :=
  match links e.id with
  | .ok m => e.fields.filterMap (pending? m)
  | .error _ => []

def lastWith (id : String) (ps : List Pending) : Option Pending := (ps.filter (·.id = id)).getLast?

theorem lastWith_append (id : String) (ps : List Pending) (p : Pending) :
    lastWith id (ps ++ [p]) = if p.id = id then some p else lastWith id ps := by
  rw [lastWith, lastWith, List.filter_append]
  by_cases h : p.id = id <;> simp [h]

theorem lastWith_eq_some {id : String} {ps : List Pending} {p : Pending} (h : lastWith id ps = some p) :
    p ∈ ps ∧ p.id = id := by
  have hmem := List.mem_of_getLast? h
  simpa using hmem

theorem lastWith_eq_none {id : String} {ps : List Pending} (h : lastWith id ps = none) :
    ∀ p ∈ ps, p.id ≠ id := by
  rw [lastWith, List.getLast?_eq_none_iff, List.filter_eq_nil_iff] at h
  simpa using h

theorem find_setFilter (id field : String) (c : Condition) (filters : List (String × Condition)) :
    (setFilter field c filters).find? (·.1 == id) =
      if field = id then some (field, c) else filters.find? (·.1 == id) := by
  rw [setFilter, List.find?_append, List.find?_filter]
  by_cases h : field = id
  · have hnone : filters.find? (fun q => decide (decide (q.1 ≠ field) = true ∧ (q.1 == id) = true)) =
        none := by simp [h]
    rw [hnone, if_pos h]
    simp [h]
  · have hsame : (fun q : String × Condition =>
        decide (decide (q.1 ≠ field) = true ∧ (q.1 == id) = true)) = fun q => q.1 == id := by
      funext q
      by_cases hq : q.1 = id <;> simp [hq, Ne.symm h]
    rw [hsame, if_neg h]
    simp [h]

/-- Whether filters are what the pending ones have come to in a run, under each id the last of them. -/
def Kept (ctx : Context) (t : List Exchange) (ps : List Pending) (filters : List (String × Condition)) :
    Prop :=
  ∀ id, Option.Rel (fun p q => p.id = q.1 ∧ ∃ u, u <:+: t ∧ (p.reduced ctx).Runs u (.ok q.2))
    (lastWith id ps) (filters.find? (·.1 == id))

theorem Kept.nil (ctx : Context) (t : List Exchange) : Kept ctx t [] [] := fun _ => .none

variable {ctx : Context} {t u : List Exchange} {ps : List Pending}
  {filters filters' : List (String × Condition)} {links : LinkMap}

theorem Kept.mono (h : Kept ctx u ps filters) (hu : u <:+: t) : Kept ctx t ps filters := by
  intro id
  have hid := h id
  generalize lastWith id ps = p at hid ⊢
  generalize filters.find? (·.1 == id) = q at hid ⊢
  cases hid with
  | none => exact .none
  | some h =>
    obtain ⟨hid, v, hv, hrun⟩ := h
    exact .some ⟨hid, v, hv.trans hu, hrun⟩

/-- A filter that is reduced takes the place of any earlier one with its id. -/
theorem Kept.set (h : Kept ctx t ps filters) {p : Pending} {c : Condition} (hu : u <:+: t)
    (hp : (p.reduced ctx).Runs u (.ok c)) : Kept ctx t (ps ++ [p]) (setFilter p.id c filters) := by
  intro id
  rw [lastWith_append, find_setFilter]
  by_cases hid : p.id = id
  · rw [if_pos hid, if_pos hid]
    exact .some ⟨rfl, u, hu, hp⟩
  · rw [if_neg hid, if_neg hid]
    exact h id

theorem kept_of_fieldFilters {fields : List Field} (h : Kept ctx t ps filters) (hu : u <:+: t)
    (hrun : (fieldFilters ctx links fields filters).Runs u (.ok filters')) :
    Kept ctx t (ps ++ fields.filterMap (pending? links)) filters' := by
  -- On the fields that are left: what is kept so far is what `ps` has come to.
  induction fields generalizing ps filters u with
  | nil =>
    cases hrun.2
    simpa using h
  | cons f rest ih =>
    rw [fieldFilters_cons] at hrun
    rw [List.filterMap_cons]
    cases hpending : pending? links f with
    | none =>
      rw [hpending] at hrun
      exact ih h hu hrun
    | some p =>
      rw [hpending] at hrun
      obtain ⟨u₁, u₂, c, rfl, hreduced, hrest⟩ := Program.Runs.bind_ok.1 hrun
      have hset := h.set ((List.prefix_append u₁ u₂).isInfix.trans hu) hreduced
      have hall := ih hset ((List.suffix_append u₁ u₂).isInfix.trans hu) hrest
      rwa [List.append_assoc, List.singleton_append] at hall

theorem kept_of_entityFilters {T : Tenant} {es : List Entity} (hT : ∀ x ∈ u, x.Under T)
    (h : Kept ctx t ps filters) (hu : u <:+: t)
    (hrun : (entityFilters ctx es filters).Runs u (.ok filters')) :
    Kept ctx t (ps ++ es.flatMap (pendingOf T.links)) filters' := by
  induction es generalizing ps filters u with
  | nil =>
    cases hrun.2
    simpa using h
  | cons e rest ih =>
    obtain ⟨u₁, u₂, m, rfl, hlinks, hrun⟩ := Program.Runs.bind_ok.1 hrun
    obtain ⟨u₂, u₃, next, rfl, hfields, hrest⟩ := Program.Runs.bind_ok.1 hrun
    obtain ⟨links, rfl, hm⟩ := Program.Runs.linksOf_iff.1 hlinks
    have hknown : links = T.links := hT ⟨.links, links⟩ (by simp)
    rw [hknown] at hm
    have hpending : pendingOf T.links e = e.fields.filterMap (pending? m) := by
      rw [pendingOf, ← hm]
    -- The fields of the object come first, and what they come to is what the other objects start from.
    have hrest' : u₂ ++ u₃ <:+: t := (List.suffix_append _ _).isInfix.trans hu
    have hnext := kept_of_fieldFilters h ((List.prefix_append u₂ u₃).isInfix.trans hrest') hfields
    have hall := ih (fun x hx => hT x (by simp [hx])) hnext
      ((List.suffix_append u₂ u₃).isInfix.trans hrest') hrest
    rwa [List.flatMap_cons, hpending, ← List.append_assoc]

/-- The filters of some objects are kept in the order of the objects. -/
theorem kept_of_formulaFilters {T : Tenant} {s : Session} {es : List Entity} {caller : Caller}
    (hT : ∀ x ∈ u, x.Under T) (hrun : (formulaFilters s es caller).Runs u (.ok filters)) :
    Kept ⟨s, T.catalog, caller, .everything⟩ u (es.flatMap (pendingOf T.links)) filters := by
  obtain ⟨catalog, v, rfl, hrun'⟩ := Program.Runs.catalog_bind_iff.1 hrun
  obtain ⟨hcatalog, hT⟩ := List.forall_mem_cons.1 hT
  have hcatalog : catalog = T.catalog := hcatalog
  rw [hcatalog] at hrun'
  exact kept_of_entityFilters hT (.nil _ _) (List.suffix_cons _ _).isInfix hrun'

end CatalogQuery.Reduce
