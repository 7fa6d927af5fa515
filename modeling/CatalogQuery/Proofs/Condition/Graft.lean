import CatalogQuery.Proofs.Condition.Spots

/-!
# Other nodes in place of rules

The rules of a tree are counted from left to right. A graft puts other nodes in the places of some
of them and leaves groups, malformed nodes and all other rules as they are. Main statement: replacing
the first rule of a kind in a graft gives the graft with one more node.
-/

namespace CatalogQuery.Condition

mutual
/-- The tree with `σ i` in place of its `i`-th rule where that is a node; the first rule is the one
that the count begins with. -/
def graft (σ : Nat → Option Condition) : Nat → Condition → Condition
  | i, group glue nodes => group glue (graftIn σ i nodes)
  | i, rule r => (σ i).getD (rule r)
  | _, malformed node => malformed node
def graftIn (σ : Nat → Option Condition) : Nat → List Condition → List Condition
  | _, [] => []
  | i, c :: rest => graft σ i c :: graftIn σ (i + c.rules.length) rest
end

/-- What stands in the place of the `i`-th rule. -/
def leaf (σ : Nat → Option Condition) (o : Rule × Nat) : Condition := (σ o.2).getD (rule o.1)

/-- `σ` with one more node. -/
def put (σ : Nat → Option Condition) (i : Nat) (node : Condition) (j : Nat) : Option Condition :=
  if j = i then some node else σ j

theorem leaf_put_self (σ : Nat → Option Condition) (node : Condition) (o : Rule × Nat) :
    leaf (put σ o.2 node) o = node := by
  simp [leaf, put]

theorem leaf_put_of_ne (σ : Nat → Option Condition) {i : Nat} (node : Condition) {o : Rule × Nat}
    (h : o.2 ≠ i) : leaf (put σ i node) o = leaf σ o := by
  simp [leaf, put, h]

mutual
theorem graft_congr {σ τ : Nat → Option Condition} :
    (k : Nat) → (c : Condition) → (∀ o ∈ c.rules.zipIdx k, leaf σ o = leaf τ o) →
      graft σ k c = graft τ k c
  | k, group glue nodes, h => by
    rw [graft, graft, graftIn_congr k nodes h]
  | k, rule r, h => by
    have hr := h (r, k) (by simp [rules])
    rw [graft, graft]
    exact hr
  | _, malformed _, _ => rfl
theorem graftIn_congr {σ τ : Nat → Option Condition} :
    (k : Nat) → (cs : List Condition) → (∀ o ∈ (rulesOf cs).zipIdx k, leaf σ o = leaf τ o) →
      graftIn σ k cs = graftIn τ k cs
  | _, [], _ => rfl
  | k, c :: rest, h => by
    rw [rulesOf, List.zipIdx_append, List.forall_mem_append] at h
    rw [graftIn, graftIn, graft_congr k c h.1, graftIn_congr _ rest h.2]
end

mutual
/-- Without other nodes nothing is replaced. -/
theorem graft_none : (k : Nat) → (c : Condition) → graft (fun _ => none) k c = c
  | k, group glue nodes => by rw [graft, graftIn_none k nodes]
  | _, rule _ => rfl
  | _, malformed _ => rfl
theorem graftIn_none : (k : Nat) → (cs : List Condition) → graftIn (fun _ => none) k cs = cs
  | _, [] => rfl
  | k, c :: rest => by rw [graftIn, graft_none k c, graftIn_none _ rest]
end

mutual
theorem rules_graft (σ : Nat → Option Condition) :
    (k : Nat) → (c : Condition) →
      (graft σ k c).rules = (c.rules.zipIdx k).flatMap fun o => (leaf σ o).rules
  | k, group glue nodes => by
    rw [graft, rules, rules]
    exact rulesOf_graftIn σ k nodes
  | k, rule r => by simp [graft, rules, leaf]
  | _, malformed _ => rfl
theorem rulesOf_graftIn (σ : Nat → Option Condition) :
    (k : Nat) → (cs : List Condition) →
      rulesOf (graftIn σ k cs) = ((rulesOf cs).zipIdx k).flatMap fun o => (leaf σ o).rules
  | _, [] => rfl
  | k, c :: rest => by
    rw [graftIn, rulesOf, rulesOf, List.zipIdx_append, List.flatMap_append, rules_graft σ k c,
      rulesOf_graftIn σ _ rest]
end

mutual
/-- The first rule of a kind that no node took the place of yet. -/
theorem replaceFirst_graft {p : Rule → Bool} {σ : Nat → Option Condition} (node : Condition)
    {r : Rule} {i : Nat} (hr : p r = true) (hi : σ i = none) :
    (k : Nat) → (c : Condition) → (r, i) ∈ c.rules.zipIdx k →
      (∀ o ∈ c.rules.zipIdx k, o.2 < i → ∀ s ∈ (leaf σ o).rules, p s = false) →
      replaceFirst p node (graft σ k c) = some (graft (put σ i node) k c)
  | k, group glue nodes, hmem, h => by
    rw [graft, replaceFirst, replaceIn_graft node hr hi k nodes hmem h]
    rfl
  | k, rule s, hmem, h => by
    simp only [rules, List.zipIdx_cons, List.zipIdx_nil, List.mem_singleton, Prod.mk.injEq] at hmem
    obtain ⟨rfl, rfl⟩ := hmem
    simp [graft, replaceFirst, hi, hr, put]
  | k, malformed _, hmem, _ => by simp [rules] at hmem
theorem replaceIn_graft {p : Rule → Bool} {σ : Nat → Option Condition} (node : Condition)
    {r : Rule} {i : Nat} (hr : p r = true) (hi : σ i = none) :
    (k : Nat) → (cs : List Condition) → (r, i) ∈ (rulesOf cs).zipIdx k →
      (∀ o ∈ (rulesOf cs).zipIdx k, o.2 < i → ∀ s ∈ (leaf σ o).rules, p s = false) →
      replaceIn p node (graftIn σ k cs) = some (graftIn (put σ i node) k cs)
  | k, [], hmem, _ => by simp [rulesOf] at hmem
  | k, c :: rest, hmem, h => by
    rw [rulesOf, List.zipIdx_append, List.forall_mem_append] at h
    rw [rulesOf, List.zipIdx_append, List.mem_append] at hmem
    rw [graftIn, replaceIn]
    rcases hmem with hmem | hmem
    · -- Rules of the other nodes come later.
      have hrest : graftIn (put σ i node) (k + c.rules.length) rest =
          graftIn σ (k + c.rules.length) rest := by
        apply graftIn_congr
        intro o ho
        have hlt := List.snd_lt_add_of_mem_zipIdx hmem
        have hle := List.le_snd_of_mem_zipIdx ho
        exact leaf_put_of_ne σ node (by omega)
      rw [replaceFirst_graft node hr hi k c hmem h.1, graftIn, hrest]
    · have hle := List.le_snd_of_mem_zipIdx hmem
      have hbefore : ∀ o ∈ c.rules.zipIdx k, o.2 < i := by
        intro o ho
        have hlt := List.snd_lt_add_of_mem_zipIdx ho
        omega
      have hc : graft (put σ i node) k c = graft σ k c := by
        apply graft_congr
        intro o ho
        have hlt := hbefore o ho
        exact leaf_put_of_ne σ node (by omega)
      have hnone : replaceFirst p node (graft σ k c) = none := by
        apply replaceFirst_eq_none
        rw [rules_graft]
        intro s hs
        obtain ⟨o, ho, hs⟩ := List.mem_flatMap.1 hs
        exact h.1 o ho (hbefore o ho) s hs
      rw [hnone, replaceIn_graft node hr hi _ rest hmem h.2, graftIn, hc]
      rfl
end

theorem find?_graft {p : Rule → Bool} {σ : Nat → Option Condition} {c : Condition} {r : Rule}
    {i : Nat} {before after : List (Rule × Nat)} (h : c.rules.zipIdx = before ++ (r, i) :: after)
    (hbefore : ∀ o ∈ before, ∀ s ∈ (leaf σ o).rules, p s = false) (hr : p r = true)
    (hi : σ i = none) : (graft σ 0 c).find? p = some r := by
  have hnone : (before.flatMap fun o => (leaf σ o).rules).find? p = none := by
    rw [List.find?_eq_none]
    intro s hs
    obtain ⟨o, ho, hs⟩ := List.mem_flatMap.1 hs
    rw [hbefore o ho s hs]
    simp
  rw [find?_eq, rules_graft, h, List.flatMap_append, List.flatMap_cons, List.find?_append, hnone]
  simp [leaf, hi, rules, hr]

end CatalogQuery.Condition
