import CatalogQuery.Proofs.Condition.Truth

/-!
# What is left of a restricted condition

Main statements: restricting a tree keeps the rules that satisfy the test and all malformed nodes, in
their order, and leaves nothing behind only where there was nothing to keep; and it leaves a tree as it
is that is restricted already.
-/

namespace CatalogQuery.Condition

/-- Whether a leaf stays when the rules of a tree are restricted. -/
def stays (keep : Rule → Bool) : Condition → Bool
  | rule r => keep r
  | _ => true

mutual
theorem isEmpty_of_leaves : (c : Condition) → c.leaves = [] → c.isEmpty = true
  | group _ nodes, h => by
    rw [isEmpty]
    exact allEmpty_of_leavesOf nodes h
  | rule _, h => by cases h
  | malformed _, h => by cases h
theorem allEmpty_of_leavesOf : (cs : List Condition) → leavesOf cs = [] → allEmpty cs = true
  | [], _ => rfl
  | c :: rest, h => by
    rw [leavesOf, List.append_eq_nil_iff] at h
    rw [allEmpty, isEmpty_of_leaves c h.1, allEmpty_of_leavesOf rest h.2]
    rfl
end

theorem isEmpty_iff {c : Condition} : c.isEmpty = true ↔ c.leaves = [] :=
  ⟨leaves_of_isEmpty c, isEmpty_of_leaves c⟩

/-- The rule that a node is. -/
def rule? : Condition → Option Rule
  | rule r => some r
  | _ => none

mutual
/-- The rules of a tree are those of its leaves that are no malformed nodes. -/
theorem rules_eq : (c : Condition) → c.rules = c.leaves.filterMap rule?
  | group _ nodes => rulesOf_eq nodes
  | rule _ => rfl
  | malformed _ => rfl
theorem rulesOf_eq : (cs : List Condition) → rulesOf cs = (leavesOf cs).filterMap rule?
  | [] => rfl
  | c :: rest => by rw [rulesOf, leavesOf, List.filterMap_append, rules_eq c, rulesOf_eq rest]
end

theorem rule_mem_leaves {r : Rule} (c : Condition) : rule r ∈ c.leaves ↔ r ∈ c.rules := by
  rw [rules_eq, List.mem_filterMap]
  constructor
  · exact fun h => ⟨rule r, h, rfl⟩
  · rintro ⟨leaf, hleaf, hr⟩
    cases leaf <;> cases hr
    exact hleaf

mutual
theorem group_not_mem_leaves {g : Glue} {nodes : List Condition} :
    (c : Condition) → group g nodes ∉ c.leaves
  | group _ cs => group_not_mem_leavesOf cs
  | rule _ => by simp [leaves]
  | malformed _ => by simp [leaves]
theorem group_not_mem_leavesOf {g : Glue} {nodes : List Condition} :
    (cs : List Condition) → group g nodes ∉ leavesOf cs
  | [] => by simp [leavesOf]
  | c :: rest => by
    rw [leavesOf, List.mem_append, not_or]
    exact ⟨group_not_mem_leaves c, group_not_mem_leavesOf rest⟩
end

mutual
theorem leaves_retain (keep : Rule → Bool) :
    (c : Condition) → (c.retain keep).leaves = c.leaves.filter (stays keep)
  | group _ nodes => leavesOf_retainIn keep nodes
  | rule r => by
    rw [retain]
    cases h : keep r <;> simp [leaves, stays, h, empty, leavesOf]
  | malformed _ => rfl
theorem leavesOf_retainIn (keep : Rule → Bool) :
    (cs : List Condition) → leavesOf (retainIn keep cs) = (leavesOf cs).filter (stays keep)
  | [] => rfl
  | c :: rest => by
    rw [retainIn, leavesOf, List.filter_append, ← leaves_retain keep c,
      ← leavesOf_retainIn keep rest]
    split
    · -- A node that is dropped has no leaves.
      rename_i hempty
      rw [leaves_of_isEmpty _ hempty, List.nil_append]
    · rfl
end

theorem rules_retain (keep : Rule → Bool) (c : Condition) :
    (c.retain keep).rules = c.rules.filter keep := by
  have hleaf : (fun leaf => if stays keep leaf = true then rule? leaf else none) =
      fun leaf => (rule? leaf).filter keep := by
    funext leaf
    cases leaf with
    | group g nodes => rfl
    | malformed node => rfl
    | rule r => cases h : keep r <;> simp [stays, rule?, Option.filter, h]
  rw [rules_eq, rules_eq, leaves_retain, List.filterMap_filter, List.filter_filterMap, hleaf]

theorem mem_rules_retain {keep : Rule → Bool} {c : Condition} {r : Rule} :
    r ∈ (c.retain keep).rules ↔ r ∈ c.rules ∧ keep r = true := by
  rw [rules_retain, List.mem_filter]

theorem isEmpty_retain {keep : Rule → Bool} {c : Condition} :
    (c.retain keep).isEmpty = true ↔ ∀ leaf ∈ c.leaves, stays keep leaf = false := by
  rw [isEmpty_iff, leaves_retain, List.filter_eq_nil_iff]
  simp only [Bool.not_eq_true]

/-- A restricted tree is empty if there was no rule to be kept and no malformed node. -/
theorem isEmpty_retain_iff {keep : Rule → Bool} {c : Condition} :
    (c.retain keep).isEmpty = true ↔
      (∀ r ∈ c.rules, keep r = false) ∧ ∀ node, malformed node ∉ c.leaves := by
  rw [isEmpty_retain]
  constructor
  · intro h
    refine ⟨fun r hr => h (rule r) ((rule_mem_leaves c).2 hr), fun node hnode => ?_⟩
    cases h (malformed node) hnode
  · rintro ⟨hrules, hnodes⟩ leaf hleaf
    cases leaf with
    | group g nodes => exact absurd hleaf (group_not_mem_leaves c)
    | rule r => exact hrules r ((rule_mem_leaves c).1 hleaf)
    | malformed node => exact absurd hleaf (hnodes node)

/-! ## Nodes below the root -/

mutual
/-- The nodes of a tree below its root. -/
def descendants : Condition → List Condition
  | group _ nodes => descendantsOf nodes
  | _ => []
def descendantsOf : List Condition → List Condition
  | [] => []
  | c :: rest => c :: c.descendants ++ descendantsOf rest
end

mutual
/-- Restricting leaves no group without rules and malformed nodes below the root. -/
theorem descendants_retain (keep : Rule → Bool) :
    (c : Condition) → ∀ d ∈ (c.retain keep).descendants, d.isEmpty = false
  | group _ nodes => descendantsOf_retainIn keep nodes
  | rule r => by
    rw [retain]
    split <;> simp [descendants, empty, descendantsOf]
  | malformed _ => by simp [retain, descendants]
theorem descendantsOf_retainIn (keep : Rule → Bool) :
    (cs : List Condition) → ∀ d ∈ descendantsOf (retainIn keep cs), d.isEmpty = false
  | [] => by simp [retainIn, descendantsOf]
  | c :: rest => by
    rw [retainIn]
    split
    · -- What has become empty is dropped.
      exact descendantsOf_retainIn keep rest
    · rename_i hc
      rw [descendantsOf, List.forall_mem_append, List.forall_mem_cons]
      exact ⟨⟨Bool.eq_false_iff.2 hc, descendants_retain keep c⟩, descendantsOf_retainIn keep rest⟩
end

mutual
/-- Restricting leaves a tree as it is that has only rules to be kept and no empty group below the
root. -/
theorem retain_eq_self {keep : Rule → Bool} : (c : Condition) → (∀ r ∈ c.rules, keep r = true) →
    (∀ d ∈ c.descendants, d.isEmpty = false) → c.retain keep = c
  | group g nodes, hrules, hbelow => by rw [retain, retainIn_eq_self nodes hrules hbelow]
  | rule r, hrules, _ => if_pos (hrules r (by simp [rules]))
  | malformed _, _, _ => rfl
theorem retainIn_eq_self {keep : Rule → Bool} : (cs : List Condition) →
    (∀ r ∈ rulesOf cs, keep r = true) → (∀ d ∈ descendantsOf cs, d.isEmpty = false) →
    retainIn keep cs = cs
  | [], _, _ => rfl
  | c :: rest, hrules, hbelow => by
    rw [rulesOf, List.forall_mem_append] at hrules
    rw [descendantsOf, List.forall_mem_append, List.forall_mem_cons] at hbelow
    rw [retainIn, retain_eq_self c hrules.1 hbelow.1.2, retainIn_eq_self rest hrules.2 hbelow.2,
      hbelow.1.1]
    rfl
end

theorem retain_retain (keep : Rule → Bool) (c : Condition) :
    (c.retain keep).retain keep = c.retain keep :=
  retain_eq_self _ (fun _ hr => (mem_rules_retain.1 hr).2) (descendants_retain keep c)

end CatalogQuery.Condition
