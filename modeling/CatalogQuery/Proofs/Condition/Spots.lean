import CatalogQuery.Condition.Basic

/-!
# Spots in a tree

The rules of a tree have an order, from left to right. A spot is where a node stands in a tree: the
groups around it, each with the nodes beside it. Main statement: visiting, looking for the first rule
of a kind, counting and replacing all go by the one order, and replacing changes the tree at one spot.
-/

namespace CatalogQuery.Condition

/-! ## Rules of a tree -/

mutual
theorem visit_eq {σ : Type} (f : σ → Rule → σ) :
    (s : σ) → (c : Condition) → c.visit f s = c.rules.foldl f s
  | s, group _ nodes => visitIn_eq f s nodes
  | _, rule _ => rfl
  | _, malformed _ => rfl
theorem visitIn_eq {σ : Type} (f : σ → Rule → σ) :
    (s : σ) → (cs : List Condition) → visitIn f s cs = (rulesOf cs).foldl f s
  | _, [] => rfl
  | s, c :: rest => by
    rw [visitIn, rulesOf, List.foldl_append, visit_eq f s c, visitIn_eq f _ rest]
end

mutual
theorem find?_eq (p : Rule → Bool) : (c : Condition) → c.find? p = c.rules.find? p
  | group _ nodes => by
    rw [find?, rules]
    exact findIn_eq p nodes
  | rule r => by
    rw [find?, rules]
    cases h : p r <;> simp [h]
  | malformed _ => rfl
theorem findIn_eq (p : Rule → Bool) : (cs : List Condition) → findIn p cs = (rulesOf cs).find? p
  | [] => rfl
  | c :: rest => by
    rw [findIn, rulesOf, List.find?_append, find?_eq p c, findIn_eq p rest]
    cases c.rules.find? p <;> rfl
end

mutual
theorem count_eq (p : Rule → Bool) : (c : Condition) → c.count p = (c.rules.filter p).length
  | group _ nodes => by
    rw [count, rules]
    exact countIn_eq p nodes
  | rule r => by
    rw [count, rules]
    cases h : p r <;> simp [h]
  | malformed _ => rfl
theorem countIn_eq (p : Rule → Bool) :
    (cs : List Condition) → countIn p cs = ((rulesOf cs).filter p).length
  | [] => rfl
  | c :: rest => by
    rw [countIn, rulesOf, List.filter_append, List.length_append, count_eq p c, countIn_eq p rest]
end

theorem holds_of_find? {p : Rule → Bool} {c : Condition} {r : Rule} (h : c.find? p = some r) :
    p r = true := by
  rw [find?_eq] at h
  exact List.find?_some h

theorem find?_eq_none {p : Rule → Bool} {c : Condition} :
    c.find? p = none ↔ ∀ r ∈ c.rules, p r = false := by
  rw [find?_eq, List.find?_eq_none]
  simp

theorem count_eq_zero {p : Rule → Bool} {c : Condition} :
    c.count p = 0 ↔ ∀ r ∈ c.rules, p r = false := by
  rw [count_eq, List.length_eq_zero_iff, List.filter_eq_nil_iff]
  simp

theorem placeholders_eq_zero {c : Condition} :
    c.placeholders = 0 ↔ ∀ r ∈ c.rules, r.op.isPlaceholder = false := count_eq_zero

theorem rulesOf_append (cs ds : List Condition) : rulesOf (cs ++ ds) = rulesOf cs ++ rulesOf ds := by
  induction cs with
  | nil => rfl
  | cons c rest ih => rw [List.cons_append, rulesOf, rulesOf, ih, List.append_assoc]

/-! ## Where there is nothing to replace -/

mutual
theorem replaceFirst_eq_none {p : Rule → Bool} (node : Condition) :
    {c : Condition} → (∀ r ∈ c.rules, p r = false) → replaceFirst p node c = none
  | group _ nodes, h => by
    rw [replaceFirst, replaceIn_eq_none node h]
    rfl
  | rule r, h => by
    have hr := h r (by simp [rules])
    rw [replaceFirst, hr]
    rfl
  | malformed _, _ => rfl
theorem replaceIn_eq_none {p : Rule → Bool} (node : Condition) :
    {cs : List Condition} → (∀ r ∈ rulesOf cs, p r = false) → replaceIn p node cs = none
  | [], _ => rfl
  | c :: rest, h => by
    rw [rulesOf, List.forall_mem_append] at h
    rw [replaceIn, replaceFirst_eq_none node h.1, replaceIn_eq_none node h.2]
    rfl
end

/-- Nodes without a rule of the kind are passed over. -/
theorem replaceIn_append {p : Rule → Bool} {node c c' : Condition} {before after : List Condition}
    (hbefore : ∀ r ∈ rulesOf before, p r = false) (hc : replaceFirst p node c = some c') :
    replaceIn p node (before ++ c :: after) = some (before ++ c' :: after) := by
  induction before with
  | nil =>
    rw [List.nil_append, replaceIn, hc]
    rfl
  | cons b rest ih =>
    rw [rulesOf, List.forall_mem_append] at hbefore
    rw [List.cons_append, replaceIn, replaceFirst_eq_none node hbefore.1, ih hbefore.2]
    rfl

/-! ## Spots -/

/-- Where a node stands in a tree. -/
inductive Spot where
  | root
  /-- A spot in one of the nodes of a group. -/
  | member (glue : Glue) (before : List Condition) (inside : Spot) (after : List Condition)

namespace Spot

/-- The tree that has a node in the spot. -/
def fill : Spot → Condition → Condition
  | root, c => c
  | member glue before inside after, c => group glue (before ++ inside.fill c :: after)

/-- The rules in front of the spot. -/
def rulesBefore : Spot → List Rule
  | root => []
  | member _ before inside _ => rulesOf before ++ inside.rulesBefore

/-- The rules behind the spot. -/
def rulesAfter : Spot → List Rule
  | root => []
  | member _ _ inside after => inside.rulesAfter ++ rulesOf after

theorem rules_fill (spot : Spot) (c : Condition) :
    (spot.fill c).rules = spot.rulesBefore ++ c.rules ++ spot.rulesAfter := by
  induction spot with
  | root => simp [fill, rulesBefore, rulesAfter]
  | member glue before inside after ih =>
    rw [fill, rules, rulesOf_append, rulesOf, ih, rulesBefore, rulesAfter]
    simp only [List.append_assoc]

theorem count_fill (p : Rule → Bool) (spot : Spot) (c : Condition) :
    (spot.fill c).count p = spot.rulesBefore.countP p + c.count p + spot.rulesAfter.countP p := by
  simp only [count_eq, rules_fill, ← List.countP_eq_length_filter, List.countP_append]

/-- A rule of a kind is replaced if there is none of the kind in front of it. -/
theorem replaceFirst_fill {p : Rule → Bool} {r : Rule} (hr : p r = true) (node : Condition)
    {spot : Spot} (hbefore : ∀ s ∈ spot.rulesBefore, p s = false) :
    replaceFirst p node (spot.fill (rule r)) = some (spot.fill node) := by
  induction spot with
  | root => rw [fill, fill, replaceFirst, if_pos hr]
  | member glue before inside after ih =>
    rw [rulesBefore, List.forall_mem_append] at hbefore
    rw [fill, replaceFirst, replaceIn_append hbefore.1 (ih hbefore.2)]
    rfl

end Spot

mutual
/-- The first rule of a kind stands in a spot with none of the kind in front of it. -/
theorem exists_spot {p : Rule → Bool} {r : Rule} : {c : Condition} → c.find? p = some r →
    ∃ spot : Spot, c = spot.fill (rule r) ∧ ∀ s ∈ spot.rulesBefore, p s = false
  | group glue nodes, h => by
    obtain ⟨before, inside, after, rfl, hbefore⟩ := exists_spotIn h
    exact ⟨.member glue before inside after, rfl, hbefore⟩
  | rule s, h => by
    rw [find?] at h
    split at h
    · cases h
      exact ⟨.root, rfl, by simp [Spot.rulesBefore]⟩
    · cases h
  | malformed _, h => by cases h
theorem exists_spotIn {p : Rule → Bool} {r : Rule} : {cs : List Condition} → findIn p cs = some r →
    ∃ (before : List Condition) (inside : Spot) (after : List Condition),
      cs = before ++ inside.fill (rule r) :: after ∧
      ∀ s ∈ rulesOf before ++ inside.rulesBefore, p s = false
  | [], h => by cases h
  | c :: rest, h => by
    rw [findIn] at h
    split at h
    · rename_i hc
      cases h
      obtain ⟨inside, rfl, hbefore⟩ := exists_spot hc
      exact ⟨[], inside, rest, rfl, hbefore⟩
    · -- All rules of a node without one of the kind are in front of the spot.
      rename_i hc
      obtain ⟨before, inside, after, rfl, hbefore⟩ := exists_spotIn h
      refine ⟨c :: before, inside, after, rfl, ?_⟩
      rw [rulesOf, List.append_assoc]
      exact List.forall_mem_append.2 ⟨find?_eq_none.1 hc, hbefore⟩
end

/-- The first rule that is the same as the first rule of a kind is that rule itself. -/
theorem replaceFirst_same {p : Rule → Bool} {r : Rule} (hp : ∀ s, s.same r = true → p s = p r)
    (hr : r.same r = true) (node : Condition) {c : Condition} (h : c.find? p = some r) :
    replaceFirst (·.same r) node c = replaceFirst p node c := by
  have hpr := holds_of_find? h
  obtain ⟨spot, rfl, hbefore⟩ := exists_spot h
  -- What is the same as the rule is of its kind, and none of the kind is in front of it.
  have hsame : ∀ s ∈ spot.rulesBefore, s.same r = false := by
    intro s hs
    cases hsr : s.same r with
    | false => rfl
    | true => rw [← hp s hsr, hbefore s hs] at hpr; cases hpr
  rw [Spot.replaceFirst_fill hpr node hbefore]
  exact Spot.replaceFirst_fill (p := (·.same r)) hr node hsame

/-- Visiting, looking for a rule, counting and replacing go by one sequence of rules. The rule that is
found is the first of its kind, and it stands in a spot that is the same whatever node takes its
place: all around the spot stays as it is, and in the sequence the node's rules stand where the rule
stood. So the rule is one less to be counted, and the node's rules are to be counted instead. -/
theorem traversals_agree (p : Rule → Bool) (c : Condition) :
    (∀ {σ : Type} (f : σ → Rule → σ) (s : σ), c.visit f s = c.rules.foldl f s) ∧
    c.find? p = c.rules.find? p ∧
    c.count p = c.rules.countP p ∧
    (c.find? p = none ↔ ∀ r ∈ c.rules, p r = false) ∧
    (∀ node, replaceFirst p node c = none ↔ c.find? p = none) ∧
    ∀ r, c.find? p = some r → p r = true ∧ ∃ spot : Spot,
      c = spot.fill (rule r) ∧
      c.rules = spot.rulesBefore ++ r :: spot.rulesAfter ∧
      (∀ s ∈ spot.rulesBefore, p s = false) ∧
      ∀ node, replaceFirst p node c = some (spot.fill node) ∧
        (spot.fill node).rules = spot.rulesBefore ++ node.rules ++ spot.rulesAfter ∧
        (spot.fill node).count p + 1 = c.count p + node.count p := by
  refine ⟨fun f s => visit_eq f s c, find?_eq p c, ?_, find?_eq_none, fun node => ⟨fun h => ?_,
    fun h => replaceFirst_eq_none node (find?_eq_none.1 h)⟩, fun r hr => ?_⟩
  · rw [count_eq, List.countP_eq_length_filter]
  · cases hfind : c.find? p with
    | none => rfl
    | some r =>
      -- A rule that is found is also replaced.
      obtain ⟨spot, rfl, hbefore⟩ := exists_spot hfind
      rw [Spot.replaceFirst_fill (holds_of_find? hfind) node hbefore] at h
      cases h
  · have hpr := holds_of_find? hr
    obtain ⟨spot, rfl, hbefore⟩ := exists_spot hr
    refine ⟨hpr, spot, rfl, ?_, hbefore, fun node =>
      ⟨Spot.replaceFirst_fill hpr node hbefore, spot.rules_fill node, ?_⟩⟩
    · rw [spot.rules_fill, rules, List.append_assoc]
      rfl
    · have hone : (rule r).count p = 1 := by rw [count, if_pos hpr]
      rw [spot.count_fill, spot.count_fill, hone]
      omega

/-- Two equal rules of a kind in different groups, beside an empty group and a malformed node. -/
theorem traversals_agree_equal :
    let inQuery : Rule := ⟨"owner", .inQuery, .str "q", none⟩
    let tree (first : Condition) : Condition :=
      group .or [malformed .null, group .and [], group .and [.eq "a" .null, first], rule inQuery]
    let p (r : Rule) : Bool := r.op == .inQuery
    (tree (rule inQuery)).find? p = some inQuery ∧ (tree (rule inQuery)).count p = 2 ∧
    ∀ node, replaceFirst p node (tree (rule inQuery)) = some (tree node) ∧
      (tree node).count p + 1 = 2 + node.count p := by
  intro inQuery tree p
  obtain ⟨-, spot, -, -, -, hspot⟩ :=
    (traversals_agree p (tree (rule inQuery))).2.2.2.2.2 inQuery rfl
  refine ⟨rfl, rfl, fun node => ⟨rfl, ?_⟩⟩
  obtain ⟨hreplaced, -, hcount⟩ := hspot node
  have hfill : tree node = spot.fill node := Option.some.inj hreplaced
  rw [hfill]
  exact hcount

end CatalogQuery.Condition
