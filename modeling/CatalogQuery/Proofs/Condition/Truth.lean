import CatalogQuery.Proofs.Sql.Reading

/-!
# Truth of conditions

The truth of a tree whose rules are true, false or left out. What is left out has no part in the
group around it, and neither has a group of which nothing is left. Main statement: a tree is as true
as what it joins.
-/

namespace CatalogQuery.Condition

mutual
/-- The rules and malformed nodes of a tree from left to right. -/
def leaves : Condition → List Condition
  | group _ nodes => leavesOf nodes
  | rule r => [rule r]
  | malformed node => [malformed node]
def leavesOf : List Condition → List Condition
  | [] => []
  | c :: rest => c.leaves ++ leavesOf rest
end

mutual
theorem leaves_of_isEmpty : (c : Condition) → c.isEmpty = true → c.leaves = []
  | group _ nodes, h => by
    rw [isEmpty] at h
    exact leavesOf_of_allEmpty nodes h
  | rule _, h => by cases h
  | malformed _, h => by cases h
theorem leavesOf_of_allEmpty : (cs : List Condition) → allEmpty cs = true → leavesOf cs = []
  | [], _ => rfl
  | c :: rest, h => by
    rw [allEmpty, Bool.and_eq_true] at h
    rw [leavesOf, leaves_of_isEmpty c h.1, leavesOf_of_allEmpty rest h.2]
    rfl
end

mutual
/-- The truth of a tree; none when all of it is left out. -/
def truth (ν : Rule → Option Bool) : Condition → Option Bool
  | group g nodes =>
    match truths ν nodes with
    | [] => none
    | bs => some (g.truth bs)
  | rule r => ν r
  | malformed _ => none
def truths (ν : Rule → Option Bool) : List Condition → List Bool
  | [] => []
  | c :: rest => (c.truth ν).toList ++ truths ν rest
end

variable {α : Type}

mutual
/-- How a tree joins what its rules stand for. -/
def shape (ρ : Rule → Option α) : Condition → Option (Reading α)
  | group g nodes =>
    match shapes ρ nodes with
    | [] => none
    | fs => some (.join g fs)
  | rule r => (ρ r).map .atom
  | malformed _ => none
def shapes (ρ : Rule → Option α) : List Condition → List (Reading α)
  | [] => []
  | c :: rest => (c.shape ρ).toList ++ shapes ρ rest
end

mutual
theorem truth_eq (ρ : Rule → Option α) (μ : α → Bool) :
    (c : Condition) → c.truth (fun r => (ρ r).map μ) = (c.shape ρ).map (Reading.truth μ)
  | group g nodes => by
    rw [truth, shape, truths_eq ρ μ nodes]
    cases shapes ρ nodes with
    | nil => rfl
    | cons f fs =>
      show some (g.truth (Reading.truths μ (f :: fs))) = some ((Reading.join g (f :: fs)).truth μ)
      rw [Reading.truth_join]
  | rule r => by
    rw [truth, shape, Option.map_map]
    rfl
  | malformed _ => rfl
theorem truths_eq (ρ : Rule → Option α) (μ : α → Bool) :
    (cs : List Condition) → truths (fun r => (ρ r).map μ) cs = Reading.truths μ (shapes ρ cs)
  | [] => rfl
  | c :: rest => by
    rw [truths, shapes, truth_eq ρ μ c, truths_eq ρ μ rest]
    cases c.shape ρ <;> rfl
end

/-- What a tree joins is what its rules stand for. -/
theorem mem_atoms_join {g : Glue} {fs : List (Reading α)} {a : α} :
    a ∈ (Reading.join g fs).atoms ↔ a ∈ Reading.atomsOf fs := by
  match fs with
  | [] => rfl
  | [f] => simp [Reading.join, Reading.atomsOf]
  | _ :: _ :: _ => rfl

mutual
theorem exists_of_mem_shape {ρ : Rule → Option α} {a : α} : (c : Condition) →
    (∃ f, c.shape ρ = some f ∧ a ∈ f.atoms) → ∃ r ∈ c.rules, ρ r = some a
  | group g nodes, ⟨f, hf, ha⟩ => by
    refine exists_of_mem_shapes nodes ?_
    rw [shape] at hf
    split at hf
    · cases hf
    · cases hf
      exact mem_atoms_join.1 ha
  | rule r, ⟨f, hf, ha⟩ => by
    rw [shape, Option.map_eq_some_iff] at hf
    obtain ⟨b, hb, rfl⟩ := hf
    rw [Reading.atoms, List.mem_singleton] at ha
    exact ⟨r, by simp [rules], ha ▸ hb⟩
  | malformed _, ⟨_, hf, _⟩ => by cases hf
theorem exists_of_mem_shapes {ρ : Rule → Option α} {a : α} : (cs : List Condition) →
    a ∈ Reading.atomsOf (shapes ρ cs) → ∃ r ∈ rulesOf cs, ρ r = some a
  | [], ha => by cases ha
  | c :: rest, ha => by
    have hrest (ha : a ∈ Reading.atomsOf (shapes ρ rest)) :
        ∃ r ∈ rulesOf (c :: rest), ρ r = some a := by
      obtain ⟨r, hr, hρ⟩ := exists_of_mem_shapes rest ha
      exact ⟨r, List.mem_append.2 (.inr hr), hρ⟩
    rw [shapes] at ha
    cases hs : c.shape ρ with
    | none =>
      rw [hs] at ha
      exact hrest ha
    | some f =>
      rw [hs] at ha
      rcases List.mem_append.1 ha with ha | ha
      · obtain ⟨r, hr, hρ⟩ := exists_of_mem_shape c ⟨f, hs, ha⟩
        exact ⟨r, List.mem_append.2 (.inl hr), hρ⟩
      · exact hrest ha
end

end CatalogQuery.Condition
