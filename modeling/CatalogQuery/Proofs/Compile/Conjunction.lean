import CatalogQuery.Proofs.Compile.Groups
import CatalogQuery.Proofs.Condition.Retain

/-!
# Restricting and joining conditions

Main statement: a restricted tree has the rules to be kept and all malformed nodes in their order, and
no part without any of them; and two conditions that are joined are compiled to what both are compiled
to, whichever of them is empty.
-/

namespace CatalogQuery

open Sql

namespace Condition

mutual
theorem valueDepth_of_isEmpty : (c : Condition) → c.isEmpty = true → c.valueDepth = 0
  | group _ nodes, h => by
    rw [isEmpty] at h
    exact valueDepthIn_of_allEmpty nodes h
  | rule _, h => by cases h
  | malformed _, h => by cases h
theorem valueDepthIn_of_allEmpty : (cs : List Condition) → allEmpty cs = true → valueDepthIn cs = 0
  | [], _ => rfl
  | c :: rest, h => by
    rw [allEmpty, Bool.and_eq_true] at h
    rw [valueDepthIn, valueDepth_of_isEmpty c h.1, valueDepthIn_of_allEmpty rest h.2]
    rfl
end

theorem valueDepth_and (a b : Condition) :
    (a.and b).valueDepth = max a.valueDepth b.valueDepth := by
  rw [Condition.and]
  split
  · rename_i ha
    rw [valueDepth_of_isEmpty a ha, Nat.zero_max]
  split
  · rename_i hb
    rw [valueDepth_of_isEmpty b hb, Nat.max_zero]
  · rw [valueDepth, valueDepthIn, valueDepthIn, valueDepthIn, Nat.max_zero]

end Condition

namespace Compile

open Condition (stays)

/-- What two conditions are compiled to together; the first in error decides. -/
def both (t u : Traced (Option Predicate)) : Traced (Option Predicate) := do
  let p ← t
  let q ← u
  pure (Predicate.glue .and (p.toList ++ q.toList))

theorem glue_toList (g : Glue) (p : Option Predicate) : Predicate.glue g p.toList = p := by
  cases p <;> rfl

theorem both_none_left (u : Traced (Option Predicate)) : both (pure none) u = u := by
  rw [both, pure_bind]
  simp only [Option.toList_none, List.nil_append, glue_toList, bind_pure]

theorem both_none_right (t : Traced (Option Predicate)) : both t (pure none) = t := by
  rw [both]
  simp only [pure_bind, Option.toList_none, List.append_nil, glue_toList, bind_pure]

theorem tree_and (rule : Rule → Traced (Option Predicate)) (a b : Condition) :
    tree rule (a.and b) = both (tree rule a) (tree rule b) := by
  rw [Condition.and]
  split
  · rename_i ha
    rw [tree_of_isEmpty a ha, both_none_left]
  split
  · rename_i hb
    rw [tree_of_isEmpty b hb, both_none_right]
  · -- Neither is left out, so the two are the nodes of one group.
    rw [tree, trees, trees, trees, both]
    simp only [bind_assoc, pure_bind, List.append_nil]

theorem within_and (env : Env) (levels : Nat) (frame : Frame) (a b : Condition) :
    within env levels frame (a.and b) =
      both (within env levels frame a) (within env levels frame b) := by
  cases levels with
  | zero => rfl
  | succ levels => exact tree_and _ a b

/-- The bound for two conditions that are joined is high enough for each of them. -/
theorem condition_and {env : Env} {frame : Frame} {a b : Condition}
    (h : ¬ (both (condition env frame a) (condition env frame b)).Stopped) :
    condition env frame (a.and b) = both (condition env frame a) (condition env frame b) := by
  -- The bound for the conjunction is the higher one of the two bounds.
  have hdepth := Condition.valueDepth_and a b
  have ha : (condition env frame a).Lasts
      (within env (formulaLevels env + (a.and b).valueDepth + 1) frame a) :=
    lasts_within env (by omega) frame a
  have hb : (condition env frame b).Lasts
      (within env (formulaLevels env + (a.and b).valueDepth + 1) frame b) :=
    lasts_within env (by omega) frame b
  rw [condition, within_and]
  exact (ha.bind fun p => hb.bind fun q => .refl _).resolve_left h

/-- A restricted tree has the rules to be kept, in their order and with all malformed nodes between
them, and no group below the root without any of these; it is empty if nothing was to be kept, and
restricting it once more changes nothing. At any bound, conditions that are joined come to the
conjunction of what each of them comes to, and the first of them in error decides; so they do at the
bounds that are set for them, unless a formula leads back to itself. -/
theorem restricted_and_joined (keep : Rule → Bool) (c a b : Condition) :
    let kept := c.retain keep
    (kept.rules = c.rules.filter keep ∧
      kept.leaves = c.leaves.filter (stays keep) ∧
      (∀ node, .malformed node ∈ c.leaves → .malformed node ∈ kept.leaves) ∧
      (∀ d ∈ kept.descendants, d.isEmpty = false) ∧
      (kept.isEmpty = true ↔
        (∀ r ∈ c.rules, keep r = false) ∧ ∀ node, .malformed node ∉ c.leaves) ∧
      kept.retain keep = kept) ∧
    (∀ env levels frame, within env levels frame (a.and b) =
      both (within env levels frame a) (within env levels frame b)) ∧
    ∀ env frame, ¬ (both (condition env frame a) (condition env frame b)).Stopped →
      condition env frame (a.and b) = both (condition env frame a) (condition env frame b) := by
  intro kept
  have hleaves : kept.leaves = c.leaves.filter (stays keep) := Condition.leaves_retain keep c
  refine ⟨⟨Condition.rules_retain keep c, hleaves, fun node hnode => ?_,
    Condition.descendants_retain keep c, Condition.isEmpty_retain_iff,
    Condition.retain_retain keep c⟩, fun env levels frame => within_and env levels frame a b,
    fun env frame h => condition_and h⟩
  rw [hleaves]
  exact List.mem_filter.2 ⟨hnode, rfl⟩

/-- A group that loses its only rule, beside a malformed node; and a rule joined to another. -/
theorem restricted_and_joined_invoice :
    let invoice := Entity.new "invoice" "Invoice" "INVOICE" [.new "s" "status" .text]
    let env : Env := ⟨{}, ⟨[invoice], [], []⟩, fun _ => .error (.objectNotFound "invoice"), "en", []⟩
    let frame := Frame.base invoice
    let unpaid := Condition.eq "status" (.str "open")
    let one := Condition.eq "this_object" (.str "x")
    let keep (r : Rule) : Bool := r.key == "status"
    let kept := (Condition.group .or [unpaid, .group .and [one], .malformed .null]).retain keep
    kept = .group .or [unpaid, .malformed .null] ∧ kept.retain keep = kept ∧
    ¬ (both (condition env frame unpaid) (condition env frame one)).Stopped ∧
    ∃ p, (condition env frame (unpaid.and one)).result = .ok (some p) ∧
      p.sql.toText = "(`INVOICE`.`status` = 'open' AND `INVOICE`.`uuid` = 'x')" := by
  intro invoice env frame unpaid one keep kept
  have hstopped : ¬ (both (condition env frame unpaid) (condition env frame one)).Stopped := by
    rintro ⟨name, h⟩
    cases h
  obtain ⟨hkept, -, hjoined⟩ :=
    restricted_and_joined keep (.group .or [unpaid, .group .and [one], .malformed .null]) unpaid one
  refine ⟨rfl, hkept.2.2.2.2.2, hstopped, ?_⟩
  rw [hjoined env frame hstopped]
  exact ⟨_, rfl, by decide +kernel⟩

end Compile

end CatalogQuery
