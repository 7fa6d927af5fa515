import CatalogQuery.Proofs.Compile.Rows
import CatalogQuery.Proofs.Sql.Evaluation

/-!
# What groups are compiled to

A condition is compiled to the same at any bound that is high enough for it. Main statements: a row
passes a group of "and" if it passes all of its nodes, and one of "or" if it passes a node that
restricts something or none of them does. In a database, the rows for which the predicate is true pass.
-/

namespace CatalogQuery

open Sql

/-! ## At a higher bound -/

namespace Traced

variable {α β : Type}

/-- Whether compiling stopped because more subqueries lie within each other than the bound allows. -/
def Stopped (t : Traced α) : Prop :=
  ∃ name, t.result = .error (.configuration (.circularFormula name))

/-- Whether one traced result is the other, unless compiling stopped. -/
def Lasts (t t' : Traced α) : Prop := t.Stopped ∨ t' = t

theorem Lasts.refl (t : Traced α) : t.Lasts t := .inr rfl

theorem Lasts.bind {t t' : Traced α} {f f' : α → Traced β} (ht : t.Lasts t')
    (hf : ∀ a, (f a).Lasts (f' a)) : (t >>= f).Lasts (t' >>= f') := by
  -- Compiling can stop in the first part or, where that came to a value, in the second.
  rcases ht with ⟨name, ht⟩ | rfl
  · exact .inl ⟨name, result_bind_error.2 (.inl ht)⟩
  · obtain ⟨events, result⟩ := t'
    cases result with
    | error e => exact .inr rfl
    | ok a =>
      rcases hf a with ⟨name, hname⟩ | hfa
      · exact .inl ⟨name, result_bind_error.2 (.inr ⟨a, rfl, hname⟩)⟩
      · refine .inr ?_
        show Traced.bind ⟨events, .ok a⟩ f' = Traced.bind ⟨events, .ok a⟩ f
        rw [bind_ok, bind_ok, hfa]

theorem Lasts.next {t : Traced α} {f f' : α → Traced β} (hf : ∀ a, (f a).Lasts (f' a)) :
    (t >>= f).Lasts (t >>= f') := (Lasts.refl t).bind hf

theorem Lasts.result_ok {t t' : Traced α} (h : t.Lasts t') {a : α} (ha : t.result = .ok a) :
    t'.result = .ok a := by
  rcases h with ⟨name, hname⟩ | rfl
  · cases ha.symm.trans hname
  · exact ha

end Traced

namespace Compile

open Traced (Lasts)

mutual
theorem lasts_tree {rule rule' : Rule → Traced (Option Predicate)}
    (h : ∀ r, (rule r).Lasts (rule' r)) : (c : Condition) → (tree rule c).Lasts (tree rule' c)
  | .group g nodes => by
    rw [tree, tree]
    exact (lasts_trees h nodes).bind fun _ => .refl _
  | .rule r => by
    rw [tree, tree]
    exact h r
  | .malformed node => by
    rw [tree, tree]
    exact .refl _
theorem lasts_trees {rule rule' : Rule → Traced (Option Predicate)}
    (h : ∀ r, (rule r).Lasts (rule' r)) : (cs : List Condition) →
      (trees rule cs).Lasts (trees rule' cs)
  | [] => by
    rw [trees, trees]
    exact .refl _
  | c :: rest => by
    rw [trees, trees]
    exact (lasts_tree h c).bind fun _ => (lasts_trees h rest).bind fun _ => .refl _
end

section

variable {env : Env} {inner inner' : Inner} (h : ∀ frame c, (inner frame c).Lasts (inner' frame c))
include h

theorem lasts_fieldExpr (frame : Frame) (e : Entity) (table : String) (f : Field) :
    (fieldExpr env inner frame e table f).Lasts (fieldExpr env inner' frame e table f) := by
  rw [fieldExpr.eq_def, fieldExpr.eq_def]
  split
  · rename_i formula _
    rw [formulaExpr, formulaExpr]
    refine .next fun l => .next fun target => ?_
    split
    · exact .refl _
    · dsimp only
      split
      · exact (h _ _).bind fun _ => .refl _
      · exact .refl _
  · exact .refl _
  · exact .refl _

theorem lasts_rule (frame : Frame) (r : Rule) :
    (rule env inner frame r).Lasts (rule env inner' frame r) := by
  rw [rule, rule]
  split
  · exact .refl _
  split
  · exact .refl _
  refine .next fun s => ?_
  cases s with
  | column c => exact .refl _
  | field e table f =>
    dsimp only
    split
    · rw [connectionRule, connectionRule]
      refine .next fun l => .next fun target => ?_
      dsimp only
      split
      · split
        · exact (h _ _).bind fun _ => .refl _
        · exact .refl _
      · exact .refl _
    · rw [fieldRule, fieldRule]
      exact (lasts_fieldExpr h frame e table f).bind fun _ => .refl _

end

/-- What a condition is compiled to at one bound it is compiled to at every higher one, with the same
consultations and notices. -/
theorem lasts_within (env : Env) {levels levels' : Nat} (hle : levels ≤ levels') (frame : Frame)
    (c : Condition) : (within env levels frame c).Lasts (within env levels' frame c) := by
  induction levels generalizing levels' frame c with
  | zero => exact .inl ⟨_, rfl⟩
  | succ levels ih =>
    obtain ⟨levels', rfl⟩ : ∃ n, levels' = n + 1 := ⟨levels' - 1, by omega⟩
    rw [within, within]
    exact lasts_tree (fun r => lasts_rule (ih (by omega)) frame r) c

/-! ## Nothing but groups -/

mutual
theorem tree_of_isEmpty {rule : Rule → Traced (Option Predicate)} :
    (c : Condition) → c.isEmpty = true → tree rule c = pure none
  | .group g nodes, h => by
    rw [Condition.isEmpty] at h
    rw [tree, trees_of_allEmpty nodes h]
    rfl
  | .rule _, h => by cases h
  | .malformed _, h => by cases h
theorem trees_of_allEmpty {rule : Rule → Traced (Option Predicate)} :
    (cs : List Condition) → Condition.allEmpty cs = true → trees rule cs = pure []
  | [], _ => rfl
  | c :: rest, h => by
    rw [Condition.allEmpty, Bool.and_eq_true] at h
    rw [trees, tree_of_isEmpty c h.1, trees_of_allEmpty rest h.2]
    rfl
end

/-! ## Rows that pass a group -/

/-- Whether a condition is compiled to a predicate at some bound. -/
def CompilesTo (env : Env) (frame : Frame) (c : Condition) (p : Option Predicate) : Prop :=
  ∃ levels, (within env levels frame c).result = .ok p

section

variable {env : Env} {frame : Frame} {c : Condition} {cs : List Condition}
  {p q : Option Predicate} {ν : Predicate → Bool}

theorem CompilesTo.unique (h : CompilesTo env frame c p) (h' : CompilesTo env frame c q) :
    p = q := by
  obtain ⟨m, hp⟩ := h
  obtain ⟨n, hq⟩ := h'
  have hp' := (lasts_within env (Nat.le_max_left m n) frame c).result_ok hp
  have hq' := (lasts_within env (Nat.le_max_right m n) frame c).result_ok hq
  exact Except.ok.inj (hp'.symm.trans hq')

theorem CompilesTo.exists_parts {g : Glue} (h : CompilesTo env frame (.group g cs) p) :
    ∃ parts, p = Predicate.glue g parts ∧
      (∀ c ∈ cs, ∃ q, CompilesTo env frame c q ∧ ∀ t ∈ q, t ∈ parts) ∧
      ∀ t ∈ parts, ∃ c ∈ cs, CompilesTo env frame c (some t) := by
  obtain ⟨levels, h⟩ := h
  obtain ⟨parts, rfl, hnodes, hmem⟩ := exists_parts_of_within h
  refine ⟨parts, rfl, fun c hc => ?_, fun t ht => ?_⟩
  · obtain ⟨q, hq, hin⟩ := hnodes c hc
    exact ⟨q, ⟨levels, hq⟩, hin⟩
  · obtain ⟨c, hc, ht⟩ := hmem t ht
    exact ⟨c, hc, levels, ht⟩

theorem CompilesTo.passes_and (h : CompilesTo env frame (.group .and cs) p) :
    Passes ν p ↔ ∀ c ∈ cs, ∀ q, CompilesTo env frame c q → Passes ν q := by
  obtain ⟨parts, rfl, hnodes, hmem⟩ := h.exists_parts
  rw [passes_glue]
  constructor
  · intro hpass c hc q hq
    obtain ⟨q', hq', hin⟩ := hnodes c hc
    cases hq.unique hq'
    cases q with
    | none => trivial
    | some t =>
      rcases hpass with rfl | hpass
      · cases hin t rfl
      · exact List.all_eq_true.1 hpass _ (List.mem_map_of_mem (hin t rfl))
  · intro hall
    refine .inr (List.all_eq_true.2 fun b hb => ?_)
    obtain ⟨t, ht, rfl⟩ := List.mem_map.1 hb
    obtain ⟨c, hc, hct⟩ := hmem t ht
    exact hall c hc _ hct

/-- Nodes that restrict nothing have no part in a group of "or" with one that does. -/
theorem CompilesTo.passes_or (h : CompilesTo env frame (.group .or cs) p) :
    Passes ν p ↔ (∀ c ∈ cs, CompilesTo env frame c none) ∨
      ∃ c ∈ cs, ∃ t, CompilesTo env frame c (some t) ∧ Passes ν (some t) := by
  obtain ⟨parts, rfl, hnodes, hmem⟩ := h.exists_parts
  rw [passes_glue]
  constructor
  · rintro (rfl | hpass)
    · refine .inl fun c hc => ?_
      obtain ⟨q, hq, hin⟩ := hnodes c hc
      cases q with
      | none => exact hq
      | some t => cases hin t rfl
    · obtain ⟨b, hb, htrue⟩ := List.any_eq_true.1 hpass
      obtain ⟨t, ht, rfl⟩ := List.mem_map.1 hb
      obtain ⟨c, hc, hct⟩ := hmem t ht
      exact .inr ⟨c, hc, t, hct, htrue⟩
  · rintro (hnone | ⟨c, hc, t, hct, hpass⟩)
    · refine .inl (List.eq_nil_iff_forall_not_mem.2 fun t ht => ?_)
      obtain ⟨c, hc, hct⟩ := hmem t ht
      cases hct.unique (hnone c hc)
    · obtain ⟨q, hq, hin⟩ := hnodes c hc
      cases hct.unique hq
      exact .inr (List.any_eq_true.2 ⟨_, List.mem_map_of_mem (hin t rfl), hpass⟩)

end

end Compile

/-! ## Rows of a database -/

namespace Sql

variable {D : Dialect} {T : Tables} {scene : Scene}

/-- The tests that are true of a row. -/
def tests (D : Dialect) (T : Tables) (scene : Scene) (p : Predicate) : Bool :=
  filterHolds D T (some p) scene

theorem Truth.glue_eq_true {g : Glue} {ts : List Truth} :
    (Truth.glue g ts == some true) = g.truth (ts.map (· == some true)) := by
  rw [Bool.eq_iff_iff, beq_iff_eq]
  cases g with
  | and =>
    rw [Truth.glue, Truth.all, Glue.truth, List.all_eq_true, List.forall_mem_map]
    constructor
    · intro hall t ht
      split at hall
      · cases hall
      split at hall
      · cases hall
      · rename_i hfalse hnone
        cases t with
        | none => exact absurd ht hnone
        | some b =>
          cases b with
          | false => exact absurd ht hfalse
          | true => rfl
    · intro hall
      have hfalse : some false ∉ ts := fun hmem => by cases hall _ hmem
      have hnone : none ∉ ts := fun hmem => by cases hall _ hmem
      rw [if_neg hfalse, if_neg hnone]
  | or =>
    rw [Truth.glue, Truth.any_eq_true, Glue.truth, List.any_eq_true]
    simp

mutual
/-- A predicate is true of a row if the tests make it so that are. -/
theorem truth_reading : (p : Predicate) →
    p.reading.truth (tests D T scene) = filterHolds D T (some p) scene
  | .glued g parts => by
    rw [Predicate.reading, Reading.truth, truths_tests parts, ← Truth.glue_eq_true, filterHolds,
      Predicate.truth]
  | .constant _ | .compare .. | .isNull .. | .isEmpty .. | .like .. | .between .. | .oneOf ..
  | .related .. | .raw _ | .inSubquery .. | .existsIn .. => rfl
theorem truths_tests : (ps : List Predicate) →
    Reading.truths (tests D T scene) (readings ps) = (truths D T ps scene).map (· == some true)
  | [] => rfl
  | p :: rest => by
    rw [readings, Reading.truths, truth_reading p, truths_tests rest, truths, List.map_cons]
    rfl
end

theorem passes_tests {p : Option Predicate} :
    Compile.Passes (tests D T scene) p ↔ filterHolds D T p scene = true := by
  cases p with
  | none => exact iff_of_true trivial rfl
  | some p => rw [Compile.Passes, truth_reading]

end Sql

end CatalogQuery
