import CatalogQuery.Proofs.Compile.Meaning

/-!
# Rows that pass a condition

A row makes each test true or not; it passes a condition when it makes what the condition is
compiled to true. Main statements: a row that passes a group of "and" passes all of its nodes, and
one that passes a group of "or" passes one of them.
-/

namespace CatalogQuery.Compile

open Sql

/-- Whether a row that makes the tests `ν` true passes a test; without a test it does. -/
def Passes (ν : Predicate → Bool) : Option Predicate → Prop
  | none => True
  | some p => p.reading.truth ν = true

/-- Whether a row that makes the tests `ν` true passes what a condition is compiled to. -/
def Holds (env : Env) (levels : Nat) (frame : Frame) (ν : Predicate → Bool) (c : Condition) :
    Prop :=
  ∃ test, (within env levels frame c).result = .ok test ∧ Passes ν test

variable {rule : Rule → Traced (Option Predicate)}

/-- What the nodes of a group are compiled to, less what restricts nothing. -/
theorem ensures_parts (cs : List Condition) : (trees rule cs).Ensures fun parts =>
    (∀ c ∈ cs, ∃ test, (tree rule c).result = .ok test ∧ ∀ p ∈ test, p ∈ parts) ∧
      ∀ p ∈ parts, ∃ c ∈ cs, (tree rule c).result = .ok (some p) := by
  induction cs with
  | nil =>
    rw [trees]
    exact .pure ⟨by simp, by simp⟩
  | cons c rest ih =>
    rw [trees]
    intro all hall
    obtain ⟨part, hpart, hall⟩ := Traced.result_bind_ok.1 hall
    obtain ⟨parts, hparts, hall⟩ := Traced.result_bind_ok.1 hall
    cases hall
    obtain ⟨hnodes, hmem⟩ := ih parts hparts
    -- What a node is compiled to is a part of its own, and every part is of some node.
    refine ⟨List.forall_mem_cons.2 ⟨⟨part, hpart, fun p hp => ?_⟩, fun d hd => ?_⟩, fun p hp => ?_⟩
    · exact List.mem_append.2 (.inl (Option.mem_toList.2 hp))
    · obtain ⟨test, htest, hin⟩ := hnodes d hd
      exact ⟨test, htest, fun p hp => List.mem_append.2 (.inr (hin p hp))⟩
    · rcases List.mem_append.1 hp with hp | hp
      · rw [Option.mem_toList] at hp
        cases hp
        exact ⟨c, by simp, hpart⟩
      · obtain ⟨d, hd, hresult⟩ := hmem p hp
        exact ⟨d, List.mem_cons_of_mem _ hd, hresult⟩

theorem truths_readings (ν : Predicate → Bool) (ps : List Predicate) :
    Reading.truths ν (readings ps) = ps.map fun p => p.reading.truth ν := by
  induction ps with
  | nil => rfl
  | cons p rest ih => rw [readings, Reading.truths, ih, List.map_cons]

theorem passes_glue {ν : Predicate → Bool} {g : Glue} {ps : List Predicate} :
    Passes ν (Predicate.glue g ps) ↔
      ps = [] ∨ g.truth (ps.map fun p => p.reading.truth ν) = true := by
  rw [← truths_readings]
  match ps with
  | [] => simp [Predicate.glue, Passes]
  | [p] => simp [Predicate.glue, Passes, readings, Reading.truths, Glue.truth_singleton]
  | p :: q :: rest => simp [Predicate.glue, Passes, Predicate.reading, Reading.truth]

section

variable {env : Env} {levels : Nat} {frame : Frame} {ν : Predicate → Bool}

theorem not_holds_zero (c : Condition) : ¬Holds env 0 frame ν c := by
  rintro ⟨test, htest, -⟩
  cases htest

/-- What a group is compiled to is made of what its nodes are compiled to. -/
theorem exists_parts_of_within {g : Glue} {cs : List Condition} {p : Option Predicate}
    (h : (within env levels frame (.group g cs)).result = .ok p) :
    ∃ parts, p = Predicate.glue g parts ∧
      (∀ c ∈ cs, ∃ q, (within env levels frame c).result = .ok q ∧ ∀ t ∈ q, t ∈ parts) ∧
      ∀ t ∈ parts, ∃ c ∈ cs, (within env levels frame c).result = .ok (some t) := by
  cases levels with
  | zero => cases h
  | succ levels =>
    rw [within, tree] at h
    obtain ⟨parts, hparts, hglue⟩ := Traced.result_bind_ok.1 h
    cases hglue
    exact ⟨parts, rfl, ensures_parts cs parts hparts⟩

theorem Holds.of_and {cs : List Condition} (h : Holds env levels frame ν (.group .and cs)) :
    ∀ c ∈ cs, Holds env levels frame ν c := by
  obtain ⟨_, htest, hpass⟩ := h
  obtain ⟨parts, rfl, hnodes, -⟩ := exists_parts_of_within htest
  intro c hc
  obtain ⟨test, hresult, hin⟩ := hnodes c hc
  refine ⟨test, hresult, ?_⟩
  cases test with
  | none => trivial
  | some p =>
    -- The node has a part in the group, all of whose parts the row passes.
    have hp := hin p rfl
    rcases passes_glue.1 hpass with rfl | htruth
    · cases hp
    · have hall := List.all_eq_true.1 htruth
      exact hall _ (List.mem_map_of_mem hp)

theorem Holds.of_or {cs : List Condition} (h : Holds env levels frame ν (.group .or cs))
    (hne : cs ≠ []) : ∃ c ∈ cs, Holds env levels frame ν c := by
  obtain ⟨_, htest, hpass⟩ := h
  obtain ⟨parts, rfl, hnodes, hmem⟩ := exists_parts_of_within htest
  rcases passes_glue.1 hpass with rfl | htruth
  · -- No node restricts anything, so a row passes the first one.
    obtain ⟨c, rest, rfl⟩ := List.exists_cons_of_ne_nil hne
    obtain ⟨test, hresult, hin⟩ := hnodes c (by simp)
    refine ⟨c, by simp, test, hresult, ?_⟩
    cases test with
    | none => trivial
    | some p => cases hin p rfl
  · obtain ⟨b, hb, hbtrue⟩ := List.any_eq_true.1 htruth
    obtain ⟨p, hp, rfl⟩ := List.mem_map.1 hb
    obtain ⟨c, hc, hresult⟩ := hmem p hp
    exact ⟨c, hc, some p, hresult, hbtrue⟩

end

/-- A row passes an empty condition wherever it passes any. -/
theorem Holds.of_isEmpty {env : Env} {levels : Nat} {frame : Frame} {ν : Predicate → Bool}
    {c d : Condition} (h : Holds env levels frame ν c) (hd : d.isEmpty = true) :
    Holds env levels frame ν d := by
  cases levels with
  | zero => exact absurd h (not_holds_zero _)
  | succ levels =>
    have hleaves := d.leaves_of_isEmpty hd
    exact ⟨none, (tree_eq_none d).2 (by simp [hleaves]), trivial⟩

end CatalogQuery.Compile
