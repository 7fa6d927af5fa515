import CatalogQuery.Proofs.Session.Exchanges
import Mathlib.Data.ENat.Lattice

/-!
# Reads that are sent again

Main statement: whatever the database answers, one time after the other, a read is sent once more than
it failed in a way that may pass before it was first answered otherwise, or as often as the limit
allows; and it comes to the last answer.
-/

namespace CatalogQuery.Program

/-- How many answers from the first on are failures that may pass; not finite if all of them are. -/
noncomputable def leadingFailures (answers : Nat → ReadAnswer) : ENat :=
  ⨅ i : { i : Nat // (answers i).mayPass = false }, (i : ENat)

/-- Whether the reads of a run are answered from a sequence, one after the other. -/
def AnsweredInTurn : (Nat → ReadAnswer) → List Exchange → Prop
  | _, [] => True
  | answers, ⟨.fetch _ _, answer⟩ :: t =>
    answer = answers 0 ∧ AnsweredInTurn (fun i => answers (i + 1)) t
  | answers, _ :: t => AnsweredInTurn answers t

/-- One statement, sent `n` times and answered from a sequence. -/
def sends (channel : Channel) (statement : Sql.Select) (answers : Nat → ReadAnswer) (n : Nat) :
    List Exchange :=
  (List.range n).map fun i => ⟨.fetch channel statement, answers i⟩

variable {channel : Channel} {statement : Sql.Select} {answers : Nat → ReadAnswer}

theorem sends_succ (n : Nat) : sends channel statement answers (n + 1) =
    ⟨.fetch channel statement, answers 0⟩ ::
      sends channel statement (fun i => answers (i + 1)) n := by
  rw [sends, sends, List.range_succ_eq_map, List.map_cons, List.map_map]
  rfl

theorem le_leadingFailures_iff {n : Nat} :
    (n : ENat) ≤ leadingFailures answers ↔ ∀ i < n, (answers i).mayPass = true := by
  rw [leadingFailures, le_iInf_iff, Subtype.forall]
  constructor
  · intro h i hi
    -- The first answer that does not pass is at place `i` or in front of it.
    by_contra hpass
    have hle : n ≤ i := Nat.cast_le.1 (h i (Bool.eq_false_iff.2 hpass))
    omega
  · intro h i hi
    refine Nat.cast_le.2 (Nat.le_of_not_lt fun hlt => ?_)
    cases hi.symm.trans (h i hlt)

theorem leadingFailures_le {i : Nat} (h : (answers i).mayPass = false) :
    leadingFailures answers ≤ i :=
  iInf_le (fun i : { i : Nat // (answers i).mayPass = false } => (i : ENat)) ⟨i, h⟩

/-- Where a read is not sent again, all answers but the last may pass, and the last one does not or uses
up the limit. -/
theorem eq_min_leadingFailures {n retries : Nat} (hle : n ≤ retries)
    (hpass : ∀ i < n, (answers i).mayPass = true)
    (hlast : n = retries ∨ (answers n).mayPass = false) :
    (n : ENat) = min (leadingFailures answers) retries := by
  refine le_antisymm (le_min (le_leadingFailures_iff.2 hpass) (Nat.cast_le.2 hle)) ?_
  rcases hlast with rfl | hlast
  · exact min_le_right _ _
  · exact (min_le_left _ _).trans (leadingFailures_le hlast)

section

variable {retries : Nat} {t : List Exchange} {r : Result (List Row)}

theorem runs_once (h : retries = 0 ∨ (answers 0).mayPass = false) :
    (fetch channel statement retries).Runs t r ∧ AnsweredInTurn answers t ↔
      t = sends channel statement answers 1 ∧ r = readResult statement (answers 0) := by
  constructor
  · rintro ⟨hrun, hturn⟩
    obtain ⟨answer, u, rfl, ⟨left, rfl, hpass, -⟩ | ⟨-, rfl, rfl⟩⟩ := Runs.fetch_iff.1 hrun
    · obtain ⟨rfl, -⟩ := hturn
      cases hpass.symm.trans (h.resolve_left (Nat.succ_ne_zero left))
    · obtain ⟨rfl, -⟩ := hturn
      exact ⟨rfl, rfl⟩
  · rintro ⟨rfl, rfl⟩
    exact ⟨Runs.fetch_iff.2 ⟨answers 0, [], rfl, .inr ⟨h, rfl, rfl⟩⟩, rfl, trivial⟩

theorem runs_again (h : (answers 0).mayPass = true) :
    (fetch channel statement (retries + 1)).Runs t r ∧ AnsweredInTurn answers t ↔
      ∃ u, t = ⟨.fetch channel statement, answers 0⟩ :: u ∧
        (fetch channel statement retries).Runs u r ∧
        AnsweredInTurn (fun i => answers (i + 1)) u := by
  constructor
  · rintro ⟨hrun, hturn⟩
    obtain ⟨answer, u, rfl, ⟨left, hleft, -, hrest⟩ | ⟨hstop, -⟩⟩ := Runs.fetch_iff.1 hrun
    · cases hleft
      obtain ⟨rfl, hturn⟩ := hturn
      exact ⟨u, rfl, hrest, hturn⟩
    · obtain ⟨rfl, -⟩ := hturn
      cases h.symm.trans (hstop.resolve_left (Nat.succ_ne_zero retries))
  · rintro ⟨u, rfl, hrest, hturn⟩
    exact ⟨Runs.fetch_iff.2 ⟨answers 0, u, rfl, .inl ⟨retries, rfl, h, hrest⟩⟩, rfl, hturn⟩

end

/-- The one run of a read that is answered in turn. -/
theorem exists_repeats (channel : Channel) (statement : Sql.Select) (retries : Nat)
    (answers : Nat → ReadAnswer) :
    ∃ n ≤ retries, (∀ i < n, (answers i).mayPass = true) ∧
      (n = retries ∨ (answers n).mayPass = false) ∧
      ∀ t r, (fetch channel statement retries).Runs t r ∧ AnsweredInTurn answers t ↔
        t = sends channel statement answers (n + 1) ∧ r = readResult statement (answers n) := by
  induction retries generalizing answers with
  | zero => exact ⟨0, le_rfl, by simp, .inl rfl, fun t r => runs_once (.inl rfl)⟩
  | succ retries ih =>
    cases hpass : (answers 0).mayPass with
    | false => exact ⟨0, Nat.zero_le _, by simp, .inr hpass, fun t r => runs_once (.inr hpass)⟩
    | true =>
      -- The rest is a read with one retry less, answered from the rest of the sequence.
      obtain ⟨n, hle, hbefore, hlast, hruns⟩ := ih fun i => answers (i + 1)
      refine ⟨n + 1, Nat.succ_le_succ hle, fun i hi => ?_, hlast.imp (congrArg (· + 1)) id,
        fun t r => ?_⟩
      · cases i with
        | zero => exact hpass
        | succ i => exact hbefore i (Nat.lt_of_succ_lt_succ hi)
      · rw [runs_again hpass, sends_succ]
        constructor
        · rintro ⟨u, rfl, hrest⟩
          obtain ⟨rfl, rfl⟩ := (hruns u r).1 hrest
          exact ⟨rfl, rfl⟩
        · rintro ⟨rfl, rfl⟩
          exact ⟨_, rfl, (hruns _ _).2 ⟨rfl, rfl⟩⟩

end CatalogQuery.Program
