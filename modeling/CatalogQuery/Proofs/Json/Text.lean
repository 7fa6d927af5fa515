import CatalogQuery.Proofs.Number.Numeral
import CatalogQuery.Reduce.Scopes

/-!
# Values as text

Values are compared and told apart by their text. Main statements: only blank values have the empty
text, and of values that differ as text none is left out.
-/

namespace CatalogQuery.Json

theorem plain_of_isBlank {v : Json} (h : v.isBlank = true) : v.plain = "" := by
  cases v with
  | null => rfl
  | str s => simpa [isBlank, plain] using h
  | bool b | num n | arr items | obj members => cases h

theorem text_ne_empty {v : Json} (h : v.write [] ≠ []) : v.text ≠ "" := by
  intro htext
  rw [text, String.ofList_eq_empty_iff] at htext
  exact h htext

/-- Only blank values are compared by the empty text. -/
theorem plain_ne_empty {v : Json} (h : v.isBlank = false) : v.plain ≠ "" := by
  cases v with
  | null => cases h
  | str s => simpa [isBlank, plain] using h
  | bool b => cases b <;> exact text_ne_empty (by simp [write])
  | num n =>
    have hn := isNumeral_numberText n
    refine text_ne_empty ?_
    rw [write, List.append_nil]
    generalize n.text = s at hn
    obtain ⟨-, hwhole, -, -⟩ := hn
    simp [hwhole.1.1]
  | arr items => cases items <;> exact text_ne_empty (by simp [write])
  | obj members => cases members <;> exact text_ne_empty (by simp [write])

theorem plain_ne_empty_iff {v : Json} : v.plain ≠ "" ↔ v.isBlank = false :=
  ⟨fun h => by simpa using fun hblank => h (plain_of_isBlank hblank), plain_ne_empty⟩

theorem mem_map_distinct {seen : List String} {vs : List Json} {t : String} :
    t ∈ (distinct seen vs).map plain ↔ t ∉ seen ∧ t ∈ vs.map plain := by
  induction vs generalizing seen with
  | nil => simp [distinct]
  | cons v rest ih =>
    rw [distinct]
    split
    · rename_i hseen
      rw [ih, List.map_cons, List.mem_cons]
      refine and_congr_right fun ht => (or_iff_right ?_).symm
      rintro rfl
      exact ht (by simpa using hseen)
    · rename_i hseen
      rw [List.map_cons, List.map_cons, List.mem_cons, List.mem_cons, ih, List.mem_cons, not_or]
      by_cases hv : t = v.plain
      · subst hv
        simpa using hseen
      · simp [hv]

theorem nodup_map_distinct (seen : List String) (vs : List Json) :
    ((distinct seen vs).map plain).Nodup := by
  induction vs generalizing seen with
  | nil => exact List.nodup_nil
  | cons v rest ih =>
    rw [distinct]
    split
    · exact ih seen
    · exact List.nodup_cons.2 ⟨fun h => (mem_map_distinct.1 h).1 List.mem_cons_self, ih _⟩

theorem mem_of_mem_distinct {seen : List String} {vs : List Json} {v : Json}
    (h : v ∈ distinct seen vs) : v ∈ vs := by
  induction vs generalizing seen with
  | nil => cases h
  | cons w rest ih =>
    rw [distinct] at h
    split at h
    · exact List.mem_cons_of_mem _ (ih h)
    · rcases List.mem_cons.1 h with rfl | h
      · exact List.mem_cons_self
      · exact List.mem_cons_of_mem _ (ih h)

theorem length_distinct_le (seen : List String) (vs : List Json) :
    (distinct seen vs).length ≤ vs.length := by
  induction vs generalizing seen with
  | nil => exact Nat.le_refl _
  | cons v rest ih =>
    rw [distinct]
    split
    · exact Nat.le_succ_of_le (ih _)
    · exact Nat.succ_le_succ (ih _)

theorem distinct_eq_nil {vs : List Json} : distinct [] vs = [] ↔ vs = [] := by
  cases vs with
  | nil => exact Iff.rfl
  | cons v rest => simp [distinct]

end CatalogQuery.Json
