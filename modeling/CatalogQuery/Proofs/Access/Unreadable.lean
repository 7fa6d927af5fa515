import CatalogQuery.Proofs.Reduce.Scopes
import CatalogQuery.Proofs.Session.Exchanges

/-!
# Scopes whose filter cannot be read

The filter of a scope is stored as text. Text that cannot be read counts as no filter at all, like a
column without a value. Main statement: a scope with such a filter is read like any other and grants
every record of the objects that it covers.
-/

namespace CatalogQuery

namespace Row

/-- Text that cannot be read is null. -/
theorem json_of_unreadable {row : Row} {column text : String}
    (hfind : Json.find column row = some (.str text)) (hparse : Json.parse text = none) :
    Row.json row column = .null := by
  simp only [Row.json, hfind, hparse, Option.getD_none]

end Row

namespace Scope

/-- Only an id is required of a row. -/
theorem ofRow_eq_error_iff {row : Row} :
    (∃ e, ofRow row = .error e) ↔ Row.text? row "uuid" = none := by
  rw [ofRow]
  cases Row.text? row "uuid" <;> simp

theorem id_of_ofRow {row : Row} {s : Scope} (h : ofRow row = .ok s) :
    Row.text? row "uuid" = some s.id := by
  rw [ofRow] at h
  cases hid : Row.text? row "uuid" <;> rw [hid] at h <;> cases h
  rfl

theorem filter_of_unreadable {row : Row} {s : Scope} {text : String} (h : ofRow row = .ok s)
    (hfind : Json.find "filters" row = some (.str text)) (hparse : Json.parse text = none) :
    s.filter = Condition.empty := by
  rw [ofRow, Row.json_of_unreadable hfind hparse] at h
  cases hid : Row.text? row "uuid" <;> rw [hid] at h <;> cases h
  rfl

/-- The scopes that rows stand for. -/
def ofRows (rows : List Row) : List Scope := rows.filterMap fun row => (ofRow row).toOption

theorem mapM_ofRow {rows : List Row} (h : ∀ row ∈ rows, Row.text? row "uuid" ≠ none) :
    rows.mapM ofRow = .ok (ofRows rows) := by
  induction rows with
  | nil => rfl
  | cons row rest ih =>
    rw [List.forall_mem_cons] at h
    cases hs : ofRow row with
    | error e => exact absurd (ofRow_eq_error_iff.1 ⟨e, hs⟩) h.1
    | ok s =>
      rw [List.mapM_cons, hs, ih h.2, ofRows, ofRows, List.filterMap_cons_some (by rw [hs]; rfl)]
      rfl

theorem id_of_toOption {row : Row} {s : Scope} (h : (ofRow row).toOption = some s) :
    Row.text? row "uuid" = some s.id := by
  cases hs : ofRow row <;> rw [hs] at h <;> cases h
  exact id_of_ofRow hs

/-- The first scope with its id is kept. -/
theorem mem_distinct {seen : List String} {before after : List Scope} {s : Scope}
    (hseen : s.id ∉ seen) (hbefore : ∀ b ∈ before, b.id ≠ s.id) :
    s ∈ distinct seen (before ++ s :: after) := by
  induction before generalizing seen with
  | nil => simp [distinct, hseen]
  | cons b rest ih =>
    rw [List.forall_mem_cons] at hbefore
    rw [List.cons_append, distinct]
    split
    · exact ih hseen hbefore.2
    · refine List.mem_cons_of_mem _ (ih ?_ hbefore.2)
      rw [List.mem_cons, not_or]
      exact ⟨hbefore.1.symm, hseen⟩

end Scope

/-- Rows that all have ids are read as scopes, and one among them whose filter cannot be read, the
first with its id, lets a caller see every record of the objects that it covers. -/
theorem Directory.scopes_unreadable {d : Directory} {channel : Channel} {roles : List Role}
    {before after : List Row} {row : Row} {text : String} (hroles : roles ≠ [])
    (hids : ∀ r ∈ before ++ row :: after, Row.text? r "uuid" ≠ none)
    (hfirst : ∀ r ∈ before, Row.text? r "uuid" ≠ Row.text? row "uuid")
    (hfind : Json.find "filters" row = some (.str text)) (hparse : Json.parse text = none) :
    ∃ scopes scope, (d.scopes channel roles).Runs
        [⟨.fetch channel (d.scopesSelect roles), .ok (before ++ row :: after)⟩] (.ok scopes) ∧
      Scope.ofRow row = .ok scope ∧ scope ∈ scopes ∧ scope.filter = Condition.empty ∧
      ∀ e c, scope.covers e.id = true → (Sight.covered scopes).narrow e c = c := by
  cases hscope : Scope.ofRow row with
  | error e => exact absurd (Scope.ofRow_eq_error_iff.1 ⟨e, hscope⟩) (hids row (by simp))
  | ok scope =>
    have hrows : Scope.ofRows (before ++ row :: after) =
        Scope.ofRows before ++ scope :: Scope.ofRows after := by
      rw [Scope.ofRows, List.filterMap_append, List.filterMap_cons_some (by rw [hscope]; rfl)]
      rfl
    have hmem : scope ∈ Scope.distinct [] (Scope.ofRows (before ++ row :: after)) := by
      rw [hrows]
      refine Scope.mem_distinct List.not_mem_nil fun b hb hid => ?_
      obtain ⟨r, hr, hofRow⟩ := List.mem_filterMap.1 hb
      refine hfirst r hr ?_
      rw [Scope.id_of_toOption hofRow, Scope.id_of_ofRow hscope, hid]
    have hfilter := Scope.filter_of_unreadable hscope hfind hparse
    refine ⟨_, scope, ?_, rfl, hmem, hfilter, fun e c hcovers => ?_⟩
    · rw [Directory.scopes, if_neg (by simpa using hroles)]
      refine Program.Runs.bind_iff.2 (.inr ⟨_, [], _, (List.append_nil _).symm, .of_answered, ?_⟩)
      rw [Scope.mapM_ofRow hids]
      exact ⟨rfl, rfl⟩
    · exact Reduce.narrow_of_granted hmem hcovers (by rw [hfilter]; rfl) c

/-- A scope on every object whose filter breaks off after its first character. -/
theorem Directory.scopes_unreadable_brace :
    let row : Row := [("allowAll", .num (.int 1)), ("filters", .str "\x7b"), ("uuid", .str "s1")]
    let reader : Role := ⟨"r1", "Reader"⟩
    ∃ scopes scope, (Directory.scopes {} .tenant [reader]).Runs
        [⟨.fetch .tenant (Directory.scopesSelect {} [reader]), .ok [row]⟩] (.ok scopes) ∧
      Scope.ofRow row = .ok scope ∧ scope ∈ scopes ∧ scope.filter = Condition.empty ∧
      ∀ e c, scope.covers e.id = true → (Sight.covered scopes).narrow e c = c := by
  intro row reader
  have hid : Row.text? row "uuid" = some "s1" := rfl
  have hids : ∀ r ∈ [] ++ row :: [], Row.text? r "uuid" ≠ none := by simp [hid]
  exact Directory.scopes_unreadable (List.cons_ne_nil reader []) hids (by simp) rfl rfl

/-- Text that cannot be read does not keep scopes from being read. -/
theorem Directory.scopes_of_brace : ¬ ∀ (d : Directory) (channel : Channel) (roles : List Role)
    (rows : List Row) (row : Row) (text : String) (r : Result (List Scope)),
    roles ≠ [] → row ∈ rows → Json.find "filters" row = some (.str text) → text ≠ "" →
    Json.parse text = none →
    (d.scopes channel roles).Runs [⟨.fetch channel (d.scopesSelect roles), .ok rows⟩] r →
    ∃ fault, r = .error (.security fault) := by
  intro h
  obtain ⟨fault, hfault⟩ := h {} .tenant [⟨"r1", "Reader"⟩]
    [[("allowAll", .num (.int 1)), ("filters", .str "\x7b"), ("uuid", .str "s1")]] _ "\x7b"
    (.ok [⟨"s1", "", true, [], Condition.empty⟩]) (by simp) List.mem_cons_self rfl (by decide) rfl
    ⟨.ok _, [], rfl, rfl, rfl⟩
  cases hfault

end CatalogQuery
