import CatalogQuery.Proofs.Compile.Connections
import CatalogQuery.Proofs.Json.Arrays
import CatalogQuery.Proofs.Sql.Patterns
import CatalogQuery.Reduce.User
import CatalogQuery.Write.Values

/-!
# Members of stored arrays

A column with several values holds the text of an array, and a rule on it looks for a text between
quotes. Main statement: a text without characters to escape is found where it is an item, and if it
has none of the signs of patterns either, it is found nowhere else but by accident; so is a caller
in a field that names users.
-/

namespace CatalogQuery.Reduce

open Compile Sql

/-! ## Searching -/

section

variable {D : Dialect} {T : Tables} {scene : Scene} {x : Expr} {items : List String} {m : String}

/-- Whether a text has no character that is escaped in an array. -/
def Verbatim (m : String) : Prop := ∀ c ∈ m.toList, Json.isKept c = true

/-- Whether a text has none of the signs that mean something else in a pattern. -/
def Unmarked (m : String) : Prop := ∀ c ∈ m.toList, PatternPart.isPlain c = true

/-- The pattern that looks for a text between quotes. -/
theorem member_pattern (m : String) :
    "%\"" ++ m ++ "\"%" = Pattern.contains.around ("\"" ++ m ++ "\"") := by
  refine String.toList_inj.1 ?_
  simp only [Pattern.around, String.toList_append, List.append_assoc]
  rfl

theorem toList_quotes (m : String) : ("\"" ++ m ++ "\"").toList = Json.between m.toList := by
  rw [String.toList_append, String.toList_append]
  rfl

/-- Whether a text is found in a column that holds an array is a matter of its pattern. -/
theorem truth_member (hlike : D.like = like)
    (hcell : x.value D T scene = some (Write.arrayText items).plain) (m : String) (negated : Bool) :
    (Predicate.member x m negated).truth D T scene =
      some (like (Pattern.contains.around ("\"" ++ m ++ "\"")) (Json.strings items).text
        != negated) := by
  have hplain : (Write.arrayText items).plain = (Json.strings items).text := rfl
  rw [Predicate.member, member_pattern]
  cases negated with
  | false => simp [Predicate.truth, hcell, hplain, hlike, Truth.negated]
  | true =>
    simp only [if_true, Predicate.truth, truths, hcell, hplain, hlike, Truth.negated,
      Option.map_some, Option.isNone_some, Truth.glue, Truth.not]
    generalize like _ _ = found
    cases found <;> rfl

theorem found_of_mem (hm : Verbatim m) (h : m ∈ items) :
    like (Pattern.contains.around ("\"" ++ m ++ "\"")) (Json.strings items).text = true := by
  apply like_around_of_places
  · intro c hc
    rw [toList_quotes, Json.between, List.mem_cons, List.mem_append, List.mem_singleton] at hc
    rcases hc with rfl | hc | rfl
    · decide
    · rintro rfl
      cases hm _ hc
    · decide
  · rw [Pattern.Places, toList_quotes]
    exact (Json.between_infix_text hm items).2 (.inl h)

theorem found_iff (hm : Verbatim m) (hmarks : Unmarked m) :
    like (Pattern.contains.around ("\"" ++ m ++ "\"")) (Json.strings items).text = true ↔
      m ∈ items ∨ Json.Straddles m items := by
  have hplain : ∀ c ∈ ("\"" ++ m ++ "\"").toList, PatternPart.isPlain c = true := by
    intro c hc
    rw [toList_quotes, Json.between, List.mem_cons, List.mem_append, List.mem_singleton] at hc
    rcases hc with rfl | hc | rfl
    · rfl
    · exact hmarks c hc
    · rfl
  rw [like_around_of_plain hplain, Pattern.Places, toList_quotes,
    Json.between_infix_text hm items]

end

/-! ## The caller -/

/-- A field that names several users, as a rule on its column finds it. -/
structure NamesUsers (e : Entity) (f : Field) : Prop where
  type : f.type = .user true
  single : f.multilingual = false
  named : f.column ≠ Rule.constantKey
  subject : subject (Frame.base e) f.column none = .ok (.field e e.table f)

variable {env : Env} {e : Entity} {f : Field}

theorem NamesUsers.isMultiValued (h : NamesUsers e f) : f.isMultiValued = true := by
  rw [Field.isMultiValued, h.type]

theorem NamesUsers.isConnection (h : NamesUsers e f) : f.isConnection = false := by
  rw [Field.isConnection, Field.connection?, h.type]
  rfl

theorem NamesUsers.fieldRule (h : NamesUsers e f) (inner : Inner) (frame : Frame) (r : Rule) :
    (Compile.fieldRule env inner frame e e.table f r).result =
      arrayRule r.op (.column ⟨e.table, f.column⟩) r.value := by
  have htype := h.type
  have hsingle := h.single
  obtain ⟨id, column, label, type, multilingual, required, default⟩ := f
  subst htype hsingle
  rfl

/-- The rule for a username in a field that names several users looks for it in the column. -/
theorem condition_userRule (h : NamesUsers e f) (username : String) (negated : Bool) :
    (condition env (Frame.base e) (userRule f username negated)).result =
      .ok (some (.member (.column ⟨e.table, f.column⟩) username negated)) := by
  have hop : (if negated then RuleOp.notContains else RuleOp.contains).isPlaceholder = false := by
    cases negated <;> rfl
  rw [userRule, if_pos h.isMultiValued, Condition.ofRule, condition_rule,
    rule_of_field hop h.named h.subject, if_neg (by rw [h.isConnection]; decide), h.fieldRule]
  cases negated <;> rfl

/-- A rule that asks for the caller in such a field becomes that rule. -/
theorem containsCaller_eq (h : NamesUsers e f) {r : Rule} (hkey : e.field r.key = some f)
    (username : String) : (containsCaller env (some username) e r).result =
      .ok (userRule f username (r.op == .notContainCurrentUser)) := by
  have hfield : (fieldOf e r.key).result = .ok f := by
    rw [fieldOf, hkey]
    rfl
  refine Traced.result_bind_ok.2 ⟨f, hfield, ?_⟩
  rw [h.isConnection]
  rfl

/-- A text that a column with several values is searched for is found if it is one of the items, as
long as it has no quote, backslash or control character, which are escaped in the column. If it has
no percent sign and no underscore either, it is found just then or by accident: it is the comma
between two items, or stands behind a quote at the end of one. Its negative is true just where it is
not found. So is a rule that asks for the caller in a field that names several users. -/
theorem members_found {D : Dialect} (hlike : D.like = like) {T : Tables} {scene : Scene} {x : Expr}
    {items : List String} {m : String}
    (hcell : x.value D T scene = some (Write.arrayText items).plain) (hm : Verbatim m) :
    let found (negated : Bool) := (Predicate.member x m negated).truth D T scene
    (m ∈ items → found false = some true) ∧
      (Unmarked m → (found false = some true ↔ m ∈ items ∨ Json.Straddles m items)) ∧
      (found true = some true ↔ found false = some false) ∧ found false ≠ none ∧
      ∀ (env : Env) (e : Entity) (f : Field) (r : Rule), NamesUsers e f → e.field r.key = some f →
        x = .column ⟨e.table, f.column⟩ →
        ∃ c p, (containsCaller env (some m) e r).result = .ok c ∧
          (condition env (Frame.base e) c).result = .ok (some p) ∧
          p.truth D T scene = found (r.op == .notContainCurrentUser) := by
  intro found
  have hfound (negated : Bool) : found negated = _ := truth_member hlike hcell m negated
  refine ⟨fun hmem => ?_, fun hmarks => ?_, ?_, ?_, ?_⟩
  · rw [hfound, found_of_mem hm hmem]
    rfl
  · rw [hfound, Bool.bne_false, Option.some.injEq]
    exact found_iff hm hmarks
  · rw [hfound, hfound]
    generalize like _ _ = b
    cases b <;> decide
  · rw [hfound]
    exact Option.some_ne_none _
  · rintro env e f r h hkey rfl
    exact ⟨_, _, containsCaller_eq h hkey m, condition_userRule h m _, rfl⟩

/-- Of notes that are watched by ann and o'neil, o'neil finds the note and ann's sister does not. -/
theorem members_found_watchers :
    let watchers := Field.new "w" "watchers" (.user true)
    let note := Entity.new "note" "Note" "NOTE" [watchers]
    let env : Env := ⟨{}, ⟨[note], [], []⟩, LinkMap.ofCatalog {} ⟨[note], [], []⟩, "en", []⟩
    let D : Dialect := { Dialect.mute with like := like }
    let row := [("watchers", (Write.arrayText ["ann", "o'neil"]).plain)]
    let scene := Scene.empty.add "NOTE" (row.lookup ·)
    let x : Expr := .column ⟨"NOTE", "watchers"⟩
    let r : Rule := ⟨"watchers", .containCurrentUser, .null, none⟩
    (Predicate.member x "o'neil" false).truth D (Tables.ofCells []) scene = some true ∧
      (Predicate.member x "anna" false).truth D (Tables.ofCells []) scene ≠ some true ∧
      ∃ c p, (containsCaller env (some "o'neil") note r).result = .ok c ∧
        (condition env (Frame.base note) c).result = .ok (some p) ∧
        p.truth D (Tables.ofCells []) scene = some true := by
  intro watchers note env D row scene x r
  have hcell : x.value D (Tables.ofCells []) scene =
      some (Write.arrayText ["ann", "o'neil"]).plain := rfl
  have hfield : NamesUsers note watchers := ⟨rfl, rfl, by decide, rfl⟩
  have hverbatim : Verbatim "o'neil" := List.all_eq_true.1 rfl
  have hanna : Verbatim "anna" := List.all_eq_true.1 rfl
  have hmarks : Unmarked "anna" := List.all_eq_true.1 rfl
  have hapart : ¬("anna" ∈ ["ann", "o'neil"] ∨ Json.Straddles "anna" ["ann", "o'neil"]) := by
    unfold Json.Straddles
    decide
  obtain ⟨hone, -, -, -, hcaller⟩ := members_found (D := D) rfl hcell hverbatim
  obtain ⟨-, hnone, -⟩ := members_found (D := D) rfl hcell hanna
  obtain ⟨c, p, hc, hp, htruth⟩ := hcaller env note watchers r hfield rfl rfl
  have hfound := hone (by decide)
  exact ⟨hfound, fun h => hapart ((hnone hmarks).1 h), c, p, hc, hp, htruth.trans hfound⟩

/-- A caller with an underscore in the name is found among others, one with a quote not where they
are, and the comma between any two. -/
theorem members_mistaken :
    let D : Dialect := { Dialect.mute with like := like }
    let found (m : String) (items : List String) : Truth :=
      (Predicate.member (.column ⟨"NOTE", "watchers"⟩) m false).truth D (Tables.ofCells [])
        (Scene.empty.add "NOTE" ([("watchers", (Write.arrayText items).plain)].lookup ·))
    "a_b" ∉ ["axb"] ∧ found "a_b" ["axb"] = some true ∧
      found "o\"neil" ["o\"neil"] = some false ∧
      "," ∉ ["ann", "bob"] ∧ found "," ["ann", "bob"] = some true := by
  refine ⟨by decide, ?_, ?_, by decide, ?_⟩ <;> decide +kernel

end CatalogQuery.Reduce
