import CatalogQuery.Compile.Scalar
import CatalogQuery.Proofs.Sql.Patterns
import CatalogQuery.Proofs.Sql.Scan

/-!
# Rules about what a text contains

A rule that asks whether a text contains another one, begins with it or ends with it is a test with a
pattern, in which the text asked for stands beside percent signs. Main statement: its own percent
signs, underscores and backslashes count there as those of a pattern do, and without any it is
looked for as it is.
-/

namespace CatalogQuery.Compile

open Sql

theorem comparison_of_pattern {op : RuleOp} {p : Pattern} (hp : pattern op = some p) :
    comparison op = none := by
  cases op <;> first | rfl | cases hp

/-- A rule about what a text contains compiles to a test with a pattern. -/
theorem scalarRule_of_pattern {op : RuleOp} {p : Pattern} (hp : pattern op = some p) {v : Json}
    (hv : v.plain ≠ "") (e : Expr) (byDay : Bool) :
    scalarRule op e v byDay = .ok (some (.likeValue e p v op.isNegative)) := by
  have hempty : v.plain.isEmpty = false := by
    simpa using hv
  rw [scalarRule.eq_def, comparison_of_pattern hp, hp]
  dsimp only
  rw [hempty]
  rfl

/-- Such a test comes to whether the text is like the pattern, or is not. -/
theorem truth_like {D : Dialect} (hlike : D.like = like) {T : Tables} {scene : Scene} {e : Expr}
    {t : String} (hcell : e.value D T scene = some t) (text : String) (negated : Bool) :
    (Predicate.like e text negated).truth D T scene = some (like text t != negated) := by
  rw [Predicate.truth, hcell, hlike]
  exact Truth.negated_some negated (like text t)

/-- A text that a rule asks for reaches the database as it is, between or beside percent signs. There
it is a pattern: unless it ends in a backslash of its own that a percent sign follows, the rule holds
of a text just if what it says as a pattern stands at that place. Without percent signs, underscores
and backslashes it holds just if the text asked for stands there. The negative rule holds where the
positive one does not. -/
theorem text_rule_matches {D : Dialect} (hlike : D.like = like) {T : Tables} {scene : Scene}
    {e : Expr} {t : String} (hcell : e.value D T scene = some t) {op : RuleOp} {p : Pattern}
    (hop : pattern op = some p) {v : Json} (hv : v.plain ≠ "") (byDay : Bool) :
    let text := p.around v.plain
    ∃ (q : Predicate) (found : Bool), scalarRule op e v byDay = .ok (some q) ∧
      (∃ before, q.sql = before ++ [.text text] ∧
        readQuoted (Piece.text text).chars = some (.text text.toList, [])) ∧
      q.truth D T scene = some (found != op.isNegative) ∧
      (p = .endsWith ∨ PatternPart.isOpen v.plain.toList = false →
        (found = true ↔ ∃ w, p.Places w t ∧ like v.plain w = true)) ∧
      ((∀ c ∈ v.plain.toList, PatternPart.isPlain c = true) →
        (found = true ↔ p.Places v.plain t)) := by
  intro text
  refine ⟨_, like text t, scalarRule_of_pattern hop hv e byDay, ⟨_, rfl, ?_⟩,
    truth_like hlike hcell text op.isNegative, fun h => like_around h,
    fun h => like_around_of_plain h⟩
  have hread : readQuoted (quoteText text.toList ++ []) = some (.text text.toList, []) :=
    readQuoted_quoteText_iff.2 nofun
  rwa [List.append_nil] at hread

/-- Numbers that begin with the year, and texts with some character between two others. -/
theorem text_rule_matches_number :
    let D : Dialect := { Dialect.mute with like := like }
    let x : Expr := .column ⟨"INVOICE", "number"⟩
    let scene := Scene.empty.add "INVOICE" ([("number", "2024-ab/7")].lookup ·)
    (∃ q, scalarRule .beginsWith x (.str "2024-") false = .ok (some q) ∧
      q.truth D (Tables.ofCells []) scene = some true) ∧
      ∃ q, scalarRule .notContains x (.str "a_/") false = .ok (some q) ∧
        q.truth D (Tables.ofCells []) scene = some false := by
  intro D x scene
  have hcell : x.value D (Tables.ofCells []) scene = some "2024-ab/7" := rfl
  have hbegins : pattern .beginsWith = some .beginsWith := rfl
  have hcontains : pattern .notContains = some .contains := rfl
  constructor
  · obtain ⟨q, found, hq, -, htruth, -, hplain⟩ := text_rule_matches (D := D) rfl hcell hbegins
      (v := .str "2024-") (by decide) false
    have hfound : found = true := (hplain (List.all_eq_true.1 rfl)).2 (by
      show _ <+: _
      decide)
    exact ⟨q, hq, by rw [htruth, hfound]; rfl⟩
  · obtain ⟨q, found, hq, -, htruth, hpattern, -⟩ := text_rule_matches (D := D) rfl hcell hcontains
      (v := .str "a_/") (by decide) false
    have hfound : found = true := (hpattern (.inr rfl)).2 ⟨"ab/", by
      show _ <:+: _
      decide, rfl⟩
    exact ⟨q, hq, by rw [htruth, hfound]; rfl⟩

/-- A percent sign that is asked for is found in a text without one, a backslash in front of a letter
not where it stands, and a folder whose name ends in a backslash begins no path. -/
theorem text_rule_mistakes :
    let D : Dialect := { Dialect.mute with like := like }
    let x : Expr := .column ⟨"INVOICE", "note"⟩
    let holds (op : RuleOp) (s t : String) : Prop :=
      ∃ q, scalarRule op x (.str s) false = .ok (some q) ∧ q.truth D (Tables.ofCells [])
        (Scene.empty.add "INVOICE" ([("note", t)].lookup ·)) = some true
    (holds .contains "50%" "50 apples" ∧ ¬ Pattern.contains.Places "50%" "50 apples") ∧
      (holds .notContains "a\\b" "a\\b" ∧ Pattern.contains.Places "a\\b" "a\\b") ∧
      (holds .notBeginsWith "C:\\" "C:\\tmp" ∧ Pattern.beginsWith.Places "C:\\" "C:\\tmp") := by
  refine ⟨⟨⟨_, rfl, by decide⟩, ?_⟩, ⟨⟨_, rfl, by decide⟩, ?_⟩, ⟨_, rfl, by decide⟩, ?_⟩
  · show ¬ _ <:+: _
    decide
  · show _ <:+: _
    decide
  · show _ <+: _
    decide

end CatalogQuery.Compile
