import CatalogQuery.Compile.Tree
import CatalogQuery.Proofs.Session.Outcomes
import CatalogQuery.Proofs.Sql.Composed

/-!
# What conditions are compiled to is composed

Only a calculation takes over characters of the metadata as they are. Main statement: where no field
is calculated, every predicate that a condition is compiled to is composed, and so is every
expression that a result is ordered by or computed with.
-/

namespace CatalogQuery

/-- Whether the values are calculated by a formula that the metadata spells out. -/
def Field.isCalculated (f : Field) : Bool :=
  match f.type with
  | .calculate _ => true
  | _ => false

def Entity.Uncalculated (e : Entity) : Prop := ∀ f ∈ e.fields, f.isCalculated = false

def Catalog.Uncalculated (c : Catalog) : Prop := ∀ e ∈ c.entities, e.Uncalculated

theorem Entity.mem_of_field {e : Entity} {key : String} {f : Field} (h : e.field key = some f) :
    f ∈ e.fields := by
  rw [field, fieldById] at h
  split at h
  · rename_i hid
    cases h
    exact List.mem_of_find?_eq_some hid
  · exact List.mem_of_find?_eq_some h

theorem Catalog.mem_of_entity? {c : Catalog} {id : String} {e : Entity}
    (h : c.entity? id = some e) : e ∈ c.entities := List.mem_of_find?_eq_some h

theorem Catalog.entity_eq_ok {c : Catalog} {id : String} {e : Entity} :
    c.entity id = .ok e ↔ c.entity? id = some e := by
  rw [Catalog.entity]
  cases c.entity? id <;> simp

theorem Catalog.id_of_entity {c : Catalog} {id : String} {e : Entity} (h : c.entity id = .ok e) :
    e.id = id := by
  simpa using List.find?_some (Catalog.entity_eq_ok.1 h)

theorem Catalog.mem_of_entity {c : Catalog} {id : String} {e : Entity} (h : c.entity id = .ok e) :
    e ∈ c.entities := Catalog.mem_of_entity? (Catalog.entity_eq_ok.1 h)

theorem Catalog.Uncalculated.entity {c : Catalog} (hc : c.Uncalculated) {id : String} {e : Entity}
    (h : c.entity id = .ok e) : e.Uncalculated := hc e (Catalog.mem_of_entity h)

namespace Sql

theorem Predicate.composed_compareValue {e : Expr} (he : e.Composed) (c : Comparison) (v : Json) :
    (compareValue e c v).Composed := by
  rw [compareValue]
  split
  · exact he
  · exact ⟨he, trivial⟩

theorem Predicate.composed_among {e : Expr} (he : e.Composed) {items : List Operand}
    (hi : ∀ o ∈ items, o.Composed) (negated : Bool) : (among e items negated).Composed := by
  rw [among]
  split
  · trivial
  · exact ⟨he, hi⟩

theorem Predicate.composed_member {e : Expr} (he : e.Composed) (item : String) (negated : Bool) :
    (member e item negated).Composed := by
  cases negated with
  | false => exact he
  | true => exact ⟨by simp, he, he, trivial⟩

/-- Predicates are put in parentheses when there are several of them. -/
theorem Predicate.composed_glue {ps : List Predicate} (h : ∀ p ∈ ps, p.Composed) (g : Glue) :
    FilterComposed (glue g ps) := by
  match ps with
  | [] => trivial
  | [p] => exact h p (by simp)
  | p :: q :: rest => exact ⟨by simp, partsComposed_iff.2 h⟩

end Sql

namespace Compile

open Sql

theorem composed_operand (byDay : Bool) (v : Json) : (operand byDay v).Composed := by
  cases byDay <;> trivial

theorem composed_dated {e : Expr} (he : e.Composed) (byDay : Bool) :
    (if byDay then Expr.date e else e).Composed := by
  cases byDay <;> exact he

theorem composed_comparisonRule {e : Expr} (he : e.Composed) (c : Comparison) (v : Json)
    (byDay : Bool) : FilterComposed (comparisonRule c e v byDay) := by
  have hleft := composed_dated he byDay
  have hcompare (v : Json) : FilterComposed
      (some (.compare (if byDay then Expr.date e else e) c (operand byDay v))) :=
    ⟨hleft, composed_operand byDay v⟩
  cases v with
  | null =>
    simp only [comparisonRule]
    split
    · exact Predicate.composed_compareValue he c .null
    · trivial
  | arr items =>
    have hamong : FilterComposed (some (.among (if byDay then Expr.date e else e)
        (items.map (operand byDay)) (c == .ne))) := by
      refine Predicate.composed_among hleft (fun o ho => ?_) _
      obtain ⟨v, -, rfl⟩ := List.mem_map.1 ho
      exact composed_operand byDay v
    -- A list is compared like other values, unless it is asked for equality.
    simp only [comparisonRule]
    cases (c == .eq || c == .ne) with
    | true => exact hamong
    | false => exact hcompare _
  | bool _ => exact hcompare _
  | num _ => exact hcompare _
  | str _ => exact hcompare _
  | obj _ => exact hcompare _

theorem composed_scalarRule {op : RuleOp} {e : Expr} (he : e.Composed) {v : Json} {byDay : Bool}
    {p : Option Predicate} (h : scalarRule op e v byDay = .ok p) : FilterComposed p := by
  have hleft := composed_dated he byDay
  simp only [scalarRule] at h
  split at h
  · cases h
    exact composed_comparisonRule he _ v byDay
  split at h
  · cases h
    split
    · trivial
    · exact he
  -- The operators that are neither comparisons nor patterns, in the order of the definition.
  split at h
  case h_1 | h_2 =>
    split at h
    · cases h
      exact ⟨hleft, composed_operand byDay _, composed_operand byDay _⟩
    · cases h
  case h_3 | h_4 | h_5 | h_6 =>
    cases h
    exact he
  case h_7 | h_8 =>
    cases h
    refine Predicate.composed_among hleft (fun o ho => ?_) _
    obtain ⟨v, -, rfl⟩ := List.mem_map.1 ho
    exact composed_operand byDay v
  case h_9 =>
    cases h
    exact ⟨he, trivial⟩
  case h_10 => cases h

theorem composed_arrayRule {op : RuleOp} {e : Expr} (he : e.Composed) {v : Json}
    {p : Option Predicate} (h : arrayRule op e v = .ok p) : FilterComposed p := by
  have hmembers (negated : Bool) (items : List String) :
      ∀ p ∈ items.map (fun i => Predicate.member e i negated), p.Composed := by
    intro p hp
    obtain ⟨i, -, rfl⟩ := List.mem_map.1 hp
    exact Predicate.composed_member he i negated
  simp only [arrayRule] at h
  split at h
  case h_1 | h_2 | h_3 =>
    cases h
    -- Where nothing is glued the rule is never true.
    have hg := Predicate.composed_glue (hmembers false ((valuesOf v).map Json.plain)) .or
    cases hglue : Predicate.glue .or
      (((valuesOf v).map Json.plain).map fun i => Predicate.member e i false) with
    | none => trivial
    | some q =>
      rw [hglue] at hg
      exact hg
  case h_4 | h_5 | h_6 =>
    cases h
    exact Predicate.composed_glue (hmembers true _) .and
  case h_7 | h_8 =>
    cases h
    exact ⟨by simp, he, ⟨he, trivial⟩, trivial⟩
  case h_9 => exact composed_scalarRule he h

theorem composed_constantRule {op : RuleOp} {v : Json} {p : Predicate}
    (h : constantRule op v = .ok p) : p.Composed := by
  rw [constantRule.eq_def] at h
  split at h <;> cases h <;> trivial

theorem composed_linkedTest {op : RuleOp} {f : Field} {key : Column} {keys : List Json} {v : Json}
    {t : Option Predicate × Bool} (h : linkedTest op f key keys v = .ok t) :
    FilterComposed t.1 := by
  rw [linkedTest.eq_def] at h
  split at h
  case h_1 | h_2 | h_3 | h_4 =>
    cases h
    refine Predicate.composed_among (e := .column _) trivial (fun o ho => ?_) _
    obtain ⟨v, -, rfl⟩ := List.mem_map.1 ho
    trivial
  case h_11 => cases h
  all_goals
    cases h
    trivial

/-! ## Frames -/

/-- Whether neither the object of a frame nor one joined to it has calculated fields. -/
structure Frame.Uncalculated (frame : Frame) : Prop where
  entity : frame.entity.Uncalculated
  aliases : ∀ p ∈ frame.aliases, p.2.Uncalculated

theorem Frame.Uncalculated.base {e : Entity} (h : e.Uncalculated) : (Frame.base e).Uncalculated :=
  ⟨h, by simp [Frame.base]⟩

theorem Frame.Uncalculated.inner {e : Entity} (h : e.Uncalculated) (frame : Frame) (head : String) :
    (frame.inner e head).Uncalculated :=
  ⟨h, by simp [Frame.inner]⟩

theorem Frame.Uncalculated.withAlias {frame : Frame} (hf : frame.Uncalculated) {e : Entity}
    (h : e.Uncalculated) (name : String) : (frame.withAlias name e).Uncalculated := by
  refine ⟨hf.entity, fun p hp => ?_⟩
  rcases List.mem_cons.1 hp with rfl | hp
  · exact h
  · exact hf.aliases p hp

theorem Frame.Uncalculated.owner {frame : Frame} (hf : frame.Uncalculated) {joined : Option String}
    {e : Entity} {table : String} (h : Compile.owner frame joined = .ok (e, table)) :
    e.Uncalculated := by
  cases joined with
  | none =>
    cases h
    exact hf.entity
  | some name =>
    simp only [Compile.owner, Frame.aliased?] at h
    cases hfind : frame.aliases.find? (·.1 == name) with
    | none =>
      rw [hfind] at h
      cases h
    | some p =>
      rw [hfind] at h
      cases h
      exact hf.aliases p (List.mem_of_find?_eq_some hfind)

/-- Whether a key stands for no calculated field. -/
def Subject.Uncalculated : Subject → Prop
  | .column _ => True
  | .field e _ f => e.Uncalculated ∧ f.isCalculated = false

theorem Frame.Uncalculated.subject {frame : Frame} (hf : frame.Uncalculated) {key : String}
    {joined : Option String} {s : Subject} (h : Compile.subject frame key joined = .ok s) :
    s.Uncalculated := by
  rw [Compile.subject] at h
  split at h
  · rename_i e table howner
    have he := hf.owner howner
    rw [subjectOf] at h
    -- Only a field can be calculated; the key column and the times are no fields.
    split at h
    · cases h
      trivial
    split at h
    · rename_i f hfield
      cases h
      exact ⟨he, he f (Entity.mem_of_field hfield)⟩
    split at h
    · cases h
      trivial
    · cases h
  · cases h

/-! ## Conditions -/

/-- The ways in which a rule is compiled: as one about the constant, about a column that is no field,
about a connection, or about another field. -/
inductive RuleCase (env : Env) (inner : Inner) (frame : Frame) (r : Rule) : Option Predicate → Prop where
  | constant {p : Predicate} (key : r.key = Rule.constantKey)
      (compiled : constantRule r.op r.value = .ok p) : RuleCase env inner frame r (some p)
  | column {c : Column} {p : Option Predicate}
      (about : subject frame r.key r.joined = .ok (.column c))
      (compiled : scalarRule r.op (.column c) r.value false = .ok p) : RuleCase env inner frame r p
  | connection {e : Entity} {table : String} {f : Field} {p : Option Predicate}
      (about : subject frame r.key r.joined = .ok (.field e table f)) (links : f.isConnection = true)
      (compiled : (connectionRule env inner frame e table f r).result = .ok p) :
      RuleCase env inner frame r p
  | field {e : Entity} {table : String} {f : Field} {p : Option Predicate}
      (about : subject frame r.key r.joined = .ok (.field e table f)) (plain : f.isConnection = false)
      (compiled : (fieldRule env inner frame e table f r).result = .ok p) :
      RuleCase env inner frame r p

theorem rule_cases {env : Env} {inner : Inner} {frame : Frame} {r : Rule} {p : Option Predicate}
    (h : (rule env inner frame r).result = .ok p) : RuleCase env inner frame r p := by
  rw [rule] at h
  split at h
  · cases h
  split at h
  · rename_i hkey
    cases hconstant : constantRule r.op r.value with
    | error e =>
      rw [hconstant] at h
      cases h
    | ok q =>
      rw [hconstant] at h
      cases h
      exact .constant hkey hconstant
  obtain ⟨s, hs, h⟩ := Traced.result_bind_ok.1 h
  cases s with
  | column c => exact .column hs h
  | field e table f =>
    dsimp only at h
    split at h
    · rename_i hf
      exact .connection hs hf h
    · rename_i hf
      exact .field hs (Bool.eq_false_iff.2 hf) h

theorem ensures_subject {frame : Frame} (hf : frame.Uncalculated) (key : String)
    (joined : Option String) :
    (Traced.ofResult (subject frame key joined)).Ensures Subject.Uncalculated :=
  .ofResult fun _ h => hf.subject h

theorem ensures_entity {env : Env} (hc : env.catalog.Uncalculated) (id : String) :
    (entity env id).Ensures Entity.Uncalculated :=
  .ofResult fun _ h => hc.entity h

/-- Whether the conditions of subqueries are compiled to what is composed. -/
def Inner.Composed (inner : Inner) : Prop :=
  ∀ frame c, frame.Uncalculated → (inner frame c).Ensures FilterComposed

section

variable {env : Env} {inner : Inner} (hc : env.catalog.Uncalculated) (hi : inner.Composed)
include hc hi

theorem ensures_formulaExpr (frame : Frame) (e : Entity) (table : String) (f : Field)
    (formula : Formula) :
    (formulaExpr env inner frame e table f formula).Ensures Expr.Composed := by
  rw [formulaExpr]
  refine Traced.Ensures.trivial.bind fun l _ => ?_
  refine (ensures_entity hc l.target).bind fun target htarget => ?_
  split
  · exact .fail
  dsimp only
  split
  · rename_i c _
    exact (hi _ c (.inner htarget frame "__f")).bind fun filter hp => .pure hp
  · exact .pure trivial

theorem ensures_fieldExpr (frame : Frame) (e : Entity) (table : String) {f : Field}
    (hf : f.isCalculated = false) :
    (fieldExpr env inner frame e table f).Ensures Expr.Composed := by
  rw [fieldExpr]
  split
  · exact ensures_formulaExpr hc hi frame e table f _
  · rename_i expression htype
    rw [Field.isCalculated, htype] at hf
    cases hf
  split
  · exact .pure trivial
  · exact .pure trivial

theorem ensures_connectionRule (frame : Frame) (e : Entity) (table : String) (f : Field)
    (r : Rule) : (connectionRule env inner frame e table f r).Ensures FilterComposed := by
  rw [connectionRule]
  refine Traced.Ensures.trivial.bind fun l _ => ?_
  refine (ensures_entity hc l.target).bind fun target htarget => ?_
  -- The linked object is in the catalog, so its frame has no calculated fields either.
  dsimp only
  split
  · split
    · rename_i c _
      exact (hi _ c (.inner htarget frame "__r")).bind fun filter hp => .pure hp
    · exact .pure trivial
  split
  · refine .ofResult fun p hp => ?_
    exact composed_scalarRule (e := .column _) trivial hp
  · have htest (r : Rule) (c : Column) (keys : List Json) :
        (Traced.ofResult (linkedTest r.op f c keys r.value)).Ensures fun t =>
          FilterComposed t.1 :=
      .ofResult fun t ht => composed_linkedTest ht
    exact (htest r _ _).bind fun t ht => .pure ht

theorem ensures_fieldRule (frame : Frame) (e : Entity) (table : String) {f : Field}
    (hf : f.isCalculated = false) (r : Rule) :
    (fieldRule env inner frame e table f r).Ensures FilterComposed := by
  rw [fieldRule]
  refine (ensures_fieldExpr hc hi frame e table hf).bind fun expr he => ?_
  refine .ofResult fun p hp => ?_
  split at hp
  · exact composed_arrayRule he hp
  · exact composed_scalarRule he hp

theorem ensures_rule {frame : Frame} (hf : frame.Uncalculated) (r : Rule) :
    (rule env inner frame r).Ensures FilterComposed := by
  intro p hp
  cases rule_cases hp with
  | constant _ h => exact composed_constantRule h
  | @column c _ _ h => exact composed_scalarRule (e := .column c) trivial h
  | connection _ _ h => exact ensures_connectionRule hc hi frame _ _ _ r _ h
  | field hs _ h => exact ensures_fieldRule hc hi frame _ _ (hf.subject hs).2 r _ h

end

mutual
theorem ensures_tree {rule : Rule → Traced (Option Predicate)}
    (h : ∀ r, (rule r).Ensures FilterComposed) :
    (c : Condition) → (tree rule c).Ensures FilterComposed
  | .group glue nodes => by
    rw [tree]
    exact (ensures_trees h nodes).bind fun parts hp => .pure (Predicate.composed_glue hp glue)
  | .rule r => by
    rw [tree]
    exact h r
  | .malformed node => by
    rw [tree]
    exact .fail
theorem ensures_trees {rule : Rule → Traced (Option Predicate)}
    (h : ∀ r, (rule r).Ensures FilterComposed) :
    (cs : List Condition) → (trees rule cs).Ensures fun parts => ∀ p ∈ parts, p.Composed
  | [] => by
    rw [trees]
    exact .pure (by simp)
  | c :: rest => by
    rw [trees]
    refine (ensures_tree h c).bind fun part hp => ?_
    refine (ensures_trees h rest).bind fun parts hps => .pure fun p hmem => ?_
    rcases List.mem_append.1 hmem with hmem | hmem
    · rw [Option.mem_toList] at hmem
      cases hmem
      exact hp
    · exact hps p hmem
end

section

variable {env : Env} (hc : env.catalog.Uncalculated)
include hc

theorem composed_within (levels : Nat) : (within env levels).Composed := by
  induction levels with
  | zero =>
    intro frame c _
    exact .fail
  | succ levels ih =>
    intro frame c hf
    exact ensures_tree (ensures_rule hc ih hf) c

/-- What a condition is compiled to is composed. -/
theorem ensures_condition {frame : Frame} (hf : frame.Uncalculated) (c : Condition) :
    (condition env frame c).Ensures FilterComposed :=
  composed_within hc _ frame c hf

theorem ensures_sortExpr {frame : Frame} (hf : frame.Uncalculated) (s : SortKey) :
    (sortExpr env frame s).Ensures Expr.Composed := by
  rw [sortExpr]
  refine (ensures_subject hf s.key none).bind fun t ht => ?_
  cases t with
  | column c => exact .pure trivial
  | field e table f =>
    have hplain := ensures_fieldExpr hc (composed_within hc (formulaLevels env)) frame e table ht.2
    dsimp only
    split
    · split
      · exact hplain
      · exact .pure trivial
    · exact hplain

theorem ensures_ordering {frame : Frame} (hf : frame.Uncalculated) (sort : List SortKey) :
    (ordering env frame sort).Ensures fun order => ∀ o ∈ order, o.expr.Composed :=
  .mapM fun s _ => (ensures_sortExpr hc hf s).bind fun _ he => .pure he

theorem ensures_virtualExpr {frame : Frame} (links : LinkMap) {f : Field}
    (hf : f.isCalculated = false) : (virtualExpr env frame links f).Ensures Expr.Composed := by
  have hplain := ensures_fieldExpr hc (composed_within hc (formulaLevels env)) frame frame.entity
    frame.table hf
  rw [virtualExpr]
  split
  · split
    · exact Traced.Ensures.trivial.bind fun _ _ => .pure trivial
    · exact hplain
  · exact hplain

theorem ensures_virtualColumns {frame : Frame} (hf : frame.Uncalculated) :
    (virtualColumns env frame).Ensures fun columns => ∀ c ∈ columns, c.Composed := by
  rw [virtualColumns]
  refine Traced.Ensures.trivial.bind fun links _ => .mapM fun f hmem => ?_
  have hcalculated := hf.entity f (List.mem_filter.1 hmem).1
  exact (ensures_virtualExpr hc links hcalculated).bind fun _ he => .pure he

end

end Compile

end CatalogQuery
