import CatalogQuery.Link.Resolve
import CatalogQuery.Proofs.Compile.Connections
import CatalogQuery.Proofs.Compile.TextRules

/-!
# Operators on connections

What each operator that compares keys is compiled to, by where a link is held. Main statement: for
equality and membership it makes no difference. Of the operators for an order, a part of a text and
bounds, a link that is held outside the row knows the search for a text alone and refuses all others; a
key in the row itself is compared with two bounds one by one, but in an order or with a part of a text
it is compared with the list of the keys.
-/

namespace CatalogQuery.Compile

open Sql

/-- The operators that ask where a text stands in an order. -/
def orderOperators : List RuleOp := [.less, .greater, .lessOrEqual, .greaterOrEqual]

/-- The operators that look for a text anywhere in another. -/
def searchOperators : List RuleOp := [.contains, .notContains]

/-- The operators that look for a text at one of the ends of another. -/
def edgeOperators : List RuleOp := [.beginsWith, .notBeginsWith, .endsWith, .notEndsWith]

/-- The operators that take two bounds. -/
def rangeOperators : List RuleOp := [.between, .notBetween]

/-- The operators that compare keys. -/
def comparingOperators : List RuleOp :=
  keyOperators ++ orderOperators ++ searchOperators ++ edgeOperators ++ rangeOperators

theorem not_relational_of_comparing {op : RuleOp} (h : op ∈ comparingOperators) :
    ¬(op = .haveRelation ∨ op = .haveNoRelation) := by
  rintro (rfl | rfl) <;> revert h <;> decide

theorem isPlaceholder_of_comparing {op : RuleOp} (h : op ∈ comparingOperators) :
    op.isPlaceholder = false := by
  revert op
  decide

theorem not_mem_connectionOperators {op : RuleOp}
    (h : op ∈ orderOperators ++ edgeOperators ++ rangeOperators) : op ∉ connectionOperators := by
  revert op
  decide

theorem comparison_of_mem_order {op : RuleOp} (h : op ∈ orderOperators) {c : Comparison}
    (hc : comparison op = some c) : (c == .eq || c == .ne) = false := by
  revert op c
  decide

/-! ## What the operators make of a list -/

theorem linkedTest_search {op : RuleOp} (h : op ∈ searchOperators) (f : Field) (column : Column)
    (keys : List Json) (v : Json) : linkedTest op f column keys v =
      .ok (some (.likeValue (.column column) .contains v false), op.isNegative) := by
  simp only [searchOperators, List.mem_cons, List.not_mem_nil, or_false] at h
  rcases h with rfl | rfl <;> rfl

theorem scalarRule_order {op : RuleOp} (h : op ∈ orderOperators) {c : Comparison}
    (hc : comparison op = some c) (e : Expr) (items : List Json) :
    scalarRule op e (.arr items) false = .ok (some (.compare e c (.value (.arr items)))) := by
  rw [scalarRule.eq_def, hc]
  dsimp only
  rw [comparisonRule, comparison_of_mem_order h hc]
  rfl

/-- The text of a list is never empty, so that a pattern with it always restricts something. -/
theorem plain_arr_isEmpty (items : List Json) : (Json.arr items).plain.isEmpty = false := by
  rw [Json.plain, Json.text]
  · cases items <;> simp [Json.write]
  all_goals simp

theorem scalarRule_pattern {op : RuleOp} {p : Pattern} (hp : pattern op = some p) (e : Expr)
    (items : List Json) :
    scalarRule op e (.arr items) false =
      .ok (some (.likeValue e p (.arr items) op.isNegative)) := by
  apply scalarRule_of_pattern hp
  simpa using plain_arr_isEmpty items

theorem scalarRule_bounds {op : RuleOp} (h : op ∈ rangeOperators) (e : Expr) (low high : Json) :
    scalarRule op e (.arr [low, high]) false =
      .ok (some (.between e (.value low) (.value high) op.isNegative)) := by
  simp only [rangeOperators, List.mem_cons, List.not_mem_nil, or_false] at h
  rcases h with rfl | rfl <;> rfl

theorem scalarRule_no_bounds {op : RuleOp} (h : op ∈ rangeOperators) (e : Expr) {items : List Json}
    (hitems : items.length ≠ 2) :
    scalarRule op e (.arr items) false = .error (.invalidCondition (.bounds op (.arr items))) := by
  simp only [rangeOperators, List.mem_cons, List.not_mem_nil, or_false] at h
  match items with
  | [] | [_] | _ :: _ :: _ :: _ => rcases h with rfl | rfl <;> rfl
  | [_, _] => exact absurd rfl hitems

/-! ## Connections -/

section

variable {env : Env} {frame : Frame} {e target : Entity} {table : String} {f : Field} {l : Link}
  {r : Rule}

/-- A link that is held outside the row is asked for by a test of linked rows. -/
theorem connectionRule_outside {inner : Inner} (hl : (link env e f.id).result = .ok l)
    (htarget : env.catalog.entity l.target = .ok target) (hown : l.isOwn = false)
    (hop : r.op ∈ comparingOperators) :
    let called := (frame.inner target "__r").table
    let column := l.keys.linkedColumn target
    (connectionRule env inner frame e table f r).result =
      (linkedTest r.op f ⟨called, column⟩ (linkedKeys r.value column) r.value).map fun test =>
        some (.related (l.correlated table called).1 (l.correlated table called).2 test.1 test.2) := by
  intro called column
  have hentity : (entity env l.target).result = .ok target := htarget
  rw [connectionRule, Traced.result_bind_of_ok hl, Traced.result_bind_of_ok hentity]
  dsimp only
  rw [if_neg (not_relational_of_comparing hop)]
  rw [Link.isOwn] at hown
  cases hkeys : l.keys with
  | own foreign key =>
    rw [hkeys] at hown
    cases hown
  | linked | junction =>
    simp only [column, hkeys]
    cases linkedTest r.op f _ _ r.value <;> rfl

/-- A key in the row itself is compared with the list of the keys. -/
theorem connectionRule_inside {inner : Inner} (hl : (link env e f.id).result = .ok l)
    (htarget : env.catalog.entity l.target = .ok target) {foreign key : String}
    (hkeys : l.keys = .own foreign key) (hop : r.op ∈ comparingOperators) :
    (connectionRule env inner frame e table f r).result =
      scalarRule r.op (.column ⟨table, foreign⟩) (.arr (linkedKeys r.value key)) false := by
  have hentity : (entity env l.target).result = .ok target := htarget
  rw [connectionRule, Traced.result_bind_of_ok hl, Traced.result_bind_of_ok hentity]
  dsimp only
  rw [if_neg (not_relational_of_comparing hop), hkeys]
  rfl

/-- A rule that compares the keys of a connection. For equality and membership the key of a linked
record, in the row or in a linked row, is one of those that the value names. Held outside the row, in
either shape, the link refuses all else whatever the value, unless a text is searched for: then a
linked row is asked for whose key contains the text of the value. Held in the row, the key is compared
with two bounds, and any other number of bounds is refused; in an order or by a pattern it is compared
with the text of the list of keys, whatever they are. -/
theorem rule_on_connection (inner : Inner) (hk : r.key ≠ Rule.constantKey)
    (hs : subject frame r.key r.joined = .ok (.field e table f)) (hc : f.isConnection = true)
    (hl : (link env e f.id).result = .ok l) (htarget : env.catalog.entity l.target = .ok target)
    (hop : r.op ∈ comparingOperators) :
    let compiled := (rule env inner frame r).result
    (l.isOwn = false →
      let called := (frame.inner target "__r").table
      let column := Expr.column ⟨called, l.keys.linkedColumn target⟩
      let asks (test : Predicate) : Prop :=
        compiled = .ok (some (.related (l.correlated table called).1 (l.correlated table called).2
          (some test) r.op.isNegative))
      (r.op ∈ keyOperators →
        asks (.among column ((linkedKeys r.value (l.keys.linkedColumn target)).map .value) false)) ∧
      (r.op ∈ searchOperators → asks (.likeValue column .contains r.value false)) ∧
      (r.op ∈ orderOperators ++ edgeOperators ++ rangeOperators →
        compiled = .error (.invalidCondition (.connectionOperator r.op f.column)))) ∧
    ∀ foreign key, l.keys = .own foreign key →
      let column := Expr.column ⟨table, foreign⟩
      let keys := linkedKeys r.value key
      (r.op ∈ keyOperators →
        compiled = .ok (some (.among column (keys.map .value) r.op.isNegative))) ∧
      (r.op ∈ rangeOperators →
        (∀ low high, keys = [low, high] →
          compiled = .ok (some (.between column (.value low) (.value high) r.op.isNegative))) ∧
        (keys.length ≠ 2 → compiled = .error (.invalidCondition (.bounds r.op (.arr keys))))) ∧
      (r.op ∈ orderOperators → ∀ c, comparison r.op = some c →
        compiled = .ok (some (.compare column c (.value (.arr keys))))) ∧
      ∀ p, pattern r.op = some p →
        compiled = .ok (some (.likeValue column p (.arr keys) r.op.isNegative)) := by
  intro compiled
  have hcompiled : compiled = (connectionRule env inner frame e table f r).result := by
    show (rule env inner frame r).result = _
    rw [rule_of_field (isPlaceholder_of_comparing hop) hk hs, if_pos hc]
  constructor
  · intro hown called column asks
    have houtside := hcompiled.trans (connectionRule_outside hl htarget hown hop)
    refine ⟨fun hkeys => ?_, fun hsearch => ?_, fun hother => ?_⟩
    · show compiled = _
      rw [houtside, linkedTest_keys hkeys]
      rfl
    · show compiled = _
      rw [houtside, linkedTest_search hsearch]
      rfl
    · rw [houtside, linkedTest_of_not_mem (not_mem_connectionOperators hother)]
      rfl
  · intro foreign key hown column keys
    have hinside := hcompiled.trans (connectionRule_inside hl htarget hown hop)
    refine ⟨fun hkeys => ?_, fun hrange => ⟨fun low high hbounds => ?_, fun hlength => ?_⟩,
      fun horder c hcomparison => ?_, fun p hpattern => ?_⟩
    · exact hinside.trans (scalarRule_keys hkeys ⟨table, foreign⟩ keys)
    · rw [hinside, show linkedKeys r.value key = [low, high] from hbounds, scalarRule_bounds hrange]
    · exact hinside.trans (scalarRule_no_bounds hrange column hlength)
    · exact hinside.trans (scalarRule_order horder hcomparison column keys)
    · exact hinside.trans (scalarRule_pattern hpattern column keys)

end

/-- Invoices with a customer between two keys, and invoices with a tag whose key contains a text. -/
theorem rule_on_connection_invoice :
    let c := Field.new "c" "customer" (.connection (.between "customer" .one .many))
    let g := Field.new "g" "tags" (.connection (.between "tag" .many .many))
    let invoice := Entity.new "invoice" "Invoice" "INVOICE" [c, g]
    let customer := Entity.new "customer" "Customer" "CUSTOMER" []
    let tag := Entity.new "tag" "Tag" "TAG" []
    let catalog : Catalog := ⟨[invoice, customer, tag], [], []⟩
    let env : Env := ⟨{}, catalog, LinkMap.ofCatalog {} catalog, "en", []⟩
    let compiled (key : String) (op : RuleOp) (v : Json) : Result (Option Predicate) :=
      (rule env (within env 0) (Frame.base invoice) ⟨key, op, v, none⟩).result
    compiled "customer" .between (.arr [.str "c1", .str "c5"]) =
        .ok (some (.between (.column ⟨"INVOICE", "customer"⟩) (.value (.str "c1"))
          (.value (.str "c5")) false)) ∧
      (∃ source on, compiled "tags" .contains (.str "t") = .ok (some (.related source on
        (some (.likeValue (.column ⟨"__r1", "uuid"⟩) .contains (.str "t") false)) false))) ∧
      compiled "tags" .less (.str "t") =
        .error (.invalidCondition (.connectionOperator .less "tags")) := by
  intro c g invoice customer tag catalog env compiled
  have hcustomer : (link env invoice c.id).result = .ok ⟨"c", "customer", "customer__relation",
      .oneToMany, "customer", "CUSTOMER", false, .own "customer" "uuid"⟩ := rfl
  have htags : (link env invoice g.id).result = .ok ⟨"g", "tags", "tags__relation", .manyToMany,
      "tag", "TAG", true, .junction "JOINMN_INVOICE_TAG_tags" "INVOICE" "TAG" "uuid" "uuid"⟩ := by
    dsimp only [env, catalog, invoice, customer, tag, c, g]
    rfl
  have hon : subject (.base invoice) "customer" none = .ok (.field invoice "INVOICE" c) := rfl
  have hoff : subject (.base invoice) "tags" none = .ok (.field invoice "INVOICE" g) := rfl
  have hlinked : env.catalog.entity "customer" = .ok customer := rfl
  have htag : env.catalog.entity "tag" = .ok tag := rfl
  refine ⟨?_, ?_, ?_⟩
  · have hinside := (rule_on_connection (r := ⟨"customer", .between, .arr [.str "c1", .str "c5"], none⟩)
      (within env 0) (by decide) hon rfl hcustomer hlinked (by decide)).2
    exact ((hinside "customer" "uuid" rfl).2.1 (by decide)).1 _ _ rfl
  · have houtside := (rule_on_connection (r := ⟨"tags", .contains, .str "t", none⟩)
      (within env 0) (by decide) hoff rfl htags htag (by decide)).1
    have hcalled : ((Frame.base invoice).inner tag "__r").table = "__r1" := by decide
    have hasks := (houtside rfl).2.1 (by decide)
    rw [hcalled] at hasks
    exact ⟨_, _, hasks⟩
  · have houtside := (rule_on_connection (r := ⟨"tags", .less, .str "t", none⟩)
      (within env 0) (by decide) hoff rfl htags htag (by decide)).1
    exact (houtside rfl).2.2 (by decide)

/-- What is refused for tags compares a customer with a list, as the search for a text does. -/
theorem rule_on_connection_list :
    let c := Field.new "c" "customer" (.connection (.between "customer" .one .many))
    let g := Field.new "g" "tags" (.connection (.between "tag" .many .many))
    let invoice := Entity.new "invoice" "Invoice" "INVOICE" [c, g]
    let customer := Entity.new "customer" "Customer" "CUSTOMER" []
    let tag := Entity.new "tag" "Tag" "TAG" []
    let catalog : Catalog := ⟨[invoice, customer, tag], [], []⟩
    let env : Env := ⟨{}, catalog, LinkMap.ofCatalog {} catalog, "en", []⟩
    let result (key : String) (op : RuleOp) (v : Json) : Result (Option Predicate) :=
      (condition env (Frame.base invoice) (.ofRule key op v)).result
    let text (key : String) (op : RuleOp) (v : Json) : Option String :=
      (result key op v).toOption.join.map (·.sql.toText)
    text "customer" .less (.str "c1") = some "`INVOICE`.`customer` < '[\"c1\"]'" ∧
      result "tags" .less (.str "c1") =
        .error (.invalidCondition (.connectionOperator .less "tags")) ∧
      text "customer" .contains (.str "c1") =
        some "`INVOICE`.`customer` LIKE '%[\"c1\"]%'" := by
  intro c g invoice customer tag catalog env result text
  refine ⟨?_, rfl, ?_⟩ <;> decide +kernel

end CatalogQuery.Compile
