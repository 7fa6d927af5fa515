import CatalogQuery.Link.Resolve
import CatalogQuery.Proofs.Compile.Renaming

/-!
# The names of subqueries

Tables go by names of their own in subqueries, which tell how deep these lie. Main statement: if the
names at hand do not begin like those, no subquery of a compiled condition takes a name that is taken
where it stands, and each is tied to the row of the level right around it.
-/

namespace CatalogQuery

namespace Sql

/-- What belongs to an outer row: where its rows come from, which of them belong to it, and what
narrows them. -/
structure Subquery where
  source : Source
  on : ColumnPair
  filter : Option Predicate

/-- The names under which the tables of a source are known. -/
def Source.references (s : Source) : List String := s.called.getD s.table :: s.joins.map (·.called)

/-- The name of the rows that conditions inside a subquery are about: those of its last table. -/
def Subquery.linked (q : Subquery) : String :=
  q.source.references.getLast (List.cons_ne_nil _ _)

/-- The subqueries that an expression asks of the row that it is about. -/
def Expr.subqueries : Expr → List Subquery
  | .date e => e.subqueries
  | .translation e _ _ => e.subqueries
  | .position e _ => e.subqueries
  | .aggregate _ _ source on filter => [⟨source, on, filter⟩]
  | .raw _ | .column _ | .bare _ | .null | .calculation _ => []

mutual
/-- The subqueries that a predicate asks of the row that it is about. -/
def Predicate.subqueries : Predicate → List Subquery
  | .compare e _ _ => e.subqueries
  | .isNull e _ => e.subqueries
  | .isEmpty e _ => e.subqueries
  | .like e _ _ => e.subqueries
  | .between e _ _ _ => e.subqueries
  | .oneOf e _ _ => e.subqueries
  | .inSubquery e _ _ => e.subqueries
  | .related source on filter _ => [⟨source, on, filter⟩]
  | .glued _ parts => partsSubqueries parts
  | .raw _ | .constant _ | .existsIn _ _ => []
def partsSubqueries : List Predicate → List Subquery
  | [] => []
  | p :: rest => p.subqueries ++ partsSubqueries rest
end

def filterSubqueries : Option Predicate → List Subquery
  | none => []
  | some p => p.subqueries

theorem mem_partsSubqueries {parts : List Predicate} {q : Subquery} :
    q ∈ partsSubqueries parts ↔ ∃ p ∈ parts, q ∈ p.subqueries := by
  induction parts with
  | nil => simp [partsSubqueries]
  | cons p rest ih => simp [partsSubqueries, ih]

/-- Whether a subquery captures nothing, and none inside it does: its names differ from each other and
from those of all around it, `outer`, and its rows belong to the row known as `base`. -/
inductive Subquery.Hygienic : (outer : List String) → (base : String) → Subquery → Prop
  | mk {outer : List String} {base : String} {q : Subquery} (distinct : q.source.references.Nodup)
    (fresh : ∀ n ∈ q.source.references, n ∉ outer)
    (left : q.on.left.table ∈ q.source.references) (right : q.on.right.table = base)
    (inside : ∀ q' ∈ filterSubqueries q.filter,
      Hygienic (outer ++ q.source.references) q.linked q') : Hygienic outer base q

/-! ## Rules on a value -/

theorem subqueries_compareValue (e : Expr) (c : Comparison) (v : Json) :
    (Predicate.compareValue e c v).subqueries = e.subqueries := by
  rw [Predicate.compareValue]
  split <;> rfl

theorem subqueries_among {e : Expr} {items : List Operand} {negated : Bool} {q : Subquery}
    (h : q ∈ (Predicate.among e items negated).subqueries) : q ∈ e.subqueries := by
  rw [Predicate.among] at h
  split at h
  · cases h
  · exact h

theorem subqueries_member {e : Expr} {item : String} {negated : Bool} {q : Subquery}
    (h : q ∈ (Predicate.member e item negated).subqueries) : q ∈ e.subqueries := by
  cases negated with
  | false => exact h
  | true => simpa [Predicate.member, Predicate.subqueries, partsSubqueries] using h

theorem subqueries_glue {g : Glue} {ps : List Predicate} {q : Subquery}
    (h : q ∈ filterSubqueries (Predicate.glue g ps)) : ∃ p ∈ ps, q ∈ p.subqueries := by
  match ps with
  | [] => cases h
  | [p] => exact ⟨p, by simp, h⟩
  | p :: p' :: rest => exact mem_partsSubqueries.1 h

end Sql

namespace Compile

open Sql

theorem subqueries_day (e : Expr) (byDay : Bool) :
    (if byDay then Expr.date e else e).subqueries = e.subqueries := by
  cases byDay <;> rfl

theorem subqueries_comparisonRule {c : Comparison} {e : Expr} {v : Json} {byDay : Bool} {q : Subquery}
    (h : q ∈ filterSubqueries (comparisonRule c e v byDay)) : q ∈ e.subqueries := by
  have hday := subqueries_day e byDay
  rw [comparisonRule.eq_def] at h
  cases v with
  | null =>
    dsimp only at h
    split at h
    · exact subqueries_compareValue e c .null ▸ h
    · cases h
  | arr items =>
    dsimp only at h
    split at h
    · exact hday ▸ subqueries_among h
    · exact hday ▸ h
  | bool | num | str | obj => exact hday ▸ h

/-- A rule on an expression asks no subqueries but those of the expression. -/
theorem subqueries_scalarRule {op : RuleOp} {e : Expr} {v : Json} {byDay : Bool}
    {p : Option Predicate} (h : scalarRule op e v byDay = .ok p) {q : Subquery}
    (hq : q ∈ filterSubqueries p) : q ∈ e.subqueries := by
  have hday := subqueries_day e byDay
  rw [scalarRule.eq_def] at h
  dsimp only at h
  split at h
  · cases h
    exact subqueries_comparisonRule hq
  split at h
  · cases h
    split at hq
    · cases hq
    · exact hq
  cases op with
  | between | notBetween =>
    dsimp only at h
    split at h
    · cases h
      exact hday ▸ hq
    · cases h
  | «in» | notIn =>
    cases h
    exact hday ▸ subqueries_among hq
  | isEmpty | isNotEmpty | isNull | isNotNull | isCurrentDate =>
    cases h
    exact hq
  | _ => cases h

theorem subqueries_arrayRule {op : RuleOp} {e : Expr} {v : Json} {p : Option Predicate}
    (h : arrayRule op e v = .ok p) {q : Subquery} (hq : q ∈ filterSubqueries p) :
    q ∈ e.subqueries := by
  have hmembers {g : Glue} {negated : Bool} {items : List String} (hq : q ∈ filterSubqueries
      (Predicate.glue g (items.map fun i => Predicate.member e i negated))) : q ∈ e.subqueries := by
    obtain ⟨_, hp, hq⟩ := subqueries_glue hq
    obtain ⟨i, -, rfl⟩ := List.mem_map.1 hp
    exact subqueries_member hq
  rw [arrayRule.eq_def] at h
  dsimp only at h
  cases op with
  | equals | contains | «in» =>
    cases h
    -- Where there are no members the rule is a constant.
    cases hglue : Predicate.glue .or
        (((valuesOf v).map Json.plain).map fun i => Predicate.member e i false) with
    | none =>
      rw [hglue] at hq
      cases hq
    | some p =>
      rw [hglue] at hq
      exact hmembers (hglue ▸ hq)
  | notEqual | notContains | notIn =>
    cases h
    exact hmembers hq
  | isEmpty | isNotEmpty =>
    cases h
    simpa [filterSubqueries, Predicate.subqueries, partsSubqueries] using hq
  | _ => exact subqueries_scalarRule h hq

theorem subqueries_constantRule {op : RuleOp} {v : Json} {p : Predicate}
    (h : constantRule op v = .ok p) : p.subqueries = [] := by
  rw [constantRule.eq_def] at h
  split at h <;> cases h <;> rfl

theorem subqueries_linkedTest {op : RuleOp} {f : Field} {key : Column} {keys : List Json} {v : Json}
    {t : Option Predicate × Bool} (h : linkedTest op f key keys v = .ok t) :
    filterSubqueries t.1 = [] := by
  rw [linkedTest.eq_def] at h
  split at h <;> cases h
  case h_1 | h_2 | h_3 | h_4 =>
    exact List.eq_nil_iff_forall_not_mem.2 fun q hq => List.not_mem_nil (subqueries_among hq)
  all_goals rfl

/-! ## Names -/

/-- Whether no name is one that a table takes in subqueries deeper than this. -/
def Unused (depth : Nat) (outer : List String) : Prop :=
  ∀ n ∈ outer, ∀ head ∈ heads, ∀ d, depth < d →
    n ≠ levelName head d ∧ n ≠ Link.junctionAlias (levelName head d)

theorem Unused.append {depth : Nat} {outer names : List String} (houter : Unused depth outer)
    (hnames : Unused depth names) : Unused depth (outer ++ names) := by
  intro n hn
  rcases List.mem_append.1 hn with h | h
  · exact houter n h
  · exact hnames n h

theorem Unused.mono {depth depth' : Nat} {outer : List String} (h : Unused depth outer)
    (hle : depth ≤ depth') : Unused depth' outer :=
  fun n hn head hhead d hd => h n hn head hhead d (Nat.lt_of_le_of_lt hle hd)

theorem junctionAlias_injective {a b : String} (h : Link.junctionAlias a = Link.junctionAlias b) :
    a = b := by
  have hlists := congrArg String.toList h
  simp only [Link.junctionAlias, String.toList_append] at hlists
  exact String.toList_inj.1 (List.append_inj_left' hlists rfl)

/-- The names of one level are none of a deeper one. -/
theorem unused_levelName {head : String} (hhead : head ∈ heads) (depth : Nat) :
    Unused depth [levelName head depth, Link.junctionAlias (levelName head depth)] := by
  intro n hn head' hhead' d hd
  have hdepth : depth ≠ d := Nat.ne_of_lt hd
  rcases List.mem_pair.1 hn with rfl | rfl
  · exact ⟨fun h => hdepth (depth_of_levelName hhead hhead' h),
      levelName_ne_junctionAlias hhead hhead' depth d⟩
  · exact ⟨(levelName_ne_junctionAlias hhead' hhead d depth).symm,
      fun h => hdepth (depth_of_levelName hhead hhead' (junctionAlias_injective h))⟩

/-- A link takes the name that it is given, and before it that of a junction if it goes through
one. -/
theorem references_correlated (l : Link) (base called : String) : ∃ junction,
    (l.correlated base called).1.references = junction ++ [called] ∧
      (junction = [] ∨ junction = [Link.junctionAlias called]) := by
  rw [Link.correlated]
  cases l.keys with
  | own | linked => exact ⟨[], rfl, .inl rfl⟩
  | junction => exact ⟨[Link.junctionAlias called], rfl, .inr rfl⟩

theorem on_correlated (l : Link) (base called : String) :
    (l.correlated base called).2.left.table ∈ (l.correlated base called).1.references ∧
      (l.correlated base called).2.right.table = base := by
  rw [Link.correlated]
  cases l.keys <;> simp [Source.references]

/-- The linked rows of a row, under the names of the next level. -/
theorem hygienic_correlated (l : Link) (base : String) {head : String} (hhead : head ∈ heads)
    {depth : Nat} {outer : List String} (houter : Unused depth outer) {filter : Option Predicate}
    (hfilter : ∀ outer', Unused (depth + 1) outer' →
      ∀ q ∈ filterSubqueries filter, q.Hygienic outer' (levelName head (depth + 1))) :
    Subquery.Hygienic outer base ⟨(l.correlated base (levelName head (depth + 1))).1,
      (l.correlated base (levelName head (depth + 1))).2, filter⟩ := by
  obtain ⟨junction, hreferences, hjunction⟩ :=
    references_correlated l base (levelName head (depth + 1))
  obtain ⟨hleft, hright⟩ := on_correlated l base (levelName head (depth + 1))
  have hnames : ∀ n ∈ (l.correlated base (levelName head (depth + 1))).1.references,
      n ∈ [levelName head (depth + 1), Link.junctionAlias (levelName head (depth + 1))] := by
    rw [hreferences]
    rcases hjunction with rfl | rfl <;> simp
  refine .mk ?_ (fun n hn hmem => ?_) hleft hright ?_
  · rw [hreferences]
    rcases hjunction with rfl | rfl
    · simp
    · simpa using (levelName_ne_junctionAlias hhead hhead _ _).symm
  · have hother := houter n hmem head hhead (depth + 1) (Nat.lt_succ_self depth)
    rcases List.mem_pair.1 (hnames n hn) with h | h
    · exact hother.1 h
    · exact hother.2 h
  · have hlinked : Subquery.linked ⟨(l.correlated base (levelName head (depth + 1))).1,
        (l.correlated base (levelName head (depth + 1))).2, filter⟩ =
          levelName head (depth + 1) := by
      simp [Subquery.linked, hreferences]
    rw [hlinked]
    refine hfilter _ ((houter.mono (Nat.le_succ depth)).append fun n hn => ?_)
    exact unused_levelName hhead (depth + 1) n (hnames n hn)

/-! ## Conditions -/

/-- Whether what conditions inside subqueries are compiled to captures nothing. -/
def Inner.Hygienic (inner : Inner) : Prop :=
  ∀ frame c outer, frame.aliases = [] → Unused frame.depth outer →
    (inner frame c).Ensures fun p => ∀ q ∈ filterSubqueries p, q.Hygienic outer frame.table

section

variable {env : Env} {inner : Inner} {frame : Frame} {outer : List String} {e : Entity}
  {table : String} {f : Field}

theorem hygienic_formulaExpr (hi : inner.Hygienic) (houter : Unused frame.depth outer)
    (formula : Formula) : (formulaExpr env inner frame e table f formula).Ensures fun expr =>
      ∀ q ∈ expr.subqueries, q.Hygienic outer table := by
  rw [formulaExpr]
  refine Traced.Ensures.trivial.bind fun l _ => Traced.Ensures.trivial.bind fun target _ => ?_
  split
  · exact .fail
  dsimp only
  have hone {filter : Option Predicate} (hfilter : ∀ outer', Unused (frame.depth + 1) outer' →
      ∀ q ∈ filterSubqueries filter, q.Hygienic outer' (levelName "__f" (frame.depth + 1))) :=
    hygienic_correlated l table (by decide) houter hfilter
  split
  · rename_i c _
    intro expr hexpr
    obtain ⟨filter, hfilter, hexpr⟩ := Traced.result_bind_ok.1 hexpr
    cases hexpr
    refine List.forall_mem_singleton.2 (hone fun outer' houter' => ?_)
    exact hi (frame.inner target "__f") c outer' rfl houter' filter hfilter
  · exact .pure (List.forall_mem_singleton.2 (hone (by simp [filterSubqueries])))

theorem hygienic_fieldExpr (hi : inner.Hygienic) (houter : Unused frame.depth outer) :
    (fieldExpr env inner frame e table f).Ensures fun expr =>
      ∀ q ∈ expr.subqueries, q.Hygienic outer table := by
  rw [fieldExpr]
  split
  · exact hygienic_formulaExpr hi houter _
  · refine .ofResult fun expr hexpr => ?_
    -- A calculation is made of columns and characters.
    rw [calculation] at hexpr
    split at hexpr
    · cases hexpr
    dsimp only at hexpr
    split at hexpr <;> cases hexpr
    simp [Expr.subqueries]
  split
  · exact .pure (by simp [Expr.subqueries])
  · exact .pure (by simp [Expr.subqueries])

theorem hygienic_fieldRule (hi : inner.Hygienic) (houter : Unused frame.depth outer) (r : Rule) :
    (fieldRule env inner frame e table f r).Ensures fun p =>
      ∀ q ∈ filterSubqueries p, q.Hygienic outer table := by
  rw [fieldRule]
  refine (hygienic_fieldExpr hi houter).bind fun expr hexpr => .ofResult fun p hp q hq => ?_
  split at hp
  · exact hexpr q (subqueries_arrayRule hp hq)
  · exact hexpr q (subqueries_scalarRule hp hq)

theorem hygienic_connectionRule (hi : inner.Hygienic) (houter : Unused frame.depth outer) (r : Rule) :
    (connectionRule env inner frame e table f r).Ensures fun p =>
      ∀ q ∈ filterSubqueries p, q.Hygienic outer table := by
  rw [connectionRule]
  refine Traced.Ensures.trivial.bind fun l _ => Traced.Ensures.trivial.bind fun target _ => ?_
  dsimp only
  have hone {filter : Option Predicate} (hfilter : ∀ outer', Unused (frame.depth + 1) outer' →
      ∀ q ∈ filterSubqueries filter, q.Hygienic outer' (levelName "__r" (frame.depth + 1))) :=
    hygienic_correlated l table (by decide) houter hfilter
  split
  · split
    · rename_i c _
      intro p hp
      obtain ⟨filter, hfilter, hp⟩ := Traced.result_bind_ok.1 hp
      cases hp
      refine List.forall_mem_singleton.2 (hone fun outer' houter' => ?_)
      exact hi (frame.inner target "__r") c outer' rfl houter' filter hfilter
    · exact .pure (List.forall_mem_singleton.2 (hone (by simp [filterSubqueries])))
  split
  · refine .ofResult fun p hp q hq => ?_
    cases subqueries_scalarRule hp hq
  · intro p hp
    obtain ⟨test, htest, hp⟩ := Traced.result_bind_ok.1 hp
    cases hp
    refine List.forall_mem_singleton.2 (hone ?_)
    rw [subqueries_linkedTest htest]
    simp

/-- The subqueries of a rule belong to the row that its key is about. -/
theorem hygienic_rule (hi : inner.Hygienic) (houter : Unused frame.depth outer) (r : Rule) :
    (rule env inner frame r).Ensures fun p => ∀ q ∈ filterSubqueries p,
      ∃ e table, owner frame r.joined = .ok (e, table) ∧ q.Hygienic outer table := by
  intro p hp q hq
  cases rule_cases hp with
  | constant _ h => simp [filterSubqueries, subqueries_constantRule h] at hq
  | column _ h => cases subqueries_scalarRule h hq
  | connection hs _ h =>
    exact ⟨_, _, (field_of_subject hs).1, hygienic_connectionRule hi houter r _ h q hq⟩
  | field hs _ h =>
    exact ⟨_, _, (field_of_subject hs).1, hygienic_fieldRule hi houter r _ h q hq⟩

end

mutual
/-- The subqueries of a tree are those of its rules. -/
theorem subqueries_tree {rule : Rule → Traced (Option Predicate)} {about : Rule → Subquery → Prop} :
    (c : Condition) → (∀ r ∈ c.rules, (rule r).Ensures fun p => ∀ q ∈ filterSubqueries p, about r q) →
      (tree rule c).Ensures fun p => ∀ q ∈ filterSubqueries p, ∃ r ∈ c.rules, about r q
  | .group g nodes, h => by
    rw [tree]
    refine (subqueries_trees nodes h).bind fun parts hparts => .pure fun q hq => ?_
    obtain ⟨p, hp, hq⟩ := subqueries_glue hq
    exact hparts p hp q hq
  | .rule r, h => by
    rw [tree]
    have hr : r ∈ (Condition.rule r).rules := by simp [Condition.rules]
    exact (h r hr).mono fun p hp q hq => ⟨r, hr, hp q hq⟩
  | .malformed node, _ => by
    rw [tree]
    exact .fail
theorem subqueries_trees {rule : Rule → Traced (Option Predicate)}
    {about : Rule → Subquery → Prop} : (cs : List Condition) →
      (∀ r ∈ Condition.rulesOf cs, (rule r).Ensures fun p => ∀ q ∈ filterSubqueries p, about r q) →
      (trees rule cs).Ensures fun parts =>
        ∀ p ∈ parts, ∀ q ∈ p.subqueries, ∃ r ∈ Condition.rulesOf cs, about r q
  | [], _ => by
    rw [trees]
    exact .pure (by simp)
  | c :: rest, h => by
    rw [Condition.rulesOf, List.forall_mem_append] at h
    rw [trees]
    refine (subqueries_tree c h.1).bind fun part hpart => ?_
    refine (subqueries_trees rest h.2).bind fun parts hparts => .pure fun p hp q hq => ?_
    rw [Condition.rulesOf]
    rcases List.mem_append.1 hp with hp | hp
    · obtain ⟨r, hr, hq⟩ := hpart q (by rw [Option.mem_toList.1 hp]; exact hq)
      exact ⟨r, List.mem_append_left _ hr, hq⟩
    · obtain ⟨r, hr, hq⟩ := hparts p hp q hq
      exact ⟨r, List.mem_append_right _ hr, hq⟩
end

theorem hygienic_within (env : Env) (levels : Nat) : (within env levels).Hygienic := by
  induction levels with
  | zero => exact fun frame c outer _ _ => .fail
  | succ n ih =>
    intro frame c outer hbare houter
    rw [within]
    refine (subqueries_tree c fun r _ => hygienic_rule ih houter r).mono fun p hp q hq => ?_
    obtain ⟨r, -, e, table, howner, hq⟩ := hp q hq
    exact (owner_of_bare hbare howner).2 ▸ hq

/-- The names that rules can be about: that of the base table, and the aliases. -/
def Frame.names (frame : Frame) : List String := frame.table :: frame.aliases.map (·.1)

/-- Whether a name begins like those that tables take in subqueries. -/
def Reserved (n : String) : Prop := ∃ head ∈ heads, head.toList <+: n.toList

theorem unused_of_not_reserved {outer : List String} (h : ∀ n ∈ outer, ¬Reserved n) (depth : Nat) :
    Unused depth outer := by
  intro n hn head hhead d _
  constructor
  · rintro rfl
    exact h _ hn ⟨head, hhead, by simp [levelName]⟩
  · rintro rfl
    exact h _ hn ⟨head, hhead, by simp [levelName, Link.junctionAlias]⟩

/-- No subquery captures a name. Where neither the base table nor an alias goes by a name that begins
like those of subqueries, the names that a subquery of a compiled condition takes, at any depth, in
filters of relations and of formula fields alike, differ from each other, from the base table, from
all aliases and from the names of all subqueries around it; and each is tied to the row of the level
right around it, which at the outermost level is the one that its rule is about. -/
theorem condition_hygienic (env : Env) {frame : Frame} (hnames : ∀ n ∈ frame.names, ¬Reserved n)
    (c : Condition) {p : Predicate} (hp : (condition env frame c).result = .ok (some p)) :
    ∀ q ∈ p.subqueries, ∃ r ∈ c.rules, ∃ e table,
      owner frame r.joined = .ok (e, table) ∧ q.Hygienic frame.names table := by
  have houter := unused_of_not_reserved hnames frame.depth
  rw [condition, within] at hp
  exact subqueries_tree c (fun r _ => hygienic_rule (hygienic_within env _) houter r) (some p) hp

/-- Invoices of a joined customer whose tagged invoices come to more than five. -/
theorem condition_hygienic_tagged :
    let tagged : Condition := .ofRule "tags" .haveRelation .null
    let invoice := Entity.new "invoice" "Invoice" "INVOICE"
      [.new "c" "customer" (.connection ⟨"customer", some "i", .one, .many, false, none, none⟩),
        .new "t" "total" .number, .new "g" "tags" (.connection (.between "tag" .many .many))]
    let customer := Entity.new "customer" "Customer" "CUSTOMER"
      [.new "i" "invoices" (.connection ⟨"invoice", some "c", .many, .one, false, none, none⟩),
        .new "m" "mine" (.formula ⟨"i", "t", .sum, some tagged⟩)]
    let catalog : Catalog := ⟨[invoice, customer, .new "tag" "Tag" "TAG" []], [], []⟩
    let env : Env := ⟨{}, catalog, LinkMap.ofCatalog {} catalog, "en", []⟩
    let frame := (Frame.base invoice).withAlias "c" customer
    let c : Condition := .group .and [.ofRule "customer" .haveRelation (.obj [("key", .str "mine"),
      ("rule", .str "greater"), ("value", Json.ofInt 5)]), .ofRule "mine" .less (.str "9") (some "c")]
    let names (q : Subquery) : List String × List (List String) :=
      (q.source.references, (filterSubqueries q.filter).map (·.source.references))
    (∀ n ∈ frame.names, ¬Reserved n) ∧ ∃ p, (condition env frame c).result = .ok (some p) ∧
      p.subqueries.map names = [(["__r1"], [["__f2"]]), (["__f1"], [["__r2__j", "__r2"]])] ∧
      ∀ q ∈ p.subqueries, ∃ r ∈ c.rules, ∃ e table,
        owner frame r.joined = .ok (e, table) ∧ q.Hygienic frame.names table := by
  intro tagged invoice customer catalog env frame c names
  have hnames : ∀ n ∈ frame.names, ¬Reserved n := by
    unfold Reserved
    decide
  have hshown : (condition env frame c).result.toOption.join.map (·.subqueries.map names) =
      some [(["__r1"], [["__f2"]]), (["__f1"], [["__r2__j", "__r2"]])] := by decide +kernel
  cases hresult : (condition env frame c).result with
  | error e =>
    rw [hresult] at hshown
    cases hshown
  | ok compiled =>
    cases compiled with
    | none =>
      rw [hresult] at hshown
      cases hshown
    | some p =>
      rw [hresult] at hshown
      exact ⟨hnames, p, rfl, Option.some.inj hshown, condition_hygienic env hnames c hresult⟩

end Compile

end CatalogQuery
