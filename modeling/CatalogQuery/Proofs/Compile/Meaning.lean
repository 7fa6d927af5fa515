import CatalogQuery.Proofs.Compile.Composed
import CatalogQuery.Proofs.Condition.Truth
import CatalogQuery.Proofs.Sql.Tests

/-!
# What a compiled condition means

Errors and predicates of a tree in terms of those of its rules. Main statement: compiling stops at
the first rule or node in error, restricts nothing where no rule does, and gives a text otherwise
that the database reads as the tree over what its rules are compiled to.
-/

namespace CatalogQuery

/-- The error that a traced result comes to, if any. -/
def Traced.error? {α : Type} (t : Traced α) : Option QueryError :=
  match t.result with
  | .ok _ => none
  | .error e => some e

theorem Traced.error?_eq_some {α : Type} {t : Traced α} {e : QueryError} :
    t.error? = some e ↔ t.result = .error e := by
  rw [error?]
  cases t.result <;> simp

theorem Traced.error?_eq_none {α : Type} {t : Traced α} :
    t.error? = none ↔ ∃ a, t.result = .ok a := by
  rw [error?]
  cases t.result <;> simp

theorem Traced.error?_bind {α β : Type} (t : Traced α) (f : α → Traced β) {o : Option QueryError}
    (h : ∀ a, t.result = .ok a → (f a).error? = o) : (t >>= f).error? = t.error?.or o := by
  obtain ⟨events, result⟩ := t
  cases result with
  | error e => rfl
  | ok a => exact h a rfl

namespace Compile

open Sql

section

variable {rule : Rule → Traced (Option Predicate)}

/-! ## Errors -/

mutual
/-- A tree is in error like the first of its rules and malformed nodes that is. -/
theorem error?_tree : (c : Condition) →
    (tree rule c).error? = c.leaves.findSome? fun leaf => (tree rule leaf).error?
  | .group g nodes => by
    have hpure (parts : List Predicate) (_ : (trees rule nodes).result = .ok parts) :
        (pure (Predicate.glue g parts) : Traced (Option Predicate)).error? = none := rfl
    rw [tree, Traced.error?_bind _ _ hpure, Option.or_none, error?_trees nodes]
    rfl
  | .rule r => by
    rw [Condition.leaves, List.findSome?_singleton]
  | .malformed node => by
    rw [Condition.leaves, List.findSome?_singleton]
theorem error?_trees : (cs : List Condition) →
    (trees rule cs).error? =
      (Condition.leavesOf cs).findSome? fun leaf => (tree rule leaf).error?
  | [] => rfl
  | c :: rest => by
    have hrest (part : Option Predicate) (_ : (tree rule c).result = .ok part) :
        (do let parts ← trees rule rest; pure (part.toList ++ parts)).error? =
          (trees rule rest).error? := by
      have hpure (parts : List Predicate) (_ : (trees rule rest).result = .ok parts) :
          (pure (part.toList ++ parts) : Traced (List Predicate)).error? = none := rfl
      rw [Traced.error?_bind _ _ hpure, Option.or_none]
    rw [trees, Traced.error?_bind _ _ hrest, Condition.leavesOf, List.findSome?_append,
      error?_tree c, error?_trees rest]
end

theorem tree_eq_error {c : Condition} {e : QueryError} :
    (tree rule c).result = .error e ↔ ∃ before leaf after, c.leaves = before ++ leaf :: after ∧
      (∀ b ∈ before, ∃ p, (tree rule b).result = .ok p) ∧ (tree rule leaf).result = .error e := by
  rw [← Traced.error?_eq_some, error?_tree, List.findSome?_eq_some_iff]
  simp only [Traced.error?_eq_some, Traced.error?_eq_none]
  constructor
  · rintro ⟨before, leaf, after, hleaves, hleaf, hbefore⟩
    exact ⟨before, leaf, after, hleaves, hbefore, hleaf⟩
  · rintro ⟨before, leaf, after, hleaves, hbefore, hleaf⟩
    exact ⟨before, leaf, after, hleaves, hleaf, hbefore⟩

theorem exists_tree_eq_error {c : Condition} :
    (∃ e, (tree rule c).result = .error e) ↔
      ∃ leaf ∈ c.leaves, ∃ e, (tree rule leaf).result = .error e := by
  simp only [← Traced.error?_eq_some, ← Option.isSome_iff_exists]
  rw [error?_tree, List.findSome?_isSome_iff]

/-! ## Predicates -/

/-- What a rule is compiled to; none when it restricts nothing or is in error. -/
def fragment (rule : Rule → Traced (Option Predicate)) (r : Rule) : Option Predicate :=
  match (rule r).result with
  | .ok p => p
  | .error _ => none

theorem reading_glue (g : Glue) (ps : List Predicate) :
    (Predicate.glue g ps).map Predicate.reading =
      match readings ps with
      | [] => none
      | fs => some (.join g fs) := by
  match ps with
  | [] => rfl
  | [_] => rfl
  | _ :: _ :: _ => rfl

mutual
/-- A predicate joins what its rules are compiled to as the tree joins its rules. -/
theorem ensures_reading : (c : Condition) → (tree rule c).Ensures fun p =>
    p.map Predicate.reading = (c.shape (fragment rule)).map (Reading.bind Predicate.reading)
  | .group g nodes => by
    rw [tree]
    refine (ensures_readings nodes).bind fun parts hparts => .pure ?_
    rw [reading_glue, hparts, Condition.shape]
    cases Condition.shapes (fragment rule) nodes with
    | nil => rfl
    | cons f fs => exact congrArg some (Reading.bind_join Predicate.reading g (f :: fs)).symm
  | .rule r => by
    rw [tree]
    intro p hp
    rw [Condition.shape, fragment, hp]
    cases p <;> rfl
  | .malformed node => by
    rw [tree]
    exact .fail
theorem ensures_readings : (cs : List Condition) → (trees rule cs).Ensures fun parts =>
    readings parts = Reading.binds Predicate.reading (Condition.shapes (fragment rule) cs)
  | [] => by
    rw [trees]
    exact .pure rfl
  | c :: rest => by
    rw [trees]
    refine (ensures_reading c).bind fun part hpart => ?_
    refine (ensures_readings rest).bind fun parts hparts => .pure ?_
    -- A node that restricts nothing is left out on both sides.
    rw [Condition.shapes]
    cases part with
    | none =>
      rw [Option.map_none, eq_comm, Option.map_eq_none_iff] at hpart
      rw [hpart]
      exact hparts
    | some p =>
      rw [Option.map_some, eq_comm, Option.map_eq_some_iff] at hpart
      obtain ⟨f, hf, hp⟩ := hpart
      rw [hf]
      show p.reading :: readings parts = f.bind Predicate.reading :: Reading.binds _ _
      rw [hp, hparts]
      rfl
end

theorem glue_eq_none {g : Glue} {ps : List Predicate} : Predicate.glue g ps = none ↔ ps = [] := by
  match ps with
  | [] => simp [Predicate.glue]
  | [_] => simp [Predicate.glue]
  | _ :: _ :: _ => simp [Predicate.glue]

mutual
theorem tree_eq_none : (c : Condition) →
    ((tree rule c).result = .ok none ↔ ∀ leaf ∈ c.leaves, (tree rule leaf).result = .ok none)
  | .group g nodes => by
    rw [tree, Traced.result_bind_ok, Condition.leaves, ← trees_eq_nil nodes]
    constructor
    · -- Gluing gives nothing only where there is nothing to glue.
      rintro ⟨parts, hparts, hglue⟩
      cases glue_eq_none.1 (Except.ok.inj hglue)
      exact hparts
    · exact fun hparts => ⟨[], hparts, rfl⟩
  | .rule r => by simp [Condition.leaves]
  | .malformed node => by simp [Condition.leaves]
theorem trees_eq_nil : (cs : List Condition) →
    ((trees rule cs).result = .ok [] ↔
      ∀ leaf ∈ Condition.leavesOf cs, (tree rule leaf).result = .ok none)
  | [] => by simp [trees, Condition.leavesOf, pure, Traced.pure]
  | c :: rest => by
    rw [Condition.leavesOf, List.forall_mem_append, ← tree_eq_none c, ← trees_eq_nil rest, trees,
      Traced.result_bind_ok]
    simp only [Traced.result_bind_ok]
    constructor
    · rintro ⟨part, hpart, parts, hparts, hnil⟩
      obtain ⟨hp, rfl⟩ := List.append_eq_nil_iff.1 (Except.ok.inj hnil)
      rw [Option.toList_eq_nil_iff] at hp
      rw [hp] at hpart
      exact ⟨hpart, hparts⟩
    · rintro ⟨hpart, hparts⟩
      exact ⟨none, hpart, [], hparts, rfl⟩
end

end

/-! ## Faults -/

/-- Operators that connections know whose keys are not in the row itself. -/
def connectionOperators : List RuleOp :=
  [.equals, .notEqual, .in, .notIn, .contains, .notContains, .isNull, .isNotNull, .isEmpty,
    .isNotEmpty, .haveRelation, .haveNoRelation]

/-- Whether an operator is about linked records as such. -/
def isRelational (op : RuleOp) : Bool := op == .haveRelation || op == .haveNoRelation

/-- What is wrong with a node by itself: it is no rule, or its operator or key has no meaning. -/
inductive Fault (env : Env) (frame : Frame) : Condition → QueryError → Prop
  | malformed (node : Json) :
    Fault env frame (.malformed node) (.invalidCondition (.malformed node))
  | placeholder {r : Rule} (hp : r.op.isPlaceholder = true) :
    Fault env frame (.rule r) (.invalidCondition (.unresolvedPlaceholder r.op r.key))
  | constant {r : Rule} (hp : r.op.isPlaceholder = false) (hk : r.key = Rule.constantKey)
      (he : r.op ≠ .equals) (hn : r.op ≠ .notEqual) :
    Fault env frame (.rule r) (.invalidCondition (.constantOperator r.op))
  | joined {r : Rule} {name : String} (hp : r.op.isPlaceholder = false)
      (hk : r.key ≠ Rule.constantKey) (hj : r.joined = some name)
      (ha : frame.aliased? name = none) :
    Fault env frame (.rule r) (.invalidCondition (.unknownAlias name))
  | key {r : Rule} {e : Entity} {table : String} (hp : r.op.isPlaceholder = false)
      (hk : r.key ≠ Rule.constantKey) (ho : owner frame r.joined = .ok (e, table))
      (hself : r.key ≠ Rule.selfKey) (hkey : r.key ≠ e.keyColumn) (hf : e.field r.key = none)
      (ht : r.key ∉ timeColumns) :
    Fault env frame (.rule r) (.fieldNotFound e.name r.key)
  | column {r : Rule} {c : Column} (hk : r.key ≠ Rule.constantKey)
      (hs : subject frame r.key r.joined = .ok (.column c)) (hr : isRelational r.op = true) :
    Fault env frame (.rule r) (.invalidCondition (.relationOperator r.op))
  | field {r : Rule} {e : Entity} {table : String} {f : Field} (hk : r.key ≠ Rule.constantKey)
      (hs : subject frame r.key r.joined = .ok (.field e table f)) (hc : f.isConnection = false)
      (hv : f.isVirtual = false) (hr : isRelational r.op = true) :
    Fault env frame (.rule r) (.invalidCondition (.relationOperator r.op))
  | connection {r : Rule} {e : Entity} {table : String} {f : Field} {l : Link} {target : Entity}
      (hp : r.op.isPlaceholder = false) (hk : r.key ≠ Rule.constantKey)
      (hs : subject frame r.key r.joined = .ok (.field e table f)) (hc : f.isConnection = true)
      (hl : (link env e f.id).result = .ok l) (ht : env.catalog.entity l.target = .ok target)
      (hown : ∀ foreign key, l.keys ≠ .own foreign key) (ho : r.op ∉ connectionOperators) :
    Fault env frame (.rule r) (.invalidCondition (.connectionOperator r.op f.column))

theorem isPlaceholder_of_isRelational {op : RuleOp} (h : isRelational op = true) :
    op.isPlaceholder = false := by
  cases op <;> first | rfl | cases h

theorem scalarRule_of_isRelational {op : RuleOp} (h : isRelational op = true) (e : Expr) (v : Json)
    (byDay : Bool) :
    scalarRule op e v byDay = .error (.invalidCondition (.relationOperator op)) := by
  cases op <;> first | rfl | cases h

theorem arrayRule_of_isRelational {op : RuleOp} (h : isRelational op = true) (e : Expr) (v : Json) :
    arrayRule op e v = .error (.invalidCondition (.relationOperator op)) := by
  cases op <;> first | rfl | cases h

theorem linkedTest_of_not_mem {op : RuleOp} (h : op ∉ connectionOperators) (f : Field)
    (key : Column) (keys : List Json) (v : Json) : linkedTest op f key keys v =
      .error (.invalidCondition (.connectionOperator op f.column)) := by
  cases op <;> first | rfl | exact absurd (by decide) h

theorem fieldExpr_of_not_isVirtual {f : Field} (h : f.isVirtual = false) (env : Env)
    (inner : Inner) (frame : Frame) (e : Entity) (table : String) :
    ∃ expr, fieldExpr env inner frame e table f = pure expr := by
  rw [Field.isVirtual] at h
  rw [fieldExpr]
  split
  · rename_i htype
    rw [htype] at h
    cases h
  · rename_i htype
    rw [htype] at h
    cases h
  split
  · exact ⟨_, rfl⟩
  · exact ⟨_, rfl⟩

theorem rule_of_error {env : Env} {inner : Inner} {frame : Frame} {r : Rule} {e : QueryError}
    (hp : r.op.isPlaceholder = false) (hk : r.key ≠ Rule.constantKey)
    (hs : subject frame r.key r.joined = .error e) :
    (rule env inner frame r).result = .error e := by
  rw [rule, hp, if_neg (by simp), if_neg hk, hs]
  rfl

theorem rule_of_column {env : Env} {inner : Inner} {frame : Frame} {r : Rule} {c : Column}
    (hp : r.op.isPlaceholder = false) (hk : r.key ≠ Rule.constantKey)
    (hs : subject frame r.key r.joined = .ok (.column c)) :
    (rule env inner frame r).result = scalarRule r.op (.column c) r.value false := by
  rw [rule, hp, if_neg (by simp), if_neg hk, hs]
  rfl

theorem rule_of_field {env : Env} {inner : Inner} {frame : Frame} {r : Rule} {e : Entity}
    {table : String} {f : Field} (hp : r.op.isPlaceholder = false)
    (hk : r.key ≠ Rule.constantKey)
    (hs : subject frame r.key r.joined = .ok (.field e table f)) :
    (rule env inner frame r).result =
      (if f.isConnection then connectionRule env inner frame e table f r
        else fieldRule env inner frame e table f r).result := by
  rw [rule, hp, if_neg (by simp), if_neg hk, hs]
  rfl

/-- A fault is an error wherever the node stands. -/
theorem Fault.result {env : Env} {frame : Frame} {leaf : Condition} {e : QueryError}
    (h : Fault env frame leaf e) (inner : Inner) :
    (tree (rule env inner frame) leaf).result = .error e := by
  cases h with
  | malformed node => rfl
  | placeholder hp =>
    rw [tree, rule, hp]
    rfl
  | constant hp hk he hn =>
    rw [tree, rule, hp, if_neg (by simp), if_pos hk, constantRule.eq_def]
    split
    · exact absurd ‹_› he
    · exact absurd ‹_› hn
    · rfl
  | joined hp hk hj ha =>
    rw [tree]
    refine rule_of_error hp hk ?_
    rw [subject, hj, owner, ha]
  | key hp hk ho hself hkey hf ht =>
    rw [tree]
    refine rule_of_error hp hk ?_
    rw [subject, ho]
    show subjectOf _ _ _ = _
    rw [subjectOf, if_neg (by simp [hself, hkey]), hf]
    simp [ht]
  | column hk hs hr =>
    rw [tree, rule_of_column (isPlaceholder_of_isRelational hr) hk hs,
      scalarRule_of_isRelational hr]
  | field hk hs hc hv hr =>
    rw [tree, rule_of_field (isPlaceholder_of_isRelational hr) hk hs, hc, if_neg (by simp),
      fieldRule]
    -- A column is no subquery, so that its expression is never the one in error.
    obtain ⟨expr, hexpr⟩ := fieldExpr_of_not_isVirtual hv env inner frame _ _
    rw [hexpr, pure_bind]
    show (if _ then arrayRule _ _ _ else scalarRule _ _ _ _) = _
    rw [arrayRule_of_isRelational hr, scalarRule_of_isRelational hr, ite_self]
  | connection hp hk hs hc hl ht hown ho =>
    rename_i r e table f l target
    -- Rules about linked records as such go another way and know no such error.
    have hrel : ¬(r.op = .haveRelation ∨ r.op = .haveNoRelation) := by
      rintro (h | h) <;> exact ho (by rw [h]; decide)
    rw [tree, rule_of_field hp hk hs, hc, if_pos rfl, connectionRule, Traced.result_bind_error]
    refine .inr ⟨l, hl, ?_⟩
    rw [entity, ht, Traced.result_bind_error]
    refine .inr ⟨target, rfl, ?_⟩
    dsimp only
    rw [if_neg hrel]
    split
    · exact absurd ‹_› (hown _ _)
    · rw [linkedTest_of_not_mem ho]
      rfl

/-! ## Meaning -/

end Compile

end CatalogQuery
