import CatalogQuery.Proofs.Compile.Renaming

/-!
# Rules on connections

A rule on a connection asks for linked rows, unless the row itself holds the key that links it. Main
statements: which rows pass a rule that names keys and one that carries a filter, and that a rule on
the name of a column tests the column where no field stands in the way.
-/

namespace CatalogQuery

/-- Whether the keys of linked records are in a column of the row itself. -/
def Link.isOwn (l : Link) : Bool :=
  match l.keys with
  | .own _ _ => true
  | _ => false

theorem Link.exists_of_isOwn {l : Link} (h : l.isOwn = true) : ∃ foreign key, l.keys = .own foreign key := by
  rw [Link.isOwn] at h
  cases hkeys : l.keys with
  | own foreign key => exact ⟨foreign, key, rfl⟩
  | linked | junction =>
    rw [hkeys] at h
    cases h

/-- Whether values are compared as the column of a field holds them. -/
def Field.isPlain (f : Field) : Bool :=
  !f.multilingual &&
    match f.type with
    | .text | .longText | .number | .dateTime | .json | .uuid | .autoIndex | .user false => true
    | _ => false

namespace Compile

open Sql

/-- The operators of rules that name keys of linked records. -/
def keyOperators : List RuleOp := [.equals, .notEqual, .in, .notIn]

theorem not_relational_of_mem {op : RuleOp} (h : op ∈ keyOperators) :
    ¬(op = .haveRelation ∨ op = .haveNoRelation) := by
  rintro (rfl | rfl) <;> revert h <;> decide

theorem isPlaceholder_of_mem {op : RuleOp} (h : op ∈ keyOperators) : op.isPlaceholder = false := by
  revert op
  decide

section

variable {env : Env} {inner : Inner} {frame : Frame} {e target : Entity} {table : String}
  {f : Field} {l : Link}

theorem scalarRule_keys {op : RuleOp} (hop : op ∈ keyOperators) (column : Column) (keys : List Json) :
    scalarRule op (.column column) (.arr keys) false =
      .ok (some (.among (.column column) (keys.map .value) op.isNegative)) := by
  simp only [keyOperators, List.mem_cons, List.not_mem_nil, or_false] at hop
  rcases hop with rfl | rfl | rfl | rfl <;> rfl

theorem linkedTest_keys {op : RuleOp} (hop : op ∈ keyOperators) (f : Field) (column : Column)
    (keys : List Json) (v : Json) : linkedTest op f column keys v =
      .ok (some (.among (.column column) (keys.map .value) false), op.isNegative) := by
  simp only [keyOperators, List.mem_cons, List.not_mem_nil, or_false] at hop
  rcases hop with rfl | rfl | rfl | rfl <;> rfl

/-- Where the row holds the key itself, its column is tested. -/
theorem connectionRule_of_own (hl : (link env e f.id).result = .ok l)
    (htarget : env.catalog.entity l.target = .ok target) {foreign key : String}
    (hkeys : l.keys = .own foreign key) {r : Rule} (hop : r.op ∈ keyOperators) :
    (connectionRule env inner frame e table f r).result =
      .ok (some (.among (.column ⟨table, foreign⟩) ((linkedKeys r.value key).map .value)
        r.op.isNegative)) := by
  rw [connectionRule, Traced.result_bind_ok]
  refine ⟨l, hl, Traced.result_bind_ok.2 ⟨target, htarget, ?_⟩⟩
  dsimp only
  rw [if_neg (not_relational_of_mem hop), hkeys]
  exact scalarRule_keys hop ⟨table, foreign⟩ _

/-- Elsewhere a linked row with one of the keys is asked for. -/
theorem connectionRule_of_not_own (hl : (link env e f.id).result = .ok l)
    (htarget : env.catalog.entity l.target = .ok target) (hown : l.isOwn = false) {r : Rule}
    (hop : r.op ∈ keyOperators) :
    (connectionRule env inner frame e table f r).result =
      let called := (frame.inner target "__r").table
      let column := l.keys.linkedColumn target
      .ok (some (.related (l.correlated table called).1 (l.correlated table called).2
        (some (.among (.column ⟨called, column⟩) ((linkedKeys r.value column).map .value) false))
        r.op.isNegative)) := by
  rw [connectionRule, Traced.result_bind_ok]
  refine ⟨l, hl, Traced.result_bind_ok.2 ⟨target, htarget, ?_⟩⟩
  dsimp only
  rw [if_neg (not_relational_of_mem hop), linkedTest_keys hop]
  rw [Link.isOwn] at hown
  cases hkeys : l.keys with
  | own foreign key =>
    rw [hkeys] at hown
    cases hown
  | linked | junction => rfl

/-- A rule that carries a filter, or none, asks for a linked row that passes it. -/
theorem connectionRule_of_filter (hl : (link env e f.id).result = .ok l)
    (htarget : env.catalog.entity l.target = .ok target) {r : Rule} (hop : isRelational r.op = true)
    {p : Option Predicate}
    (hp : (narrowed (inner (frame.inner target "__r")) (relationFilter r.value)).result = .ok p) :
    (connectionRule env inner frame e table f r).result =
      let called := (frame.inner target "__r").table
      .ok (some (.related (l.correlated table called).1 (l.correlated table called).2 p
        (r.op == .haveNoRelation))) := by
  have hrel : r.op = .haveRelation ∨ r.op = .haveNoRelation := by simpa [isRelational] using hop
  rw [connectionRule, Traced.result_bind_ok]
  refine ⟨l, hl, Traced.result_bind_ok.2 ⟨target, htarget, ?_⟩⟩
  dsimp only
  rw [if_pos hrel]
  revert hp
  cases relationFilter r.value with
  | none =>
    intro hp
    cases hp
    rfl
  | some d => exact fun hp => Traced.result_bind_ok.2 ⟨p, hp, rfl⟩

/-! ## Columns by their names -/

/-- Whether a field stands for its column: values are compared as the column holds them, or the
column holds the keys of a connection. -/
def StandsForColumn (env : Env) (e : Entity) (f : Field) : Prop :=
  f.isPlain = true ∨ f.isConnection = true ∧ ∃ l target key, (link env e f.id).result = .ok l ∧
    env.catalog.entity l.target = .ok target ∧ l.keys = .own f.column key

/-- Whether a key stands for the column of that name: it is no constant, and names the primary key, a
column that no field describes, or a field that has the column and stands for it. -/
def NamesColumn (env : Env) (e : Entity) (column : String) : Prop :=
  column ≠ Rule.constantKey ∧ (column = e.keyColumn ∨ column ≠ Rule.selfKey ∧
    match e.field column with
    | some f => f.column = column ∧ StandsForColumn env e f
    | none => column ∈ timeColumns)

theorem linkedKeys_literals {keys : List Json} (hkeys : ∀ k ∈ keys, IsLiteral k) (column : String) :
    linkedKeys (.arr keys) column = keys := by
  rw [linkedKeys, valuesOf]
  refine (List.filterMap_congr fun k hk => ?_).trans List.filterMap_some
  have hliteral := hkeys k hk
  cases k with
  | str | num => rfl
  | null | bool | arr | obj => cases hliteral

theorem fieldRule_of_isPlain (hf : f.isPlain = true) (r : Rule) :
    (fieldRule env inner frame e table f r).result =
      scalarRule r.op (.column ⟨table, f.column⟩) r.value false := by
  obtain ⟨id, name, label, type, multilingual, required, default⟩ := f
  simp only [Field.isPlain, Bool.and_eq_true, Bool.not_eq_true'] at hf
  obtain ⟨rfl, htype⟩ := hf
  split at htype
  case h_9 => cases htype
  all_goals rfl

theorem isConnection_of_isPlain (hf : f.isPlain = true) : f.isConnection = false := by
  rw [Field.isPlain, Bool.and_eq_true] at hf
  rw [Field.isConnection, Field.connection?]
  cases htype : f.type with
  | connection settings =>
    rw [htype] at hf
    cases hf.2
  | _ => rfl

/-- A rule on the name of a column tests the column. -/
theorem rule_of_namesColumn {column : String} (h : NamesColumn env e column) {op : RuleOp}
    (hop : op ∈ keyOperators) {keys : List Json} (hkeys : ∀ k ∈ keys, IsLiteral k) :
    (rule env inner (Frame.base e) ⟨column, op, .arr keys, none⟩).result =
      .ok (some (.among (.column ⟨e.table, column⟩) (keys.map .value) op.isNegative)) := by
  obtain ⟨hconstant, hnames⟩ := h
  have hplaceholder := isPlaceholder_of_mem hop
  have htest := scalarRule_keys hop ⟨e.table, column⟩ keys
  by_cases hkey : column = e.keyColumn
  · have hs : subject (Frame.base e) column none = .ok (.column ⟨e.table, column⟩) := by
      show subjectOf e e.table column = _
      rw [subjectOf, if_pos (.inr hkey), hkey]
    exact (rule_of_column hplaceholder hconstant hs).trans htest
  obtain ⟨hself, hfield⟩ := hnames.resolve_left hkey
  have hother : ¬(column = Rule.selfKey ∨ column = e.keyColumn) := by simp [hself, hkey]
  cases hf : e.field column with
  | none =>
    rw [hf] at hfield
    have hs : subject (Frame.base e) column none = .ok (.column ⟨e.table, column⟩) := by
      show subjectOf e e.table column = _
      rw [subjectOf, if_neg hother, hf]
      exact if_pos (List.contains_iff_mem.2 hfield)
    exact (rule_of_column hplaceholder hconstant hs).trans htest
  | some f =>
    rw [hf] at hfield
    have hs : subject (Frame.base e) column none = .ok (.field e e.table f) := by
      show subjectOf e e.table column = _
      rw [subjectOf, if_neg hother, hf]
    obtain ⟨rfl, hplain | ⟨hconnection, l, target, key, hl, htarget, hown⟩⟩ := hfield
    · refine (rule_of_field hplaceholder hconstant hs).trans ?_
      rw [isConnection_of_isPlain hplain, if_neg (by simp), fieldRule_of_isPlain hplain]
      exact htest
    · refine (rule_of_field hplaceholder hconstant hs).trans ?_
      rw [if_pos hconnection, connectionRule_of_own hl htarget hown hop,
        linkedKeys_literals hkeys]

theorem condition_rule (env : Env) (frame : Frame) (r : Rule) :
    condition env frame (.rule r) =
      rule env (within env (formulaLevels env + r.value.depth)) frame r := by
  rw [condition, Condition.valueDepth, within, tree]

/-- A rule on the name of a column with literal keys asks whether the column is among them. -/
theorem exists_condition_of_namesColumn {D : Dialect} {T : Tables} {column : String}
    (h : NamesColumn env e column) {op : RuleOp} (hop : op ∈ keyOperators) {keys : List Json}
    (hkeys : ∀ k ∈ keys, IsLiteral k) :
    ∃ p, (condition env (Frame.base e) (.ofRule column op (.arr keys))).result = .ok (some p) ∧
      ∀ scene : Scene, p.truth D T scene =
        Truth.negated op.isNegative (D.among (scene e.table column) (keys.map D.value)) := by
  refine ⟨.among (.column ⟨e.table, column⟩) (keys.map .value) op.isNegative, ?_, fun scene => ?_⟩
  · rw [Condition.ofRule, condition_rule]
    exact rule_of_namesColumn h hop hkeys
  · rw [truth_among, List.map_map]
    rfl

end

end Compile

end CatalogQuery
