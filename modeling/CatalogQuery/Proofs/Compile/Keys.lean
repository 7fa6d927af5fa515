import CatalogQuery.Proofs.Compile.Connections
import CatalogQuery.Proofs.Sql.Data
import CatalogQuery.Reduce.User

/-!
# Keys and usernames in rules

What the predicate of a rule holds as data when the rule asks for keys that were read or for a
username. Main statements: those values and nothing else beside what the key of the rule holds by
itself, with options by their ids and, for a column with several values, inside patterns.
-/

namespace CatalogQuery.Compile

open Sql

/-- Whether a value is a text or a number, as keys are. -/
def IsScalar : Json → Prop
  | .str _ | .num _ => True
  | _ => False

theorem linkedKeys_scalars {keys : List Json} (hkeys : ∀ k ∈ keys, IsScalar k) (column : String) :
    linkedKeys (.arr keys) column = keys := by
  rw [linkedKeys, valuesOf]
  refine (List.filterMap_congr fun k hk => ?_).trans List.filterMap_some
  have hscalar := hkeys k hk
  cases k with
  | str | num => rfl
  | null | bool | arr | obj => cases hscalar

/-- A key as the column of a field holds it: the label of an option becomes its id. -/
def keyOf (f : Field) (k : Json) : Json :=
  match f.type, k with
  | .list options _, .str s => .str ((ListOption.idOf options s).getD s)
  | _, k => k

theorem stored_keys {f : Field} (hf : f.type ≠ .boolean) (keys : List Json) :
    stored f (.arr keys) = .arr (keys.map (keyOf f)) := by
  rw [stored]
  cases htype : f.type with
  | boolean => exact absurd htype hf
  | list options multiple =>
    refine congrArg Json.arr (List.map_congr_left fun k _ => ?_)
    simp only [keyOf, htype]
    cases k <;> rfl
  | text | longText | number | date | dateTime | user | formula | calculate | connection | json
    | uuid | autoIndex =>
    have hsame : keyOf f = id := funext fun k => by simp only [keyOf, htype, id]
    rw [hsame, List.map_id]

theorem exists_of_isUser {f : Field} (hf : f.isUser = true) :
    ∃ multiple, f.type = .user multiple := by
  rw [Field.isUser] at hf
  split at hf
  · exact ⟨_, ‹_›⟩
  · cases hf

section

variable {env : Env} {inner : Inner} {frame : Frame} {e : Entity} {table : String} {f : Field}
  {op : RuleOp} {keys : List Json} {p : Predicate}

theorem data_among_keys (c : Column) (keys : List Json) (negated : Bool) :
    data (Predicate.among (.column c) (keys.map .value) negated).sql = keys.flatMap dataOf := by
  cases keys with
  | nil => rfl
  | cons k keys =>
    rw [data_among _ _ (by simp), data_columnExpr, List.nil_append, List.flatMap_map]
    rfl

/-- A rule on a connection holds its keys, wherever the link is held. -/
theorem data_connectionRule (hop : op ∈ keyOperators) (hkeys : ∀ k ∈ keys, IsScalar k)
    {key : String} {joined : Option String}
    (h : (connectionRule env inner frame e table f ⟨key, op, .arr keys, joined⟩).result =
      .ok (some p)) : data p.sql = keys.flatMap dataOf := by
  have hlink := h
  rw [connectionRule, Traced.result_bind_ok] at hlink
  obtain ⟨l, hl, htarget⟩ := hlink
  obtain ⟨target, htarget, -⟩ := Traced.result_bind_ok.1 htarget
  cases hown : l.isOwn with
  | true =>
    obtain ⟨foreign, key, hown⟩ := Link.exists_of_isOwn hown
    rw [connectionRule_of_own hl htarget hown hop, linkedKeys_scalars hkeys] at h
    cases h
    exact data_among_keys _ keys _
  | false =>
    rw [connectionRule_of_not_own hl htarget hown hop] at h
    dsimp only at h
    rw [linkedKeys_scalars hkeys] at h
    cases h
    rw [data_related]
    exact data_among_keys _ keys _

/-- What a rule on a field holds for a key, where what the field is compared by holds `own`. -/
def keyData (f : Field) (own : List Piece) (negated : Bool) (k : Json) : List Piece :=
  if f.isMultiValued then
    (if negated then own else []) ++ own ++ [.text ("%\"" ++ (keyOf f k).plain ++ "\"%")]
  else dataOf (keyOf f k)

theorem data_operand (byDay : Bool) (v : Json) : data (operand byDay v).sql = dataOf v := by
  cases byDay with
  | false => exact data_value v
  | true => exact data_day v

theorem data_dated (byDay : Bool) (x : Expr) :
    data (if byDay then Expr.date x else x).sql = data x.sql := by
  cases byDay with
  | false => rfl
  | true => exact data_date x

/-- A list of values is asked for as one test. -/
theorem scalarRule_list (hop : op ∈ keyOperators) (x : Expr) (items : List Json) (byDay : Bool) :
    scalarRule op x (.arr items) byDay =
      .ok (some (.among (if byDay then .date x else x) (items.map (operand byDay))
        op.isNegative)) := by
  simp only [keyOperators, List.mem_cons, List.not_mem_nil, or_false] at hop
  rcases hop with rfl | rfl | rfl | rfl <;> rfl

/-- In a column with several values, each value is looked for by itself. -/
theorem data_arrayRule (hop : op ∈ keyOperators) {x : Expr} {items : List Json}
    (h : arrayRule op x (.arr items) = .ok (some p)) :
    data p.sql = items.flatMap fun i => (if op.isNegative then data x.sql else []) ++ data x.sql ++
      [.text ("%\"" ++ i.plain ++ "\"%")] := by
  have hmembers {negated : Bool} {g : Glue} (hglue : Predicate.glue g
      ((items.map Json.plain).map fun i => .member x i negated) = some p) :
      data p.sql = items.flatMap fun i => (if negated then data x.sql else []) ++ data x.sql ++
        [.text ("%\"" ++ i.plain ++ "\"%")] := by
    rw [data_glue hglue, List.map_map, List.flatMap_map]
    exact List.flatMap_congr fun i _ => data_member x negated i.plain
  have hsome (h : (Predicate.glue .or ((items.map Json.plain).map fun i => .member x i false)).getD
      (.constant false) = p) :
      data p.sql = items.flatMap fun i => data x.sql ++ [.text ("%\"" ++ i.plain ++ "\"%")] := by
    cases items with
    | nil =>
      subst h
      rfl
    | cons i items =>
      have hglue : Predicate.glue .or
          (((i :: items).map Json.plain).map fun i => .member x i false) = some p := by
        subst h
        cases items <;> rfl
      exact hmembers hglue
  simp only [keyOperators, List.mem_cons, List.not_mem_nil, or_false] at hop
  rcases hop with rfl | rfl | rfl | rfl
  · exact hsome (Option.some.inj (Except.ok.inj h))
  · exact hmembers (Except.ok.inj h)
  · exact hsome (Option.some.inj (Except.ok.inj h))
  · exact hmembers (Except.ok.inj h)

/-- A rule on a field holds its keys beside what the field is compared by. -/
theorem data_fieldRule (hf : f.type ≠ .boolean) (hop : op ∈ keyOperators) {key : String}
    {joined : Option String}
    (h : (fieldRule env inner frame e table f ⟨key, op, .arr keys, joined⟩).result = .ok (some p)) :
    ∃ x, (fieldExpr env inner frame e table f).result = .ok x ∧
      data p.sql = (if f.isMultiValued ∨ keys = [] then [] else data x.sql) ++
        keys.flatMap (keyData f (data x.sql) op.isNegative) := by
  obtain ⟨x, hx, h⟩ := Traced.result_bind_ok.1 h
  refine ⟨x, hx, ?_⟩
  dsimp only at h
  rw [stored_keys hf] at h
  cases hmany : f.isMultiValued with
  | true =>
    rw [hmany, if_pos rfl] at h
    have hown : (if true = true ∨ keys = [] then [] else data x.sql) = [] := if_pos (.inl rfl)
    rw [data_arrayRule hop h, List.flatMap_map, hown, List.nil_append]
    refine List.flatMap_congr fun k _ => ?_
    rw [keyData, if_pos hmany]
  | false =>
    have hkeys : keys.flatMap (keyData f (data x.sql) op.isNegative) =
        keys.flatMap fun k => dataOf (keyOf f k) :=
      List.flatMap_congr fun k _ => by rw [keyData, hmany, if_neg (by simp)]
    rw [hmany, if_neg (by simp), Traced.ofResult, scalarRule_list hop] at h
    rw [hkeys]
    cases h
    cases keys with
    | nil => rfl
    | cons k keys =>
      rw [data_among _ _ (by simp), data_dated, if_neg (by simp), List.flatMap_map,
        List.flatMap_map]
      exact congrArg _ (List.flatMap_congr fun k _ => data_operand _ _)

/-- A rule on a flag holds zero, as a list is no true value. -/
theorem data_flagRule (htype : f.type = .boolean) (hop : op ∈ keyOperators) {key : String}
    {joined : Option String}
    (h : (fieldRule env inner frame e table f ⟨key, op, .arr keys, joined⟩).result = .ok (some p)) :
    ∃ x, (fieldExpr env inner frame e table f).result = .ok x ∧
      data p.sql = data x.sql ++ [.number (.int 0)] := by
  have hstored : stored f (.arr keys) = .num (.int 0) := by
    simp only [stored, htype]
    rfl
  have hmany : f.isMultiValued = false := by rw [Field.isMultiValued, htype]
  obtain ⟨x, hx, h⟩ := Traced.result_bind_ok.1 h
  refine ⟨x, hx, ?_⟩
  dsimp only at h
  rw [hstored, hmany, htype] at h
  simp only [keyOperators, List.mem_cons, List.not_mem_nil, or_false] at hop
  rcases hop with rfl | rfl | rfl | rfl <;> cases h <;> simp [operand, valuesOf, data_among] <;> rfl

/-- A rule on the constant holds no data. -/
theorem data_constantRule {v : Json} (h : constantRule op v = .ok p) : data p.sql = [] := by
  unfold constantRule at h
  split at h
  · cases h
    exact data_constant _
  · cases h
    exact data_constant _
  · cases h

/-- What a rule for keys holds, whatever its key stands for. -/
theorem data_rule_keys (hop : op ∈ keyOperators) (hkeys : ∀ k ∈ keys, IsScalar k) {key : String}
    {joined : Option String}
    (h : (rule env inner frame ⟨key, op, .arr keys, joined⟩).result = .ok (some p)) :
    key = Rule.constantKey ∧ data p.sql = [] ∨ data p.sql = keys.flatMap dataOf ∨
      ∃ e table f x, subject frame key joined = .ok (.field e table f) ∧
        (fieldExpr env inner frame e table f).result = .ok x ∧
        (f.type = .boolean → data p.sql = data x.sql ++ [.number (.int 0)]) ∧
        (f.type ≠ .boolean →
          data p.sql = (if f.isMultiValued ∨ keys = [] then [] else data x.sql) ++
            keys.flatMap (keyData f (data x.sql) op.isNegative)) := by
  cases rule_cases h with
  | constant hkey h => exact .inl ⟨hkey, data_constantRule h⟩
  | @column c _ _ h =>
    cases (scalarRule_keys hop c keys).symm.trans h
    exact .inr (.inl (data_among_keys c keys _))
  | connection _ _ h => exact .inr (.inl (data_connectionRule hop hkeys h))
  | @field e table f _ hs _ h =>
    obtain ⟨x, hx, -⟩ := Traced.result_bind_ok.1 h
    refine .inr (.inr ⟨e, table, f, x, hs, hx, fun hf => ?_, fun hf => ?_⟩)
    · obtain ⟨x', hx', hdata⟩ := data_flagRule hf hop h
      cases hx.symm.trans hx'
      exact hdata
    · obtain ⟨x', hx', hdata⟩ := data_fieldRule hf hop h
      cases hx.symm.trans hx'
      exact hdata

/-! ## Rules for one value -/

/-- The operators of rules for a username. -/
def userOperators : List RuleOp := [.equals, .notEqual, .contains, .notContains]

/-- Whether data are a value beside what it is compared with, which holds `own`: the value itself, or
a quoted pattern with it inside. -/
inductive HoldsOne (own : List Piece) (v : Json) : List Piece → Prop
  | value : HoldsOne own v (own ++ dataOf v)
  | pattern (t : String) : HoldsOne own v (own ++ [.text t])
  | member (negated : Bool) : HoldsOne own v
    ((if negated then own else []) ++ own ++ [.text ("%\"" ++ v.plain ++ "\"%")])

/-- A pattern is text, whatever it is made of. -/
theorem holdsOne_like {x : Expr} {w : Json} {negated : Bool} (v : Json)
    (h : (if w.plain.isEmpty then none else some (.likeValue x .contains w negated)) = some p) :
    HoldsOne (data x.sql) v (data p.sql) := by
  split at h
  · cases h
  · cases h
    rw [Predicate.likeValue, data_like]
    exact .pattern _

theorem holdsOne_scalarRule (hop : op ∈ userOperators) {x : Expr} {v : Json} (hv : IsScalar v)
    {byDay : Bool} (h : scalarRule op x v byDay = .ok (some p)) :
    HoldsOne (data x.sql) v (data p.sql) := by
  have hcompare (c : Comparison) (hp : comparisonRule c x v byDay = some p) :
      HoldsOne (data x.sql) v (data p.sql) := by
    have hp' : p = .compare (if byDay then .date x else x) c (operand byDay v) := by
      cases v with
      | str | num =>
        cases hp
        rfl
      | null | bool | arr | obj => cases hv
    rw [hp', data_compare, data_dated, data_operand]
    exact .value
  simp only [userOperators, List.mem_cons, List.not_mem_nil, or_false] at hop
  rcases hop with rfl | rfl | rfl | rfl
  · exact hcompare .eq (Except.ok.inj h)
  · exact hcompare .ne (Except.ok.inj h)
  · exact holdsOne_like v (Except.ok.inj h)
  · exact holdsOne_like v (Except.ok.inj h)

theorem holdsOne_arrayRule (hop : op ∈ userOperators) {x : Expr} {v : Json} (hv : IsScalar v)
    (h : arrayRule op x v = .ok (some p)) : HoldsOne (data x.sql) v (data p.sql) := by
  have hp : p = .member x v.plain op.isNegative := by
    simp only [userOperators, List.mem_cons, List.not_mem_nil, or_false] at hop
    cases v with
    | str | num => rcases hop with rfl | rfl | rfl | rfl <;> cases h <;> rfl
    | null | bool | arr | obj => cases hv
  rw [hp, data_member]
  exact .member _

theorem isScalar_stored (f : Field) (s : String) : IsScalar (stored f (.str s)) := by
  rw [stored]
  cases f.type <;> trivial

/-- A rule on a connection holds the value alone. -/
theorem holdsOne_connectionRule (hop : op ∈ userOperators) {key s : String} {joined : Option String}
    (h : (connectionRule env inner frame e table f ⟨key, op, .str s, joined⟩).result =
      .ok (some p)) : HoldsOne [] (.str s) (data p.sql) := by
  have hrelational : ¬(op = .haveRelation ∨ op = .haveNoRelation) := by
    rintro (rfl | rfl) <;> revert hop <;> decide
  rw [connectionRule, Traced.result_bind_ok] at h
  obtain ⟨l, -, h⟩ := h
  obtain ⟨target, -, h⟩ := Traced.result_bind_ok.1 h
  dsimp only at h
  rw [if_neg hrelational] at h
  have hamong (c : Column) (negated : Bool) :
      HoldsOne [] (.str s) (data (Predicate.among (.column c) [.value (.str s)] negated).sql) := by
    rw [data_among _ _ (List.cons_ne_nil _ _), data_columnExpr, List.flatMap_singleton, data_value]
    exact .value
  have hlike (c : Column) {w : Json} {negated : Bool} (hp : (if w.plain.isEmpty then none
      else some (.likeValue (.column c) .contains w negated)) = some p) :
      HoldsOne [] (.str s) (data p.sql) := by
    have hone := holdsOne_like (.str s) hp
    rwa [data_columnExpr] at hone
  simp only [userOperators, List.mem_cons, List.not_mem_nil, or_false] at hop
  cases hkeys : l.keys with
  | own foreign own =>
    rw [hkeys] at h
    rcases hop with rfl | rfl | rfl | rfl
    · cases h
      exact hamong _ _
    · cases h
      exact hamong _ _
    · exact hlike _ (Except.ok.inj h)
    · exact hlike _ (Except.ok.inj h)
  | linked | junction =>
    rw [hkeys] at h
    rcases hop with rfl | rfl | rfl | rfl <;> cases h <;> rw [data_related]
    · exact hamong _ _
    · exact hamong _ _
    · rw [Option.elim_some, Predicate.likeValue, data_like, data_columnExpr]
      exact .pattern _
    · rw [Option.elim_some, Predicate.likeValue, data_like, data_columnExpr]
      exact .pattern _

/-- What a rule for one text holds, whatever its key stands for. -/
theorem data_rule_text (hop : op ∈ userOperators) {key s : String} {joined : Option String}
    (h : (rule env inner frame ⟨key, op, .str s, joined⟩).result = .ok (some p)) :
    key = Rule.constantKey ∧ data p.sql = [] ∨ HoldsOne [] (.str s) (data p.sql) ∨
      ∃ e table f x, subject frame key joined = .ok (.field e table f) ∧
        (fieldExpr env inner frame e table f).result = .ok x ∧
        HoldsOne (data x.sql) (stored f (.str s)) (data p.sql) := by
  cases rule_cases h with
  | constant hkey h => exact .inl ⟨hkey, data_constantRule h⟩
  | @column c _ _ h =>
    have hone := holdsOne_scalarRule hop (v := .str s) trivial h
    rw [data_columnExpr] at hone
    exact .inr (.inl hone)
  | connection _ _ h => exact .inr (.inl (holdsOne_connectionRule hop h))
  | @field e table f _ hs _ h =>
    obtain ⟨x, hx, h⟩ := Traced.result_bind_ok.1 h
    refine .inr (.inr ⟨e, table, f, x, hs, hx, ?_⟩)
    have hv := isScalar_stored f s
    dsimp only at h
    cases hmany : f.isMultiValued with
    | true =>
      rw [hmany, if_pos rfl] at h
      exact holdsOne_arrayRule hop hv h
    | false =>
      rw [hmany, if_neg (by simp)] at h
      exact holdsOne_scalarRule hop hv h

theorem userRule_op (f : Field) (username : String) (negated : Bool) :
    ∃ op, Reduce.userRule f username negated = .rule ⟨f.column, op, .str username, none⟩ ∧
      op.isPlaceholder = false ∧ op.isNegative = negated ∧
      op ∈ (if f.isMultiValued then [.contains, .notContains] else [.equals, .notEqual]) := by
  rw [Reduce.userRule]
  cases f.isMultiValued <;> cases negated <;> exact ⟨_, rfl, rfl, rfl, by simp⟩

/-- Whatever the column of a user field stands for, the rule for a username holds the username there
as one value. -/
theorem holdsOne_userRule {username : String} {negated : Bool}
    (h : (condition env frame (Reduce.userRule f username negated)).result = .ok (some p)) :
    f.column = Rule.constantKey ∧ data p.sql = [] ∨ HoldsOne [] (.str username) (data p.sql) ∨
      ∃ inner e table g x, subject frame f.column none = .ok (.field e table g) ∧
        (fieldExpr env inner frame e table g).result = .ok x ∧
        HoldsOne (data x.sql) (stored g (.str username)) (data p.sql) := by
  obtain ⟨op, hrule, -, -, hop⟩ := userRule_op f username negated
  have huser : op ∈ userOperators := by
    split at hop <;> rcases List.mem_pair.1 hop with rfl | rfl <;> decide
  rw [hrule, condition_rule] at h
  exact (data_rule_text huser h).imp_right (.imp_right fun hfield => ⟨_, hfield⟩)

/-- The rule for a username in a field holds the username, in any case as a text where it stands
inside a pattern. -/
theorem data_userRule {username : String} {negated : Bool} (hf : f.isUser = true)
    (hkey : f.column ≠ Rule.constantKey)
    (hs : subject frame f.column none = .ok (.field e table f))
    (h : (condition env frame (Reduce.userRule f username negated)).result = .ok (some p)) :
    ∃ x, (∀ inner, (fieldExpr env inner frame e table f).result = .ok x) ∧
      data p.sql = (if f.isMultiValued then [] else data x.sql) ++
        keyData f (data x.sql) negated (.str username) := by
  obtain ⟨op, hrule, hplaceholder, hnegative, hop⟩ := userRule_op f username negated
  obtain ⟨multiple, htype⟩ := exists_of_isUser hf
  have hconnection : f.isConnection = false := by
    rw [Field.isConnection, Field.connection?, htype]
    rfl
  have hkeyOf : keyOf f (.str username) = .str username := by simp only [keyOf, htype]
  have hstored : stored f (.str username) = .str username := by simp only [stored, htype]
  rw [hrule, condition_rule, rule_of_field hplaceholder hkey hs,
    if_neg (by simp [hconnection])] at h
  obtain ⟨x, hx, h⟩ := Traced.result_bind_ok.1 h
  refine ⟨x, fun inner => ?_, ?_⟩
  · rw [← hx]
    simp only [fieldExpr, htype]
  dsimp only at h
  rw [hstored, htype] at h
  rw [keyData, hkeyOf]
  subst hnegative
  cases hmany : f.isMultiValued with
  | true =>
    rw [hmany, if_pos rfl] at h hop
    have hp : p = .member x username op.isNegative := by
      rcases List.mem_pair.1 hop with rfl | rfl <;> cases h <;> rfl
    rw [hp, data_member]
    rfl
  | false =>
    rw [hmany, if_neg (by simp)] at h hop
    have hp : ∃ c, p = .compare x c (.value (.str username)) := by
      rcases List.mem_pair.1 hop with rfl | rfl <;> cases h <;> exact ⟨_, rfl⟩
    obtain ⟨c, rfl⟩ := hp
    exact data_compare x c _

end

end CatalogQuery.Compile
