import CatalogQuery.Compile.Frame
import CatalogQuery.Condition.Codec
import CatalogQuery.Options
import CatalogQuery.Sql.Statement

/-!
# From conditions to predicates

A tree is compiled node by node from left to right and stops at the first node in error. Rules on
connections and on formula fields lead to conditions on linked objects, which are compiled inside
subqueries; how many of these can lie within each other is bounded beforehand.
-/

namespace CatalogQuery.Compile

open Sql

/-- How a condition inside a subquery is compiled. -/
abbrev Inner := Frame → Condition → Traced (Option Predicate)

/-- An aggregate over linked records; the filter in force for the field narrows them. -/
def formulaExpr (env : Env) (inner : Inner) (frame : Frame) (e : Entity) (table : String)
    (f : Field) (formula : Formula) : Traced Expr := do
  let l ← link env e formula.field
  let target ← entity env l.target
  match target.field formula.target with
  | none => Traced.fail (.fieldNotFound target.name formula.target)
  | some field =>
    let within := frame.inner target "__f"
    let (source, on) := l.correlated table within.table
    let filter ← match env.filterOf f formula with
      | some c => inner within c
      | none => pure none
    pure (.aggregate formula.aggregate ⟨within.table, field.column⟩ source on filter)

/-- The expression that gives the value of a field. -/
def fieldExpr (env : Env) (inner : Inner) (frame : Frame) (e : Entity) (table : String)
    (f : Field) : Traced Expr :=
  match f.type with
  | .formula formula => formulaExpr env inner frame e table f formula
  | .calculate expression => Traced.ofResult (calculation e table expression)
  | _ =>
    if f.multilingual then
      pure (.translation (.column ⟨table, env.settings.translationsColumn⟩) env.language f.column)
    else pure (.column ⟨table, f.column⟩)

/-- The condition on linked records that a rule carries, if any. -/
def relationFilter : Json → Option Condition
  | .obj members =>
    if Json.has "rules" members || Json.has "key" members then
      some (Condition.ofJson (.obj members))
    else none
  | _ => none

/-- The test that linked records with certain keys have to pass, or that there are none or some. -/
def linkedTest (op : RuleOp) (f : Field) (key : Column) (keys : List Json) (v : Json) :
    Result (Option Predicate × Bool) :=
  match op with
  | .equals | .notEqual | .in | .notIn =>
    .ok (some (.among (.column key) (keys.map .value) false), op.isNegative)
  | .contains | .notContains => .ok (some (.likeValue (.column key) .contains v false), op.isNegative)
  | .isNull | .isEmpty => .ok (none, true)
  | .isNotNull | .isNotEmpty => .ok (none, false)
  | op => .error (.invalidCondition (.connectionOperator op f.column))

/-- A rule on a connection. -/
def connectionRule (env : Env) (inner : Inner) (frame : Frame) (e : Entity) (table : String)
    (f : Field) (r : Rule) : Traced (Option Predicate) := do
  let l ← link env e f.id
  let target ← entity env l.target
  let within := frame.inner target "__r"
  let (source, on) := l.correlated table within.table
  let keyColumn := l.keys.linkedColumn target
  if r.op = .haveRelation ∨ r.op = .haveNoRelation then
    let filter ← match relationFilter r.value with
      | some c => inner within c
      | none => pure none
    pure (some (.related source on filter (r.op == .haveNoRelation)))
  else
    let keys := linkedKeys r.value keyColumn
    match l.keys with
    -- The keys are in the row itself.
    | .own foreign _ =>
      Traced.ofResult (scalarRule r.op (.column ⟨table, foreign⟩) (.arr keys) false)
    | _ =>
      let (test, negated) ←
        Traced.ofResult (linkedTest r.op f ⟨within.table, keyColumn⟩ keys r.value)
      pure (some (.related source on test negated))

/-- A rule on a field that is no connection. -/
def fieldRule (env : Env) (inner : Inner) (frame : Frame) (e : Entity) (table : String) (f : Field)
    (r : Rule) : Traced (Option Predicate) := do
  let expr ← fieldExpr env inner frame e table f
  let v := stored f r.value
  let byDay := match f.type with
    | .date => true
    | _ => false
  Traced.ofResult
    (if f.isMultiValued then arrayRule r.op expr v else scalarRule r.op expr v byDay)

def rule (env : Env) (inner : Inner) (frame : Frame) (r : Rule) : Traced (Option Predicate) := do
  if r.op.isPlaceholder then
    Traced.fail (.invalidCondition (.unresolvedPlaceholder r.op r.key))
  -- The constant comes before any field of that name.
  else if r.key = Rule.constantKey then
    Traced.ofResult ((constantRule r.op r.value).map some)
  else
    match ← Traced.ofResult (subject frame r.key r.joined) with
    | .column c => Traced.ofResult (scalarRule r.op (.column c) r.value false)
    | .field e table f =>
      if f.isConnection then connectionRule env inner frame e table f r
      else fieldRule env inner frame e table f r

mutual
/-- A tree whose rules are compiled one by one. -/
def tree (rule : Rule → Traced (Option Predicate)) : Condition → Traced (Option Predicate)
  | .group glue nodes => do
    let parts ← trees rule nodes
    pure (Predicate.glue glue parts)
  | .rule r => rule r
  | .malformed node => Traced.fail (.invalidCondition (.malformed node))
/-- The predicates of those trees that restrict anything. -/
def trees (rule : Rule → Traced (Option Predicate)) : List Condition → Traced (List Predicate)
  | [] => pure []
  | c :: rest => do
    -- The first node in error decides, so nodes are compiled in order.
    let part ← tree rule c
    let parts ← trees rule rest
    pure (part.toList ++ parts)
end

/-- Compiles a condition that has at most `levels` subqueries within each other. -/
def within (env : Env) : (levels : Nat) → Inner
  | 0, frame, _ => Traced.fail (.configuration (.circularFormula frame.entity.name))
  | levels + 1, frame, c => tree (rule env (within env levels) frame) c

/-- How many subqueries a field can add to those of a condition. -/
def fieldLevels (env : Env) (f : Field) : Nat :=
  match f.type with
  | .formula formula => 1 + ((env.filterOf f formula).map Condition.valueDepth).getD 0
  | _ => 0

def total (ns : List Nat) : Nat := ns.foldl (· + ·) 0

/-- How many subqueries the formula fields of a catalog can add to those of a condition, when no
formula leads back to itself. -/
def formulaLevels (env : Env) : Nat :=
  total (env.catalog.entities.flatMap fun e => e.fields.map (fieldLevels env))

/-- The predicate of a condition on the rows of a frame; none when it restricts nothing. -/
def condition (env : Env) (frame : Frame) (c : Condition) : Traced (Option Predicate) :=
  within env (formulaLevels env + c.valueDepth + 1) frame c

/-- The expression that a sort key orders by; a list field may be ordered by a list of options. -/
def sortExpr (env : Env) (frame : Frame) (s : SortKey) : Traced Expr := do
  match ← Traced.ofResult (subject frame s.key none) with
  | .column c => pure (.column c)
  | .field e table f =>
    let plain := fieldExpr env (within env (formulaLevels env)) frame e table f
    match f.type with
    | .list _ _ => if s.order.isEmpty then plain else pure (.position (.column ⟨table, f.column⟩) s.order)
    | _ => plain

def ordering (env : Env) (frame : Frame) (sort : List SortKey) : Traced (List SortTerm) :=
  sort.mapM fun s => do
    let e ← sortExpr env frame s
    pure ⟨e, s.direction == .descending⟩

/-- The value of a computed field; a formula over a connection that leads nowhere is null. -/
def virtualExpr (env : Env) (frame : Frame) (links : LinkMap) (f : Field) : Traced Expr :=
  let plain := fieldExpr env (within env (formulaLevels env)) frame frame.entity frame.table f
  match f.type with
  | .formula formula =>
    match links.get formula.field with
    | none => do
      Traced.notice (.unresolvedConnection frame.entity.id frame.entity.name formula.field)
      pure .null
    | some _ => plain
  | _ => plain

/-- The computed fields of an object as columns of a result. -/
def virtualColumns (env : Env) (frame : Frame) : Traced (List Selected) := do
  let links ← Traced.consult env.links frame.entity.id
  (frame.entity.fields.filter (·.isVirtual)).mapM fun f => do
    let e ← virtualExpr env frame links f
    pure (Selected.named e f.column)

end CatalogQuery.Compile
