import CatalogQuery.Error
import CatalogQuery.Sql.Predicate

/-!
# Rules on a value

The predicate of a rule whose key stands for one expression. None means that the rule restricts
nothing.
-/

namespace CatalogQuery.Compile

open Sql

/-- The values of a rule as a list; null is no value. -/
def valuesOf : Json → List Json
  | .arr items => items
  | .null => []
  | v => [v]

/-- The keys of linked records that a value names, by themselves or as records. -/
def linkedKeys (v : Json) (keyColumn : String) : List Json :=
  (valuesOf v).filterMap fun
    | .obj members =>
      match Json.find keyColumn members with
      | some k => some k
      | none =>
        match Json.find "uuid" members with
        | some k => some k
        | none => Json.find "id" members
    | .null => none
    | v => some v

/-- A value as the column of a field holds it: labels of options become their ids, flags become
one or zero. -/
def stored (f : Field) (v : Json) : Json :=
  match f.type with
  | .list options _ =>
    let optionOf : Json → Json
      | .str s => .str ((ListOption.idOf options s).getD s)
      | v => v
    match v with
    | .arr items => .arr (items.map optionOf)
    | v => optionOf v
  | .boolean => if v.isNull then v else Json.ofInt (if v.isTruthy then 1 else 0)
  | _ => v

def comparison : RuleOp → Option Comparison
  | .equals => some .eq
  | .notEqual => some .ne
  | .less => some .lt
  | .greater => some .gt
  | .lessOrEqual => some .le
  | .greaterOrEqual => some .ge
  | _ => none

def pattern : RuleOp → Option Pattern
  | .contains | .notContains => some .contains
  | .beginsWith | .notBeginsWith => some .beginsWith
  | .endsWith | .notEndsWith => some .endsWith
  | _ => none

/-- The days of two values are compared when `byDay` is set. -/
def operand (byDay : Bool) (v : Json) : Operand := if byDay then .day v else .value v

/-- A comparison with null asks for null or nothing; equality with a list is membership in it. -/
def comparisonRule (c : Comparison) (e : Expr) (v : Json) (byDay : Bool) : Option Predicate :=
  let left := if byDay then .date e else e
  let isEquality := c == .eq || c == .ne
  match v with
  | .null => if isEquality then some (.compareValue e c .null) else none
  | .arr items =>
    if isEquality then some (.among left (items.map (operand byDay)) (c == .ne))
    else some (.compare left c (operand byDay (.arr items)))
  | v => some (.compare left c (operand byDay v))

/-- A rule on an expression that has one value in each row. -/
def scalarRule (op : RuleOp) (e : Expr) (v : Json) (byDay : Bool) : Result (Option Predicate) :=
  let left := if byDay then .date e else e
  match comparison op with
  | some c => .ok (comparisonRule c e v byDay)
  | none =>
    match pattern op with
    -- Every text matches the empty pattern.
    | some p => .ok (if v.plain.isEmpty then none else some (.likeValue e p v op.isNegative))
    | none =>
      match op with
      | .between | .notBetween =>
        match valuesOf v with
        | [low, high] =>
          .ok (some (.between left (operand byDay low) (operand byDay high) (op == .notBetween)))
        | _ => .error (.invalidCondition (.bounds op v))
      | .isEmpty | .isNotEmpty => .ok (some (.isEmpty e (op == .isNotEmpty)))
      | .isNull | .isNotNull => .ok (some (.isNull e (op == .isNotNull)))
      | .in | .notIn =>
        .ok (some (.among left ((valuesOf v).map (operand byDay)) (op == .notIn)))
      | .isCurrentDate => .ok (some (.compare (.date e) .eq .today))
      | _ => .error (.invalidCondition (.relationOperator op))

/-- A rule on a column that holds a JSON array: some of the values are in it, or all are not. -/
def arrayRule (op : RuleOp) (e : Expr) (v : Json) : Result (Option Predicate) :=
  let items := (valuesOf v).map Json.plain
  match op with
  | .equals | .contains | .in =>
    .ok (some ((Predicate.glue .or (items.map fun i => .member e i false)).getD (.constant false)))
  | .notEqual | .notContains | .notIn =>
    .ok (Predicate.glue .and (items.map fun i => .member e i true))
  | .isEmpty => .ok (some (.glued .or [.isEmpty e false, .compare e .eq (.text "[]")]))
  | .isNotEmpty => .ok (some (.glued .and [.isEmpty e true, .compare e .ne (.text "[]")]))
  | _ => scalarRule op e v false

/-- A rule on the constant key. -/
def constantRule (op : RuleOp) (v : Json) : Result Predicate :=
  match op with
  | .equals => .ok (.constant v.isTruthy)
  | .notEqual => .ok (.constant (!v.isTruthy))
  | op => .error (.invalidCondition (.constantOperator op))

end CatalogQuery.Compile
