import CatalogQuery.Json.Basic

/-!
# Conditions

A condition is a tree of rules joined by "and" and "or". What a caller or a stored definition wrote
that is neither a rule nor a group stays in the tree as it is, so that whoever compiles the tree
can point at it.
-/

namespace CatalogQuery

/-- How the members of a group combine. -/
inductive Glue where
  | and
  | or
deriving DecidableEq, Repr

/-- What a rule tests. -/
inductive RuleOp where
  | equals | notEqual | less | greater | lessOrEqual | greaterOrEqual
  | between | notBetween
  | contains | notContains | beginsWith | notBeginsWith | endsWith | notEndsWith
  | isEmpty | isNotEmpty | isNull | isNotNull
  | in | notIn
  | isCurrentDate
  | haveRelation | haveNoRelation
  | inQuery | notInQuery
  | inDataCollection | notInDataCollection
  | inQueryField | notInQueryField
  | sameAsUser | notSameAsUser
  | containCurrentUser | notContainCurrentUser
deriving DecidableEq, Repr

namespace RuleOp

def name : RuleOp → String
  | equals => "equals"
  | notEqual => "not_equal"
  | less => "less"
  | greater => "greater"
  | lessOrEqual => "less_or_equal"
  | greaterOrEqual => "greater_or_equal"
  | between => "between"
  | notBetween => "not_between"
  | contains => "contains"
  | notContains => "not_contains"
  | beginsWith => "begins_with"
  | notBeginsWith => "not_begins_with"
  | endsWith => "ends_with"
  | notEndsWith => "not_ends_with"
  | isEmpty => "is_empty"
  | isNotEmpty => "is_not_empty"
  | isNull => "is_null"
  | isNotNull => "is_not_null"
  | .in => "in"
  | notIn => "not_in"
  | isCurrentDate => "is_current_date"
  | haveRelation => "have_relation"
  | haveNoRelation => "have_no_relation"
  | inQuery => "in_query"
  | notInQuery => "not_in_query"
  | inDataCollection => "in_data_collection"
  | notInDataCollection => "not_in_data_collection"
  | inQueryField => "in_query_field"
  | notInQueryField => "not_in_query_field"
  | sameAsUser => "same_as_user"
  | notSameAsUser => "not_same_as_user"
  | containCurrentUser => "contain_current_user"
  | notContainCurrentUser => "not_contain_current_user"

def all : List RuleOp :=
  [equals, notEqual, less, greater, lessOrEqual, greaterOrEqual, between, notBetween, contains,
    notContains, beginsWith, notBeginsWith, endsWith, notEndsWith, isEmpty, isNotEmpty, isNull,
    isNotNull, .in, notIn, isCurrentDate, haveRelation, haveNoRelation, inQuery, notInQuery,
    inDataCollection, notInDataCollection, inQueryField, notInQueryField, sameAsUser,
    notSameAsUser, containCurrentUser, notContainCurrentUser]

/-- Second names under which operators are also known. -/
def synonym : String → Option RuleOp
  | "equal" => some equals
  | "is" => some equals
  | "not_equals" => some notEqual
  | "is_not" => some notEqual
  | "less_than" => some less
  | "greater_than" => some greater
  | "contain" => some contains
  | "not_contain" => some notContains
  | _ => none

def ofName (s : String) : Option RuleOp :=
  match all.find? (·.name == s) with
  | some op => some op
  | none => synonym s

/-- Whether the operator stands for keys that are still to be looked up. -/
def isPlaceholder : RuleOp → Bool
  | inQuery | notInQuery | inDataCollection | notInDataCollection | inQueryField
  | notInQueryField | sameAsUser | notSameAsUser | containCurrentUser
  | notContainCurrentUser => true
  | _ => false

/-- Whether the operator is the negative half of its pair. -/
def isNegative : RuleOp → Bool
  | notEqual | notBetween | notContains | notBeginsWith | notEndsWith | isNotEmpty | isNotNull
  | notIn | haveNoRelation | notInQuery | notInDataCollection | notInQueryField | notSameAsUser
  | notContainCurrentUser => true
  | _ => false

end RuleOp

/-- A test of one field. -/
structure Rule where
  /-- Id or column of a field, or one of the two keys below. -/
  key : String
  op : RuleOp
  value : Json
  /-- The joined object that the key belongs to, when it is not the base object. -/
  joined : Option String

/-- Whether two rules are equal. -/
def Rule.same (r s : Rule) : Bool :=
  r.key == s.key && r.op == s.op && r.value.same s.value && r.joined == s.joined

/-- The key of a rule that is always or never true. -/
def Rule.constantKey : String := "1"

/-- The key that stands for the primary key. -/
def Rule.selfKey : String := "this_object"

inductive Condition where
  | group (glue : Glue) (nodes : List Condition)
  | rule (rule : Rule)
  /-- A node that is neither a group nor a rule. -/
  | malformed (node : Json)

namespace Condition

/-- The condition that restricts nothing. -/
def empty : Condition := group .and []

instance : Inhabited Condition := ⟨empty⟩

def ofRule (key : String) (op : RuleOp) (value : Json) (joined : Option String := none) :
    Condition :=
  rule ⟨key, op, value, joined⟩

def eq (key : String) (value : Json) : Condition := ofRule key .equals value

def inList (key : String) (values : List Json) : Condition := ofRule key .in (.arr values)

def notInList (key : String) (values : List Json) : Condition := ofRule key .notIn (.arr values)

/-- The condition that is true of every record, or of none. -/
def constant (truth : Bool) : Condition :=
  eq Rule.constantKey (Json.ofInt (if truth then 1 else 0))

mutual
/-- Whether the tree is nothing but groups. -/
def isEmpty : Condition → Bool
  | group _ nodes => allEmpty nodes
  | _ => false
def allEmpty : List Condition → Bool
  | [] => true
  | c :: rest => c.isEmpty && allEmpty rest
end

/-- Both conditions; one that is empty is left out. -/
def and (a b : Condition) : Condition :=
  if a.isEmpty then b else if b.isEmpty then a else group .and [a, b]

mutual
/-- The rules of a tree from left to right. -/
def rules : Condition → List Rule
  | group _ nodes => rulesOf nodes
  | rule r => [r]
  | malformed _ => []
def rulesOf : List Condition → List Rule
  | [] => []
  | c :: rest => c.rules ++ rulesOf rest
end

mutual
/-- Goes through the rules of a tree from left to right and carries a state along. -/
def visit {σ : Type} (f : σ → Rule → σ) : σ → Condition → σ
  | s, group _ nodes => visitIn f s nodes
  | s, rule r => f s r
  | s, malformed _ => s
def visitIn {σ : Type} (f : σ → Rule → σ) : σ → List Condition → σ
  | s, [] => s
  | s, c :: rest => visitIn f (visit f s c) rest
end

mutual
/-- The first rule that satisfies `p`. -/
def find? (p : Rule → Bool) : Condition → Option Rule
  | group _ nodes => findIn p nodes
  | rule r => if p r then some r else none
  | malformed _ => none
def findIn (p : Rule → Bool) : List Condition → Option Rule
  | [] => none
  | c :: rest =>
    match c.find? p with
    | some r => some r
    | none => findIn p rest
end

mutual
/-- How many rules satisfy `p`. -/
def count (p : Rule → Bool) : Condition → Nat
  | group _ nodes => countIn p nodes
  | rule r => if p r then 1 else 0
  | malformed _ => 0
def countIn (p : Rule → Bool) : List Condition → Nat
  | [] => 0
  | c :: rest => c.count p + countIn p rest
end

def placeholders : Condition → Nat := count fun r => r.op.isPlaceholder

mutual
/-- The tree with another node in place of the first rule that satisfies `p`. -/
def replaceFirst (p : Rule → Bool) (node : Condition) : Condition → Option Condition
  | group glue nodes => (replaceIn p node nodes).map (group glue)
  | rule r => if p r then some node else none
  | malformed _ => none
def replaceIn (p : Rule → Bool) (node : Condition) : List Condition → Option (List Condition)
  | [] => none
  | c :: rest =>
    match replaceFirst p node c with
    | some c' => some (c' :: rest)
    | none => (replaceIn p node rest).map (c :: ·)
end

mutual
/-- The tree less the rules that do not satisfy `keep` and the groups that this leaves empty. -/
def retain (keep : Rule → Bool) : Condition → Condition
  | group glue nodes => group glue (retainIn keep nodes)
  | rule r => if keep r then rule r else empty
  | malformed node => malformed node
def retainIn (keep : Rule → Bool) : List Condition → List Condition
  | [] => []
  | c :: rest =>
    let c' := c.retain keep
    if c'.isEmpty then retainIn keep rest else c' :: retainIn keep rest
end

mutual
/-- How deeply the values of a tree's rules are nested. -/
def valueDepth : Condition → Nat
  | group _ nodes => valueDepthIn nodes
  | rule r => r.value.depth
  | malformed _ => 0
def valueDepthIn : List Condition → Nat
  | [] => 0
  | c :: rest => max c.valueDepth (valueDepthIn rest)
end

end Condition

end CatalogQuery
