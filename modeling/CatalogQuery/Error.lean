import CatalogQuery.Condition.Basic
import CatalogQuery.Json.Printer

/-!
# Why a request fails

Every failure is held as its cause; the wording of all of them is in `QueryError.message`.
-/

namespace CatalogQuery

/-- What the connection to the database met with. -/
inductive ConnectionFault where
  | reset | aborted | brokenPipe | timedOut | endOfFile | refused | denied
deriving DecidableEq, Repr

/-- Why the database did not answer a statement. -/
inductive DatabaseFailure where
  | poolTimedOut
  | poolClosed
  | rowNotFound
  | lost (fault : ConnectionFault)
  /-- The database refused the statement, or what it sent was not understood. -/
  | other (detail : String)
deriving DecidableEq, Repr

namespace DatabaseFailure

def message : DatabaseFailure → String
  | poolTimedOut => "pool timed out while waiting for an open connection"
  | poolClosed => "attempted to acquire a connection on a closed pool"
  | rowNotFound =>
    "no rows returned by a query that expected to return at least one row"
  | lost _ => "error communicating with database: io failure"
  | other detail => detail

/-- Whether the same statement may succeed when it is sent again. -/
def isTransient : DatabaseFailure → Bool
  | poolTimedOut => true
  | lost .reset | lost .aborted | lost .brokenPipe | lost .timedOut | lost .endOfFile => true
  | _ => false

end DatabaseFailure

/-- Contradictions in the metadata. -/
inductive Misconfiguration where
  /-- A connection of an object that leads nowhere. -/
  | unresolvedConnection (field object : String)
  | unknownQuery (id : String)
  | unknownCollection (id : String)
  /-- A stored filter that is reached from itself, and the way to it. -/
  | cyclicFilters (chain : List String)
  | unresolvedJoin (field object : String)
  | vanishedConnection (field object : String)
  | unknownOperand (object field : String)
  | notArithmetic (formula object : String)
  /-- A formula field whose filter leads back to it. -/
  | circularFormula (field : String)
  | other (detail : String)

/-- Caller input of the wrong shape. -/
inductive InputFault where
  | optionsNotObject (value : Json)
  | valuesNotObject (value : Json)
  | notCount (option : String)
  | populateEntry (value : Json)
  | populateValue (value : Json)
  | notConnection (field object : String)
  | other (detail : String)

/-- A node of a condition that has no meaning where it stands. -/
inductive ConditionFault where
  | malformed (node : Json)
  | unresolvedPlaceholder (op : RuleOp) (key : String)
  | constantOperator (op : RuleOp)
  | unknownAlias (name : String)
  | notPlaceholder (op : RuleOp)
  | fieldReference (op : RuleOp) (reference : String)
  | bounds (op : RuleOp) (value : Json)
  | connectionOperator (op : RuleOp) (column : String)
  | relationOperator (op : RuleOp)
  | other (detail : String)

/-- Why the caller's rights cannot be told. -/
inductive SecurityFault where
  | unknownUser (username : String)
  | inactiveUser (username : String)
  | scopeWithoutId
  | other (detail : String)

inductive QueryError where
  | configuration (cause : Misconfiguration)
  | objectNotFound (object : String)
  | fieldNotFound (object field : String)
  | recordNotFound (record : String)
  | invalidInput (cause : InputFault)
  | invalidCondition (cause : ConditionFault)
  | security (cause : SecurityFault)
  | sql (statement : String) (failure : DatabaseFailure)
  | connection (detail : String)
  /-- Program data that does not decode. -/
  | undecodable

def Misconfiguration.message : Misconfiguration → String
  | unresolvedConnection field object =>
    "Connection '" ++ field ++ "' of '" ++ object ++ "' cannot be resolved"
  | unknownQuery id => "Unknown query '" ++ id ++ "'"
  | unknownCollection id => "Unknown data collection '" ++ id ++ "'"
  | cyclicFilters chain =>
    "Cyclic reference between stored filters: " ++ " -> ".intercalate chain
  | unresolvedJoin field object =>
    "Join '" ++ field ++ "' of '" ++ object ++ "' is not a resolvable connection"
  | vanishedConnection field object =>
    "Connection '" ++ field ++ "' of '" ++ object ++ "' vanished while resolving same_as_user"
  | unknownOperand object field =>
    "Calculate formula on '" ++ object ++ "' references unknown field '" ++ field ++ "'"
  | notArithmetic formula object =>
    "Calculate formula '" ++ formula ++ "' on '" ++ object ++ "' is not plain arithmetic"
  | circularFormula field => "Formula field '" ++ field ++ "' depends on itself"
  | other detail => detail

def InputFault.message : InputFault → String
  | optionsNotObject value => "Find options must be a JSON object, got " ++ value.text
  | valuesNotObject value => "Record values must be a JSON object, got " ++ value.text
  | notCount option => option ++ " must be a non-negative integer"
  | populateEntry value => "populate entries must be strings, got " ++ value.text
  | populateValue value => "populate must be a boolean or a list of fields, got " ++ value.text
  | notConnection field object => "'" ++ field ++ "' is not a connection of '" ++ object ++ "'"
  | other detail => detail

def ConditionFault.message : ConditionFault → String
  | malformed node => "Malformed condition node: " ++ node.text
  | unresolvedPlaceholder op key =>
    "Unresolved '" ++ op.name ++ "' rule on key '" ++ key ++ "'"
  | constantOperator op => "Operator '" ++ op.name ++ "' cannot be used with constant key"
  | unknownAlias name => "Unknown join alias '" ++ name ++ "'"
  | notPlaceholder op => "'" ++ op.name ++ "' is not a placeholder operator"
  | fieldReference op reference =>
    "'" ++ op.name ++ "' expects 'queryId:fieldId', got '" ++ reference ++ "'"
  | bounds op value => "'" ++ op.name ++ "' needs two bounds, got " ++ value.text
  | connectionOperator op column =>
    "Operator '" ++ op.name ++ "' is not supported on connection field '" ++ column ++ "'"
  | relationOperator op =>
    "Operator '" ++ op.name ++ "' is only valid on connection fields"
  | other detail => detail

def SecurityFault.message : SecurityFault → String
  | unknownUser username => "Unknown user '" ++ username ++ "'"
  | inactiveUser username => "User '" ++ username ++ "' is not active"
  | scopeWithoutId => "Scope row without uuid"
  | other detail => detail

namespace QueryError

def message : QueryError → String
  | configuration cause => "Configuration error: " ++ cause.message
  | objectNotFound object => "Object not found: " ++ object
  | fieldNotFound object field => "Field '" ++ field ++ "' not found on object '" ++ object ++ "'"
  | recordNotFound record => "Record not found: " ++ record
  | invalidInput cause => "Invalid input: " ++ cause.message
  | invalidCondition cause => "Invalid condition: " ++ cause.message
  | security cause => "Security error: " ++ cause.message
  | sql statement failure =>
    "SQL error: " ++ failure.message ++ " (sql: " ++ statement ++ ")"
  | connection detail => "Connection error: " ++ detail
  | undecodable => "JSON serialization error"

/-- Whether sending the same statement again may help. -/
def isTransient : QueryError → Bool
  | sql _ failure => failure.isTransient
  | _ => false

/-- The name of the kind of failure. -/
def kind : QueryError → String
  | configuration _ => "Configuration"
  | objectNotFound _ => "ObjectNotFound"
  | fieldNotFound _ _ => "FieldNotFound"
  | recordNotFound _ => "RecordNotFound"
  | invalidInput _ => "InvalidInput"
  | invalidCondition _ => "InvalidCondition"
  | security _ => "Security"
  | sql _ _ => "Sql"
  | connection _ => "Connection"
  | undecodable => "Json"

end QueryError

abbrev Result (α : Type) := Except QueryError α

/-- A value that was refused for one field, named by its column. -/
structure FieldError where
  column : String
  message : String
deriving DecidableEq, Repr

/-- A problem of the metadata, told to its authors and not to the caller. -/
inductive Notice where
  | unknownTarget (object objectName field column target : String)
  | noReverseField (object objectName field column targetName : String)
  | nonUniqueKey (owner ownerName field column : String)
  | invalidIdentifier (object identifier reason : String)
  | unresolvedConnection (object objectName field : String)
  | unresolvedJoin (object objectName field : String)
  | unknownQuery (id : String)
  | unknownCollection (id : String)
  | cyclicFilters (chain : List String)
deriving DecidableEq, Repr

namespace Notice

def kind : Notice → String
  | unknownTarget .. | noReverseField .. | unresolvedConnection .. => "missing_link_target"
  | nonUniqueKey .. => "non_unique_join_key"
  | invalidIdentifier .. => "invalid_identifier"
  | unresolvedJoin .. | unknownQuery _ | unknownCollection _ | cyclicFilters _ =>
    "invalid_definition"

def message : Notice → String
  | unknownTarget _ objectName _ column target =>
    "Connection field '" ++ column ++ "' of '" ++ objectName ++ "' links to unknown object '" ++
      target ++ "'"
  | noReverseField _ objectName _ column targetName =>
    "Connection field '" ++ column ++ "' of '" ++ objectName ++
      "' has no usable reverse field on '" ++ targetName ++ "'"
  | nonUniqueKey _ ownerName _ column =>
    "Join key '" ++ column ++ "' of '" ++ ownerName ++ "' is not backed by a unique index"
  | invalidIdentifier _ _ reason => reason
  | unresolvedConnection _ objectName field =>
    (Misconfiguration.unresolvedConnection field objectName).message
  | unresolvedJoin _ objectName field => (Misconfiguration.unresolvedJoin field objectName).message
  | unknownQuery id => (Misconfiguration.unknownQuery id).message
  | unknownCollection id => (Misconfiguration.unknownCollection id).message
  | cyclicFilters chain => (Misconfiguration.cyclicFilters chain).message

/-- What the notice is about, by name. -/
def context : Notice → Json
  | unknownTarget object _ field _ _ | noReverseField object _ field _ _
  | nonUniqueKey object _ field _ | unresolvedConnection object _ field
  | unresolvedJoin object _ field =>
    Json.object [("object", .str object), ("field", .str field)]
  | invalidIdentifier object identifier _ =>
    Json.object [("object", .str object), ("identifier", .str identifier)]
  | unknownQuery id => Json.object [("query", .str id)]
  | unknownCollection id => Json.object [("dataCollection", .str id)]
  | cyclicFilters chain => Json.object [("chain", Json.strings chain)]

end Notice

end CatalogQuery
