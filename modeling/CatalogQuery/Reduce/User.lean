import CatalogQuery.Reduce.Stored

/-!
# Rules about the caller

A rule that asks for the caller becomes a rule that asks for a username in a user field, in the
linked records, or in the records at the end of a chain of links. The chain is the shortest one that
leads to an object with a user field.
-/

namespace CatalogQuery.Reduce

open Sql

/-- A rule for a username in a column that holds one user or several. -/
def userRule (f : Field) (username : String) (negated : Bool) : Condition :=
  let op : RuleOp :=
    if f.isMultiValued then (if negated then .notContains else .contains)
    else if negated then .notEqual
    else .equals
  .ofRule f.column op (.str username)

/-- The condition that some user field names the user, or that none does; none for an object
without user fields. -/
def userMatch (e : Entity) (username : String) (negated : Bool) : Option Condition :=
  match e.userFields with
  | [] => none
  | fields =>
    some (.group (if negated then .and else .or) (fields.map fun f => userRule f username negated))

def fieldOf (e : Entity) (key : String) : Traced Field :=
  match e.field key with
  | some f => pure f
  | none => Traced.fail (.fieldNotFound e.name key)

/-- A rule that a field holds the caller, or that the linked records do. -/
def containsCaller (env : Compile.Env) (username : Option String) (e : Entity) (r : Rule) :
    Traced Condition := do
  let negated := r.op == .notContainCurrentUser
  match username with
  | none => pure (Condition.constant negated)
  | some username => do
    let f ← fieldOf e r.key
    if !f.isConnection then pure (userRule f username negated)
    else do
      let l ← Compile.link env e f.id
      let target ← Compile.entity env l.target
      match userMatch target username false with
      | none => pure (Condition.constant negated)
      | some inner =>
        pure (.ofRule r.key (if negated then .haveNoRelation else .haveRelation) inner.toJson r.joined)

/-- A step of a chain of links. -/
structure Hop where
  /-- Id of the object. -/
  entity : String
  /-- The connection that leads on; none at the end. -/
  next : Option String
deriving DecidableEq, Repr

/-- The links that lead to objects not seen before, and all objects seen then. -/
def newTargets (seen : List String) : List Link → List Link × List String
  | [] => ([], seen)
  | l :: rest =>
    if seen.contains l.target then newTargets seen rest
    else
      let (found, seen) := newTargets (l.target :: seen) rest
      (l :: found, seen)

/-- Searches breadth first; the queue holds objects with the hops that lead to them. -/
def search (env : Compile.Env) :
    (steps : Nat) → List (String × List Hop) → List String → Traced (Option (List Hop))
  | 0, _, _ => pure none
  | _ + 1, [], _ => pure none
  | steps + 1, (current, hops) :: queue, seen => do
    let e ← Compile.entity env current
    -- Objects leave the queue in the order of their distance, so the first hit is nearest.
    if !e.userFields.isEmpty then pure (some (hops ++ [⟨current, none⟩]))
    else do
      let links ← Traced.consult env.links e.id
      let (found, seen) := newTargets seen links.links
      let next := found.map fun l => (l.target, hops ++ [⟨current, some l.field⟩])
      search env steps (queue ++ next) seen

/-- The shortest chain of links from an object to one with a user field. -/
def userPath (env : Compile.Env) (start : Entity) : Traced (Option (List Hop)) :=
  search env (env.catalog.entities.length + 1) [(start.id, [])] [start.id]

/-- The column by which an object of a chain is known to the one before it. -/
def hopKey (env : Compile.Env) (startKey : String) (before : Option Hop) (e : Entity) :
    Traced String :=
  match before with
  | none => pure startKey
  | some before => do
    let links ← Traced.consult env.links before.entity
    let field := before.next.getD ""
    match links.get field with
    | some l => pure (l.keys.linkedColumn e)
    | none => Traced.fail (.configuration (.vanishedConnection field before.entity))

/-- The statement that reads the keys at one step of a chain, from the keys at the next one. -/
def hopSelect (env : Compile.Env) (startKey username : String) (before : Option Hop) (hop : Hop)
    (keys : List Json) : Traced Select := do
  let e ← Compile.entity env hop.entity
  let key ← hopKey env startKey before e
  -- At its end the chain asks for the user, before that for the keys read last.
  let c := match hop.next with
    | none => (userMatch e username false).getD (Condition.constant false)
    | some field => Condition.inList field keys
  let filter ← Compile.condition env (Compile.Frame.base e) c
  pure (.plain true [.expr (.column ⟨e.table, key⟩)] ⟨e.table, none, []⟩
    (some (filter.getD (.constant true))))

/-- The steps of a chain from its end, each with the one before it. -/
def backwards (path : List Hop) : List (Option Hop × Hop) :=
  ((none :: path.map some).zip path).reverse

/-- Reads the keys of a chain from its end on; when there are none at a step, none remain. -/
def walk (s : Session) (env : Links → Compile.Env) (startKey username : String) :
    List (Option Hop × Hop) → List Json → Program (List Json)
  | [], keys => pure keys
  | (before, hop) :: rest, keys => do
    let select ← Program.withLinks fun links =>
      hopSelect (env links) startKey username before hop keys
    let rows ← s.fetch select
    let keys := firstColumn rows
    if keys.isEmpty then pure keys else walk s env startKey username rest keys

/-- How a rule about the caller's own records goes on. -/
inductive CallerRule where
  | settled (c : Condition)
  /-- The chain to follow, and the column by which its first object is known. -/
  | chain (path : List Hop) (startKey : String)

/-- The chain of a rule about the caller's own records, or what the rule comes down to without
one. -/
def callerRule (env : Compile.Env) (username : Option String) (e : Entity) (r : Rule) :
    Traced CallerRule := do
  let negated := r.op == .notSameAsUser
  let follow (start : Entity) (startKey : String) (username : String) : Traced CallerRule := do
    match ← userPath env start with
    | none => pure (.settled (Condition.constant negated))
    | some path =>
      -- An object with user fields of its own needs no keys to be read.
      if path.length = 1 ∧ r.key = Rule.selfKey then
        pure (.settled ((userMatch start username negated).getD (Condition.constant negated)))
      else pure (.chain path startKey)
  match username with
  | none => pure (.settled (Condition.constant negated))
  | some username =>
    if r.key = Rule.selfKey then follow e e.keyColumn username
    else do
      let f ← fieldOf e r.key
      if !f.isConnection then pure (.settled (userRule f username negated))
      else do
        let l ← Compile.link env e f.id
        let target ← Compile.entity env l.target
        follow target (l.keys.linkedColumn target) username

end CatalogQuery.Reduce
