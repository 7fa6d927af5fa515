import CatalogQuery.Reduce.User

/-!
# Reducing conditions

A condition is narrowed to what the caller may see, and every placeholder in it is replaced by what
it stands for. There are five passes, each for one kind of placeholder; a pass takes the first of its
kind in the tree until there is none. Stored filters are reduced in the same way before they are read, and one that is
reached from itself is an error.
-/

namespace CatalogQuery.Reduce

/-- The kinds of placeholders in the order in which they are replaced. -/
def passes : List (List RuleOp) :=
  [[.inQuery, .notInQuery], [.inQueryField, .notInQueryField],
    [.inDataCollection, .notInDataCollection], [.containCurrentUser, .notContainCurrentUser],
    [.sameAsUser, .notSameAsUser]]

/-- What is the same for all the trees that are reduced for one caller. -/
structure Context where
  session : Session
  catalog : Catalog
  caller : Caller
  sight : Sight

def Context.env (ctx : Context) (links : Links) : Compile.Env :=
  ⟨ctx.session.settings, ctx.catalog, links, ctx.caller.language, []⟩

/-- How the condition of a stored filter is reduced. -/
abbrev Expand := StoredSource → Program Condition

/-- A rule of membership in a stored filter. -/
def membership (ctx : Context) (expand : Expand) (e : Entity) (r : Rule) (stored : StoredSource)
    (column : Option String) : Program Condition := do
  let reduced ← expand stored
  let (select, key) ← Program.withLinks fun links =>
    membershipSelect (ctx.env links) e r stored reduced column
  -- Only the keys enter the condition; how they were selected does not.
  let rows ← ctx.session.fetch select
  let op : RuleOp := if r.op.isNegative then .notIn else .in
  pure (.ofRule key op (.arr (firstColumn rows)) r.joined)

def sameAsCaller (ctx : Context) (e : Entity) (r : Rule) : Program Condition := do
  let found ← Program.withLinks fun links => callerRule (ctx.env links) ctx.caller.username e r
  match found with
  | .settled c => pure c
  | .chain path startKey => do
    let username := ctx.caller.username.getD ""
    let keys ← walk ctx.session ctx.env startKey username (backwards path) []
    let op : RuleOp := if r.op == .notSameAsUser then .notIn else .in
    pure (.ofRule r.key op (.arr keys) r.joined)

/-- What a placeholder stands for. -/
def placeholder (ctx : Context) (expand : Expand) (e : Entity) (r : Rule) : Program Condition :=
  match r.op with
  | .inQuery | .notInQuery => do
    let stored ← Program.withLinks fun _ => queryNamed ctx.catalog r.value.plain
    membership ctx expand e r stored none
  | .inQueryField | .notInQueryField => do
    let (stored, column) ← Program.withLinks fun _ => queryField ctx.catalog r
    membership ctx expand e r stored (some column)
  | .inDataCollection | .notInDataCollection => do
    let stored ← Program.withLinks fun _ => collectionNamed ctx.catalog r.value.plain
    membership ctx expand e r stored none
  | .containCurrentUser | .notContainCurrentUser =>
    Program.withLinks fun links => containsCaller (ctx.env links) ctx.caller.username e r
  | .sameAsUser | .notSameAsUser => sameAsCaller ctx e r
  | op => Program.ofResult (.error (.invalidCondition (.notPlaceholder op)))

/-- Replaces the first rule that satisfies `p` by what `f` makes of it, and goes on with the tree that
this gives. There are as many turns as rules to replace: what takes their place holds none. -/
def replaceEach (p : Rule → Bool) (f : Rule → Program Condition) :
    (turns : Nat) → Condition → Program Condition
  | 0, c => pure c
  | turns + 1, c =>
    match c.find? p with
    | none => pure c
    | some r => do
      let node ← f r
      -- The rule is looked up again, now by what it says.
      match Condition.replaceFirst (·.same r) node c with
      | some c => replaceEach p f turns c
      | none => pure c

/-- Replaces the placeholders of a tree, pass by pass. -/
def replaceAll (ctx : Context) (expand : Expand) (e : Entity) :
    List (List RuleOp) → Condition → Program Condition
  | [], c => pure c
  | ops :: rest, c => do
    let inPass (r : Rule) : Bool := ops.contains r.op
    let c ← replaceEach inPass (placeholder ctx expand e) (c.count inPass) c
    replaceAll ctx expand e rest c

def reduceWith (ctx : Context) (expand : Expand) (entity : String) (c : Condition) :
    Program Condition := do
  let e ← Program.ofResult (ctx.catalog.entity entity)
  replaceAll ctx expand e passes (ctx.sight.narrow e c)

/-- A stored filter that is reached from itself. -/
def cyclic (chain : List String) : Program Condition := do
  Program.notice (.cyclicFilters chain)
  Program.ofResult (.error (.configuration (.cyclicFilters chain)))

/-- Reduces a condition inside the stored filters `visiting`, below which at most `levels` more can
lie within each other. -/
def reduceTree (ctx : Context) : (levels : Nat) → (visiting : List String) → String → Condition →
    Program Condition
  | 0, visiting, entity, c =>
    reduceWith ctx (fun stored => cyclic (visiting ++ [stored.id])) entity c
  | levels + 1, visiting, entity, c =>
    reduceWith ctx
      (fun stored =>
        if visiting.contains stored.id then cyclic (visiting ++ [stored.id])
        else reduceTree ctx levels (visiting ++ [stored.id]) stored.entity stored.condition)
      entity c

/-- The condition on an object that a caller's request comes down to. -/
def reduce (s : Session) (entity : String) (c : Condition) (caller : Caller) :
    Program Condition := do
  let catalog ← Program.catalog
  let _ ← Program.ofResult (catalog.entity entity)
  let sight ← s.sight caller
  reduceTree ⟨s, catalog, caller, sight⟩ catalog.storedFilters [] entity c

/-- Sets the filter of a field. -/
def setFilter (field : String) (c : Condition) (filters : List (String × Condition)) :
    List (String × Condition) :=
  (filters.filter (·.1 ≠ field)) ++ [(field, c)]

/-- Reduces the filters of an object's formula fields that hold placeholders. What they range over
is not narrowed to what the caller may see. -/
def fieldFilters (ctx : Context) (links : LinkMap) :
    List Field → List (String × Condition) → Program (List (String × Condition))
  | [], filters => pure filters
  | f :: rest, filters => do
    let filters ←
      match f.type with
      | .formula ⟨field, _, _, some c⟩ =>
        match c.placeholders, links.get field with
        -- A filter without placeholders is compiled as it is stored.
        | 0, _ => pure filters
        | _, none => pure filters
        | _, some l => do
          let c ← reduceTree ctx ctx.catalog.storedFilters [] l.target c
          pure (setFilter f.id c filters)
      | _ => pure filters
    fieldFilters ctx links rest filters

def entityFilters (ctx : Context) :
    List Entity → List (String × Condition) → Program (List (String × Condition))
  | [], filters => pure filters
  | e :: rest, filters => do
    let links ← Program.linksOf e.id
    let filters ← fieldFilters ctx links e.fields filters
    entityFilters ctx rest filters

/-- The filters of the formula fields of some objects, as far as they hold placeholders. -/
def formulaFilters (s : Session) (entities : List Entity) (caller : Caller) :
    Program (List (String × Condition)) := do
  let catalog ← Program.catalog
  entityFilters ⟨s, catalog, caller, .everything⟩ entities []

end CatalogQuery.Reduce
