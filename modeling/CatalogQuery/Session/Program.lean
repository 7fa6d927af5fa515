import CatalogQuery.Session.Traced
import CatalogQuery.Sql.Statement

/-!
# Requests to the outside

What serving a caller needs from outside, one request at a time: the catalog, the links derived from
it, the database, the lock of a record. A `Program` says which request comes first and how to go on
with each answer. It runs nothing by itself, so whatever answers it can be reasoned about.
-/

namespace CatalogQuery

/-- Where a statement goes. -/
inductive Channel where
  | tenant
  | transaction
deriving DecidableEq, Repr

inductive Request where
  /-- The catalog as it is now. -/
  | catalog
  /-- The links as they are known now. -/
  | links
  /-- Makes the links of an object known. -/
  | consult (entity : String)
  | notice (n : Notice)
  | fetch (channel : Channel) (statement : Sql.Select)
  | execute (channel : Channel) (statement : Sql.Write)
  /-- Waits until no other request writes the record, and keeps others from it until the end. -/
  | lock (entity key : String)
  /-- A key that no record has. -/
  | newKey

/-- The type of the answer to a request. The answer to a write is the number that the database gave to
a new row. -/
def Request.Answer : Request → Type
  | catalog => Catalog
  | links => Links
  | consult _ => Unit
  | notice _ => Unit
  | fetch _ _ => Except DatabaseFailure (List Row)
  | execute _ _ => Except DatabaseFailure Nat
  | lock _ _ => Unit
  | newKey => String

inductive Program (α : Type) where
  | done (a : α)
  | failed (e : QueryError)
  | ask (r : Request) (next : r.Answer → Program α)

namespace Program

def bind {α β : Type} : Program α → (α → Program β) → Program β
  | done a, f => f a
  | failed e, _ => failed e
  | ask r next, f => ask r fun answer => bind (next answer) f

instance : Monad Program where
  pure := done
  bind := bind

theorem bind_done {α : Type} (p : Program α) : bind p done = p := by
  induction p with
  | done a => rfl
  | failed e => rfl
  | ask r next ih => simp only [bind, ih]

theorem bind_assoc {α β γ : Type} (p : Program α) (f : α → Program β) (g : β → Program γ) :
    bind (bind p f) g = bind p fun a => bind (f a) g := by
  induction p with
  | done a => rfl
  | failed e => rfl
  | ask r next ih => simp only [bind, ih]

def catalog : Program Catalog := ask .catalog done

def notice (n : Notice) : Program Unit := ask (.notice n) done

def lock (entity key : String) : Program Unit := ask (.lock entity key) done

def newKey : Program String := ask .newKey done

def ofResult {α : Type} : Result α → Program α
  | .ok a => done a
  | .error e => failed e

/-- Passes on what led to a result. -/
def replay : List Event → Program Unit
  | [] => done ()
  | .consulted entity :: rest => ask (.consult entity) fun _ => replay rest
  | .noticed n :: rest => ask (.notice n) fun _ => replay rest

/-- A result that depends on the links as they are known now. -/
def withLinks {α : Type} (f : Links → Traced α) : Program α :=
  ask .links fun links => bind (replay (f links).events) fun _ => ofResult (f links).result

/-- The links of an object. -/
def linksOf (entity : String) : Program LinkMap := withLinks fun links => .consult links entity

/-- Reads rows. A read that a transient failure cut off is sent again, at most `retries` times. -/
def fetch (channel : Channel) (statement : Sql.Select) : (retries : Nat) → Program (List Row)
  | 0 => ask (.fetch channel statement) fun
    | .ok rows => done rows
    | .error failure => failed (.sql statement.sql.toText failure)
  | retries + 1 => ask (.fetch channel statement) fun
    | .ok rows => done rows
    | .error failure =>
      -- Only what may go away by itself is worth another try.
      if failure.isTransient then fetch channel statement retries
      else failed (.sql statement.sql.toText failure)

/-- Writes, once. -/
def execute (channel : Channel) (statement : Sql.Write) : Program Nat :=
  ask (.execute channel statement) fun
    | .ok n => done n
    | .error failure => failed (.sql statement.sql.toText failure)

end Program

end CatalogQuery
