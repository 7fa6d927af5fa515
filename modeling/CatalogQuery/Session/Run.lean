import CatalogQuery.Session.Locks
import CatalogQuery.Session.Program
import CatalogQuery.Session.Tenant

/-!
# Running programs

A program runs against a tenant, the locks of its records and whatever answers statements. Requests
are answered one after another; a program that would have to wait for a lock is given up, and the
locks that a program took are let go when it ends.
-/

namespace CatalogQuery

/-- What answers the requests that leave the tenant, with a state of its own. -/
structure Backend (σ : Type) where
  fetch : Channel → Sql.Select → σ → Except DatabaseFailure (List Row) × σ
  execute : Channel → Sql.Write → σ → Except DatabaseFailure Nat × σ
  notice : Notice → σ → σ
  newKey : σ → String × σ

/-- All that programs of a tenant act on. -/
structure Site (σ : Type) where
  tenant : Tenant
  locks : RecordLocks
  outside : σ

inductive Outcome (α : Type) where
  | done (a : α)
  | failed (e : QueryError)
  /-- Another request holds the lock of the record. -/
  | blocked

namespace Site

variable {σ : Type}

def consult (b : Backend σ) (entity : String) (s : Site σ) : Site σ :=
  let (tenant, notices) := s.tenant.consult entity
  { s with
    tenant
    outside := notices.foldl (fun outside n => b.notice n outside) s.outside }

def release (s : Site σ) (taken : List RecordMutex) : Site σ :=
  { s with locks := taken.foldl RecordLocks.release s.locks }

end Site

namespace Program

variable {σ α : Type}

/-- Runs a program that has taken some locks so far. -/
def runHolding (b : Backend σ) : Program α → List RecordMutex → Site σ → Outcome α × Site σ
  | done a, taken, s => (.done a, s.release taken)
  | failed e, taken, s => (.failed e, s.release taken)
  | ask .catalog next, taken, s => runHolding b (next s.tenant.catalog) taken s
  | ask .links next, taken, s => runHolding b (next s.tenant.links) taken s
  | ask (.consult entity) next, taken, s => runHolding b (next ()) taken (s.consult b entity)
  | ask (.notice n) next, taken, s =>
    runHolding b (next ()) taken { s with outside := b.notice n s.outside }
  | ask (.fetch channel statement) next, taken, s =>
    let (answer, outside) := b.fetch channel statement s.outside
    runHolding b (next answer) taken { s with outside }
  | ask (.execute channel statement) next, taken, s =>
    let (answer, outside) := b.execute channel statement s.outside
    runHolding b (next answer) taken { s with outside }
  | ask (.lock entity key) next, taken, s =>
    match s.locks.acquire entity key with
    | (locks, some m) => runHolding b (next ()) (m :: taken) { s with locks }
    | (locks, none) => (.blocked, { s with locks }.release taken)
  | ask .newKey next, taken, s =>
    let (key, outside) := b.newKey s.outside
    runHolding b (next key) taken { s with outside }

def run (b : Backend σ) (p : Program α) (s : Site σ) : Outcome α × Site σ := runHolding b p [] s

end Program

end CatalogQuery
