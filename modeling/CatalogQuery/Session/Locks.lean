/-!
# Locks of records

One mutex per record keeps writes to it apart. A mutex is made when a record is first asked for,
and its entry lasts as long as somebody holds it or waits for it. Entries that nobody uses any more
are dropped when the next caller comes.
-/

namespace CatalogQuery

/-- A mutex and the record that it stands for. -/
structure RecordMutex where
  record : String
  /-- Tells mutexes of one record that were made at different times apart. -/
  number : Nat
deriving DecidableEq, Repr

structure RecordLocks where
  /-- The mutexes by which callers find each other. -/
  entries : List RecordMutex
  /-- Mutexes that are held, once for each holder. -/
  held : List RecordMutex
  /-- Mutexes that are waited for, once for each waiter. -/
  awaited : List RecordMutex
  /-- The number of the next mutex. -/
  next : Nat
deriving Repr

namespace RecordLocks

def empty : RecordLocks := ⟨[], [], [], 0⟩

/-- What a record is known by. -/
def recordName (entity key : String) : String := entity ++ ":" ++ key

/-- Whether anybody holds a mutex or waits for it. -/
def inUse (l : RecordLocks) (m : RecordMutex) : Bool := l.held.contains m || l.awaited.contains m

/-- Drops the entries that nobody uses. -/
def tidy (l : RecordLocks) : RecordLocks := { l with entries := l.entries.filter l.inUse }

def entry? (l : RecordLocks) (record : String) : Option RecordMutex :=
  l.entries.find? (·.record == record)

/-- The mutex of a record, made when there is none. -/
def mutexOf (l : RecordLocks) (record : String) : RecordLocks × RecordMutex :=
  match l.entry? record with
  | some m => (l, m)
  | none =>
    let m := ⟨record, l.next⟩
    ({ l with entries := m :: l.entries, next := l.next + 1 }, m)

/-- A caller comes, and waits from now on for the mutex that it gets. -/
def enter (l : RecordLocks) (entity key : String) : RecordLocks × RecordMutex :=
  -- The caller is a waiter before anyone else can tidy up.
  let (l, m) := l.tidy.mutexOf (recordName entity key)
  ({ l with awaited := m :: l.awaited }, m)

/-- A waiter gets a mutex that nobody holds. -/
def grant (l : RecordLocks) (m : RecordMutex) : Option RecordLocks :=
  if l.held.contains m then none
  else some { l with held := m :: l.held, awaited := l.awaited.erase m }

/-- A waiter gives up. -/
def abandon (l : RecordLocks) (m : RecordMutex) : RecordLocks :=
  { l with awaited := l.awaited.erase m }

/-- A holder lets go. -/
def release (l : RecordLocks) (m : RecordMutex) : RecordLocks :=
  { l with held := l.held.erase m }

/-- Takes the lock of a record, or gives up at once when somebody else holds it. -/
def acquire (l : RecordLocks) (entity key : String) : RecordLocks × Option RecordMutex :=
  let (l, m) := l.enter entity key
  match l.grant m with
  | some l => (l, some m)
  | none => (l.abandon m, none)

end RecordLocks

end CatalogQuery
