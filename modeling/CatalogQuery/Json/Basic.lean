import CatalogQuery.Number.Binary64

/-!
# JSON values

Values as records, conditions and metadata hold them. Whole numbers and floating point numbers are
different values, and the members of an object are ordered by their keys.
-/

namespace CatalogQuery

/-- A whole number of at most 64 bits, or a floating point number. -/
inductive Number where
  | int (n : Int)
  | float (x : Binary64)
deriving DecidableEq, Repr

/-- Whether two numbers are equal; the two zeros are. -/
def Number.same : Number → Number → Bool
  | int a, int b => a == b
  | float x, float y => x == y || (x.isZero && y.isZero)
  | _, _ => false

inductive Json where
  | null
  | bool (b : Bool)
  | num (n : Number)
  | str (s : String)
  | arr (items : List Json)
  | obj (members : List (String × Json))

namespace Json

/-- Members of an object; a record of a table is one too. -/
abbrev Members := List (String × Json)

def find (key : String) : Members → Option Json
  | [] => none
  | (k, v) :: rest => if k = key then some v else find key rest

def has (key : String) (members : Members) : Bool := (find key members).isSome

/-- Sets a member, at the place that its key has in the order. -/
def insert (key : String) (value : Json) : Members → Members
  | [] => [(key, value)]
  | (k, v) :: rest =>
    if k = key then (key, value) :: rest
    else if key < k then (key, value) :: (k, v) :: rest
    else (k, v) :: insert key value rest

def erase (key : String) (members : Members) : Members := members.filter (·.1 ≠ key)

theorem find_insert_self (key : String) (value : Json) (members : Members) :
    find key (insert key value members) = some value := by
  induction members with
  | nil => simp [insert, find]
  | cons m rest ih =>
    obtain ⟨k, v⟩ := m
    unfold insert
    split
    · simp [find]
    · rename_i h
      split <;> simp [find, h, ih]

theorem find_insert_of_ne {key other : String} (h : other ≠ key) (value : Json)
    (members : Members) : find other (insert key value members) = find other members := by
  induction members with
  | nil => simp [insert, find, h.symm]
  | cons m rest ih =>
    obtain ⟨k, v⟩ := m
    unfold insert
    split
    · rename_i hk
      simp [find, h.symm, hk]
    · rename_i hk
      split
      · simp [find, h.symm]
      · simp [find, ih]

/-- The members in key order; a later one replaces an earlier one of the same key. -/
def sorted (members : Members) : Members := members.foldl (fun ms m => insert m.1 m.2 ms) []

def object (members : Members) : Json := obj (sorted members)

/-- A member that is left out when it has no value. -/
def optional (key : String) : Option Json → Members
  | none => []
  | some v => [(key, v)]

def ofInt (n : Int) : Json := num (.int n)

def ofNat (n : Nat) : Json := num (.int n)

def ofOption : Option String → Json
  | none => null
  | some s => str s

def strings (items : List String) : Json := arr (items.map str)

def isNull : Json → Bool
  | null => true
  | _ => false

def isArr : Json → Bool
  | arr _ => true
  | _ => false

def isStr : Json → Bool
  | str _ => true
  | _ => false

def text? : Json → Option String
  | str s => some s
  | _ => none

def bool? : Json → Option Bool
  | bool b => some b
  | _ => none

def items? : Json → Option (List Json)
  | arr items => some items
  | _ => none

def members? : Json → Option Members
  | obj members => some members
  | _ => none

/-- A member of an object. -/
def get? (v : Json) (key : String) : Option Json := v.members?.bind (find key)

/-- Whether a whole number fits in 64 bits with a sign. -/
def inRange (n : Int) : Bool := -9223372036854775808 ≤ n && n < 9223372036854775808

/-- A whole number of 64 bits with a sign. -/
def int? : Json → Option Int
  | num (.int n) => if inRange n then some n else none
  | _ => none

mutual
/-- How deeply arrays and objects are nested in a value. -/
def depth : Json → Nat
  | arr items => depthItems items + 1
  | obj members => depthMembers members + 1
  | _ => 0
def depthItems : List Json → Nat
  | [] => 0
  | v :: rest => max v.depth (depthItems rest)
def depthMembers : List (String × Json) → Nat
  | [] => 0
  | (_, v) :: rest => max v.depth (depthMembers rest)
end

mutual
/-- Whether two values are equal. -/
def same : Json → Json → Bool
  | null, null => true
  | bool a, bool b => a == b
  | num a, num b => a.same b
  | str a, str b => a == b
  | arr as, arr bs => sameItems as bs
  | obj as, obj bs => sameMembers as bs
  | _, _ => false
def sameItems : List Json → List Json → Bool
  | [], [] => true
  | a :: as, b :: bs => a.same b && sameItems as bs
  | _, _ => false
def sameMembers : List (String × Json) → List (String × Json) → Bool
  | [], [] => true
  | (k, a) :: as, (l, b) :: bs => k == l && a.same b && sameMembers as bs
  | _, _ => false
end

/-- Whether a value counts as no value: null or the empty text. -/
def isBlank : Json → Bool
  | null => true
  | str s => s.isEmpty
  | _ => false

/-- Whether a flag column or constant is set: true, a whole number other than zero, or the word
for either. -/
def isTruthy : Json → Bool
  | bool b => b
  | num (.int n) => inRange n && n != 0
  | str s =>
    let word := s.toList.map Char.toLower
    word == ['1'] || word == "true".toList
  | _ => false

end Json

/-- A row of a table, by column. -/
abbrev Row := Json.Members

end CatalogQuery
