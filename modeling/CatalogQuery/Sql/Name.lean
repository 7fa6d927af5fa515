import CatalogQuery.Text.Blank

/-!
# Names of tables and columns

Which names the database can hold, and how a name is cut to size.
-/

namespace CatalogQuery.Sql

/-- What is wrong with a name. -/
inductive NameFault where
  | missing
  | badCharacters (name : String)
  | tooLong (name : String) (limit : Nat)
deriving DecidableEq, Repr

def NameFault.message : NameFault → String
  | missing => "Identifier cannot be empty"
  | badCharacters name =>
    "Identifier '" ++ name ++ "' is invalid. Must start with a letter or underscore and contain " ++
      "only letters, numbers, and underscores."
  | tooLong name limit =>
    "Identifier '" ++ name ++ "' exceeds the " ++ String.ofList (Nat.toDigits 10 limit) ++
      " character limit"

def nameFault (name : String) (limit : Nat) : Option NameFault :=
  if name.isEmpty then some .missing
  else if !Text.isName name.toList then some (.badCharacters name)
  else if name.toList.length > limit then some (.tooLong name limit)
  else none

/-- The database can hold the plain names that are not longer than the limit. -/
theorem nameFault_eq_none_iff {name : String} {limit : Nat} : nameFault name limit = none ↔
    Text.isName name.toList = true ∧ name.toList.length ≤ limit := by
  unfold nameFault
  by_cases hempty : name.isEmpty = true
  · have hname : Text.isName name.toList = false := by
      rw [String.isEmpty_iff.1 hempty]
      rfl
    simp [hempty, hname]
  · by_cases hname : Text.isName name.toList = true
    · simp [hempty, hname]
    · simp [hempty, hname]

/-- The first characters of a name. -/
def cut (name : String) (limit : Nat) : String := String.ofList (name.toList.take limit)

theorem length_cut (name : String) (limit : Nat) :
    (cut name limit).toList.length = min limit name.toList.length := by
  simp [cut]

end CatalogQuery.Sql
