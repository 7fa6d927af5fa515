import CatalogQuery.Json.Basic
import CatalogQuery.Number.Shortest

/-!
# JSON text

The compact text of a value: no blanks, members in key order, only the characters escaped that
have to be.
-/

namespace CatalogQuery

/-- Numbers are positional from 1e-5 up to 1e16, and an exponent carries its sign. -/
def Number.layout : Layout := ⟨-5, 15, true⟩

def intText (n : Int) : List Char :=
  if n < 0 then '-' :: Nat.toDigits 10 n.natAbs else Nat.toDigits 10 n.natAbs

def Number.text : Number → List Char
  | int n => intText n
  | float x => x.text layout

namespace Json

def hexDigit (n : Nat) : Char := Nat.digitChar n

/-- A character inside a quoted text. -/
def escape (c : Char) : List Char :=
  if c = '"' then ['\\', '"']
  else if c = '\\' then ['\\', '\\']
  else if c = '\n' then ['\\', 'n']
  else if c = '\r' then ['\\', 'r']
  else if c = '\t' then ['\\', 't']
  else if c.toNat = 8 then ['\\', 'b']
  else if c.toNat = 12 then ['\\', 'f']
  else if c.toNat < 0x20 then
    ['\\', 'u', '0', '0', hexDigit (c.toNat / 16), hexDigit (c.toNat % 16)]
  else [c]

def quoted (s : String) : List Char := '"' :: s.toList.flatMap escape ++ ['"']

mutual
/-- Writes a value in front of the text that follows it. -/
def write : Json → List Char → List Char
  | null, rest => 'n' :: 'u' :: 'l' :: 'l' :: rest
  | bool true, rest => 't' :: 'r' :: 'u' :: 'e' :: rest
  | bool false, rest => 'f' :: 'a' :: 'l' :: 's' :: 'e' :: rest
  | num n, rest => n.text ++ rest
  | str s, rest => quoted s ++ rest
  | arr [], rest => '[' :: ']' :: rest
  | arr (v :: items), rest => '[' :: write v (writeItems items (']' :: rest))
  | obj [], rest => '{' :: '}' :: rest
  | obj ((k, v) :: members), rest =>
    '{' :: (quoted k ++ ':' :: write v (writeMembers members ('}' :: rest)))
def writeItems : List Json → List Char → List Char
  | [], rest => rest
  | v :: items, rest => ',' :: write v (writeItems items rest)
def writeMembers : List (String × Json) → List Char → List Char
  | [], rest => rest
  | (k, v) :: members, rest => ',' :: (quoted k ++ ':' :: write v (writeMembers members rest))
end

/-- The text of a value. -/
def text (v : Json) : String := String.ofList (v.write [])

/-- The text that a value is compared by: the text itself, nothing for null, JSON for the rest. -/
def plain : Json → String
  | str s => s
  | null => ""
  | v => v.text

end Json

end CatalogQuery
