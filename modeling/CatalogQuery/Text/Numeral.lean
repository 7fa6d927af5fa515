import CatalogQuery.Text.Blank

/-!
# Written numbers

Which texts are numbers: decimals with an optional point and exponent, and the words for infinity
and for no number; and the whole numbers of 64 bits.
-/

namespace CatalogQuery.Text.Numeral

def dropSign : List Char → List Char
  | '+' :: rest => rest
  | '-' :: rest => rest
  | s => s

/-- Nothing, or an exponent of at least one digit. -/
def isExponent : List Char → Bool
  | [] => true
  | c :: rest =>
    (c == 'e' || c == 'E') && !(dropSign rest).isEmpty && (dropSign rest).all Char.isDigit

/-- Digits with at most one point among, before or after them, and an exponent. -/
def isUnsigned (s : List Char) : Bool :=
  let whole := s.takeWhile Char.isDigit
  match s.dropWhile Char.isDigit with
  | '.' :: rest =>
    let part := rest.takeWhile Char.isDigit
    !(whole.isEmpty && part.isEmpty) && isExponent (rest.dropWhile Char.isDigit)
  | rest => !whole.isEmpty && isExponent rest

def isSpecial (s : List Char) : Bool :=
  let word := s.map Char.toLower
  word == "inf".toList || word == "infinity".toList || word == "nan".toList

/-- Whether the text, less the blanks around it, is a number. -/
def isNumber (s : String) : Bool :=
  let s := dropSign (trim s.toList)
  isUnsigned s || isSpecial s

/-- The whole number that a text of digits after an optional sign stands for. -/
def wholeNumber? (s : String) : Option Int :=
  let (negative, ds) := match s.toList with
    | '-' :: rest => (true, rest)
    | '+' :: rest => (false, rest)
    | ds => (false, ds)
  if ds.isEmpty || !ds.all Char.isDigit then none
  else
    let n := ds.foldl (fun n c => n * 10 + (c.toNat - '0'.toNat)) 0
    let v : Int := if negative then -(n : Int) else n
    -- A number that 64 bits cannot hold is none.
    if -9223372036854775808 ≤ v && v < 9223372036854775808 then some v else none

end CatalogQuery.Text.Numeral
