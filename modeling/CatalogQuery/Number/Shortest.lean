import CatalogQuery.Number.Binary64

/-!
# Shortest decimal text of a floating point number

The text has the fewest digits that read back as the same number and, of those, the digits nearest
to it. Where positional notation ends and how an exponent is written is a `Layout`.
-/

namespace CatalogQuery

/-- How the digits of a number are laid out. -/
structure Layout where
  /-- The smallest exponent of the first digit that is written positionally. -/
  plainFrom : Int
  /-- The largest such exponent. -/
  plainTo : Int
  /-- Whether a positive exponent carries its sign. -/
  plusSign : Bool

namespace Binary64

/-- The decimal digits of a whole number. -/
def digits (n : Nat) : List Char := Nat.toDigits 10 n

/-- The least `j` up to a bound with `den ≤ num · 10 ^ j`. -/
def leadingZeros : Nat → Nat → Nat → Nat
  | 0, _, _ => 0
  | bound + 1, num, den => if den ≤ num then 0 else leadingZeros bound (num * 10) den + 1

/-- The exponent of the first digit of `num / den`. -/
def firstDigit (num den : Nat) : Int :=
  if den ≤ num then ((digits (num / den)).length : Int) - 1
  else -(leadingZeros 400 num den : Int)

/-- The quotients `low ≤ value ≤ high` of a number and the ends of the interval that rounds to it,
over one denominator. -/
def interval (x : Binary64) : (Nat × Nat × Nat) × Nat :=
  let m := x.significand
  -- Below a power of two the numbers lie twice as close.
  let below := if m = Nat.pow 2 52 && x.exponent > minExponent then 1 else 2
  let e := x.exponent - 2
  if 0 ≤ e then
    let s := Nat.pow 2 e.toNat
    (((4 * m - below) * s, 4 * m * s, (4 * m + 2) * s), 1)
  else ((4 * m - below, 4 * m, 4 * m + 2), Nat.pow 2 (-e).toNat)

/-- The multiple of `10 ^ unit` nearest to the value among those that read back as the number. -/
def onGrid (x : Binary64) (unit : Int) : Option Nat :=
  let ((low, value, high), den) := x.interval
  let up := Nat.pow 10 (-unit).toNat
  let d := den * Nat.pow 10 unit.toNat
  let (low, value, high) := (low * up, value * up, high * up)
  -- The ends round to the number itself when its significand is even.
  let closed := x.significand % 2 == 0
  let inside (q : Nat) : Bool :=
    (low < q * d || (closed && low == q * d)) && (q * d < high || (closed && q * d == high))
  let q := value / d
  let nearest := roundDiv value d
  let other := if nearest = q then q + 1 else q
  if inside nearest then some nearest else if inside other then some other else none

/-- The shortest digits, from one to seventeen of them, and the exponent of the first. -/
def shortestFrom (x : Binary64) (first : Int) : Nat → Nat → List Char × Int
  | 0, _ => (['0'], 0)
  | more + 1, count =>
    let unit := first - (count : Int) + 1
    match x.onGrid unit with
    | some q =>
      -- A carry adds a digit, so the first place is counted from the last.
      let ds := digits q
      (trimZeros ds, unit + (ds.length : Int) - 1)
    | none => shortestFrom x first more (count + 1)
where
  trimZeros (ds : List Char) : List Char := (ds.reverse.dropWhile (· == '0')).reverse

def shortest (x : Binary64) : List Char × Int :=
  let ((_, value, _), den) := x.interval
  shortestFrom x (firstDigit value den) 17 1

/-- Digits with the point after the first, and the exponent. -/
def scientific (layout : Layout) (ds : List Char) (exponent : Int) : List Char :=
  let tail := match ds with
    | [] => []
    | [d] => [d]
    | d :: rest => d :: '.' :: rest
  let sign := if exponent < 0 then ['-'] else if layout.plusSign then ['+'] else []
  tail ++ ['e'] ++ sign ++ digits exponent.natAbs

/-- Digits with the point at its place and at least one digit on either side of it. -/
def positional (ds : List Char) (exponent : Int) : List Char :=
  if exponent < 0 then
    '0' :: '.' :: List.replicate (exponent.natAbs - 1) '0' ++ ds
  else
    let n := exponent.toNat + 1
    let whole := ds.take n ++ List.replicate (n - ds.length) '0'
    let part := ds.drop n
    whole ++ '.' :: (if part.isEmpty then ['0'] else part)

/-- The text of a number in a layout. -/
def text (layout : Layout) (x : Binary64) : List Char :=
  let sign := if x.negative then ['-'] else []
  if x.isZero then sign ++ ['0', '.', '0']
  else
    let (ds, exponent) := x.shortest
    sign ++ (if layout.plainFrom ≤ exponent && exponent ≤ layout.plainTo then
      positional ds exponent else scientific layout ds exponent)

end Binary64

end CatalogQuery
