/-!
# Binary floating point numbers of 64 bits

A finite number is held as sign, significand and binary exponent, so that rounding, products and
quotients are exact arithmetic on whole numbers followed by one rounding to nearest, ties to even.
Main statement: rounding a quotient stays within half a unit of it.
-/

namespace CatalogQuery

/-- The finite number `± significand · 2 ^ exponent`. -/
structure Binary64 where
  negative : Bool
  significand : Nat
  exponent : Int
deriving DecidableEq, Repr

namespace Binary64

/-- Exponent of the smallest steps, which the numbers next to zero are multiples of. -/
def minExponent : Int := -1074

def maxExponent : Int := 971

def zero (negative : Bool) : Binary64 := ⟨negative, 0, minExponent⟩

def isZero (x : Binary64) : Bool := x.significand == 0

/-- The whole number nearest to `n / d`, the even one of two. -/
def roundDiv (n d : Nat) : Nat :=
  let q := n / d
  let r := n % d
  if 2 * r > d || (2 * r == d && q % 2 == 1) then q + 1 else q

/-- A rounded quotient is at most half a unit above or below the exact one. -/
theorem roundDiv_bounds (n : Nat) {d : Nat} (hd : 0 < d) :
    2 * n ≤ (2 * roundDiv n d + 1) * d ∧ (2 * roundDiv n d) * d ≤ 2 * n + d := by
  have hn := Nat.div_add_mod n d
  have hr := Nat.mod_lt n hd
  have hc : d * (n / d) = (n / d) * d := Nat.mul_comm _ _
  simp only [roundDiv]
  split
  · rename_i h
    simp only [Bool.or_eq_true, decide_eq_true_eq, Bool.and_eq_true, beq_iff_eq] at h
    have h2 : d ≤ 2 * (n % d) := by omega
    constructor
    · rw [Nat.add_mul, Nat.mul_add, Nat.add_mul, Nat.mul_assoc]; omega
    · rw [Nat.mul_add, Nat.add_mul, Nat.mul_assoc]; omega
  · rename_i h
    simp only [Bool.or_eq_true, decide_eq_true_eq, Bool.and_eq_true, beq_iff_eq, not_or] at h
    have h2 : 2 * (n % d) ≤ d := by omega
    constructor
    · rw [Nat.add_mul, Nat.mul_assoc]; omega
    · rw [Nat.mul_assoc]; omega

/-- `num / den` as a quotient of whole numbers in units of `2 ^ exponent`. -/
def inUnits (num den : Nat) (exponent : Int) : Nat × Nat :=
  if 0 ≤ exponent then (num, den * Nat.pow 2 exponent.toNat)
  else (num * Nat.pow 2 (-exponent).toNat, den)

/-- The exponent at which `num / den` has 53 binary digits, or the smallest one. -/
def exponentOf (num den : Nat) : Int :=
  let near : Int := (Nat.log2 num : Int) - (Nat.log2 den : Int) - 53
  -- The lengths of the two numbers determine the exponent up to one.
  let (n, d) := inUnits num den near
  max minExponent (if Nat.pow 2 53 ≤ n / d then near + 1 else near)

/-- The number nearest to `± num / den`; none when it is too large to be finite. -/
def ofRatio (negative : Bool) (num den : Nat) : Option Binary64 :=
  if num = 0 then some (zero negative)
  else
    let e := exponentOf num den
    let (n, d) := inUnits num den e
    let m := roundDiv n d
    -- Rounding up to a power of two takes one digit too many.
    let (m, e) := if m = Nat.pow 2 53 then (Nat.pow 2 52, e + 1) else (m, e)
    if e ≤ maxExponent then some ⟨negative, m, e⟩ else none

def ofNat (n : Nat) : Option Binary64 := ofRatio false n 1

/-- The rounded product of two numbers without their signs. -/
def mul (x y : Binary64) : Option Binary64 :=
  let e := x.exponent + y.exponent
  let m := x.significand * y.significand
  if 0 ≤ e then ofRatio false (m * Nat.pow 2 e.toNat) 1
  else ofRatio false m (Nat.pow 2 (-e).toNat)

/-- The rounded quotient of two numbers without their signs. -/
def div (x y : Binary64) : Option Binary64 :=
  let e := x.exponent - y.exponent
  if 0 ≤ e then ofRatio false (x.significand * Nat.pow 2 e.toNat) y.significand
  else ofRatio false x.significand (y.significand * Nat.pow 2 (-e).toNat)

/-- The number nearest to a power of ten. -/
def tenPow (n : Nat) : Option Binary64 := ofNat (Nat.pow 10 n)

/-- Scales by `10 ^ exponent` in steps of at most `10 ^ 308`, each of them rounded. -/
def scale : Nat → Binary64 → Int → Option Binary64
  | 0, x, _ => some x
  | steps + 1, x, exponent =>
    if exponent.natAbs ≤ 308 then
      (tenPow exponent.natAbs).bind fun p => if 0 ≤ exponent then mul x p else div x p
    -- Zero stays zero; anything else is far beyond the finite numbers.
    else if x.isZero then some x
    else if 0 ≤ exponent then none
    else ((tenPow 308).bind (div x)).bind fun y => scale steps y (exponent + 308)

/-- The decimal `± significand · 10 ^ exponent`: the significand is rounded, then scaled. -/
def ofDecimal (negative : Bool) (significand : Nat) (exponent : Int) : Option Binary64 :=
  (ofNat significand).bind fun x =>
    (scale (exponent.natAbs / 308 + 1) x exponent).map ({ · with negative })

end Binary64

end CatalogQuery
