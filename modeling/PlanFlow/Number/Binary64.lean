/-!
# Binary64 numbers

A finite binary64 number is a sign, a 53-bit mantissa and an exponent of two.  Every operation here
computes the exact rational result and rounds it once, to the nearest number and to the even
mantissa on a tie, so the results are those of the binary64 arithmetic of any machine.  Results
beyond the largest finite number are `none`: the format knows infinities and the program does not.
-/

namespace PlanFlow

/-- The finite number `mantissa * 2 ^ exponent`, negated if `negative`.  In its canonical form the
mantissa is below `2 ^ 53`, the exponent is at least `-1074`, and the mantissa is at least `2 ^ 52`
unless the exponent is `-1074`. -/
structure Binary64 where
  negative : Bool
  mantissa : Nat
  exponent : Int
  deriving DecidableEq, Inhabited

namespace Binary64

/-- The smallest exponent of two, that of the subnormal numbers. -/
def minExponent : Int := -1074

/-- The largest exponent of two of a canonical number. -/
def maxExponent : Int := 971

/-- The zero of a sign. -/
def zero (negative : Bool) : Binary64 := ⟨negative, 0, minExponent⟩

/-- The quotient `num / den` rounded to the nearest integer, a half going to the even one. -/
def roundDiv (num den : Nat) : Nat :=
  let quotient := num / den
  let twice := 2 * (num % den)
  if twice < den then quotient
  else if den < twice then quotient + 1
  else if quotient % 2 = 0 then quotient
  else quotient + 1

/-- The ratio `num / den` divided by `2 ^ e`, again as a ratio. -/
def unscale (num den : Nat) (e : Int) : Nat × Nat :=
  if e < 0 then (num * Nat.pow 2 e.natAbs, den) else (num, den * Nat.pow 2 e.natAbs)

/-- The exponent at which the mantissa of `num / den` has 53 bits, or the smallest one. -/
def exponentFor (num den : Nat) : Int :=
  let guess : Int := (Nat.log2 num : Int) - (Nat.log2 den : Int) - 53
  let (n, d) := unscale num den guess
  max minExponent (if n / d < Nat.pow 2 53 then guess else guess + 1)

/-- The number nearest to `num / den`, or `none` if that is beyond the largest finite number. -/
def ofRatio (negative : Bool) (num den : Nat) : Option Binary64 :=
  if num = 0 then some (zero negative)
  else
    let e := exponentFor num den
    let (n, d) := unscale num den e
    let m := roundDiv n d
    let (m, e) := if m = Nat.pow 2 53 then (Nat.pow 2 52, e + 1) else (m, e)
    if maxExponent < e then none else some ⟨negative, m, e⟩

/-- The number nearest to a natural number of at most 64 bits. -/
def ofNat (n : Nat) : Binary64 := (ofRatio false n 1).getD (zero false)

/-- The number nearest to an integer of at most 64 bits. -/
def ofInt (n : Int) : Binary64 := (ofRatio (n < 0) n.natAbs 1).getD (zero false)

/-- The magnitude as a ratio of natural numbers. -/
def ratio (x : Binary64) : Nat × Nat :=
  if x.exponent < 0 then (x.mantissa, Nat.pow 2 x.exponent.natAbs)
  else (x.mantissa * Nat.pow 2 x.exponent.natAbs, 1)

/-- The number with the other sign. -/
def neg (x : Binary64) : Binary64 := { x with negative := !x.negative }

/-- Whether the number is a zero, of either sign. -/
def isZero (x : Binary64) : Bool := x.mantissa == 0

/-- The product, rounded once. -/
def mul (x y : Binary64) : Option Binary64 :=
  ofRatio (x.negative != y.negative) (x.ratio.1 * y.ratio.1) (x.ratio.2 * y.ratio.2)

/-- The quotient, rounded once.  The divisor must not be zero. -/
def div (x y : Binary64) : Option Binary64 :=
  ofRatio (x.negative != y.negative) (x.ratio.1 * y.ratio.2) (x.ratio.2 * y.ratio.1)

/-- The number nearest to `10 ^ k`, for `k` up to 308. -/
def powTen (k : Nat) : Binary64 := (ofRatio false (Nat.pow 10 k) 1).getD (zero false)

/-- The signed numerator of the exact value over the denominator `ratio.2`. -/
def signed (x : Binary64) : Int :=
  if x.negative then -(x.ratio.1 : Int) else (x.ratio.1 : Int)

/-- Whether two numbers have the same value; the two zeros have. -/
def sameValue (x y : Binary64) : Bool :=
  x.signed * (y.ratio.2 : Int) == y.signed * (x.ratio.2 : Int)

/-- Whether the value of `x` is at most that of `y`. -/
def atMost (x y : Binary64) : Bool :=
  decide (x.signed * (y.ratio.2 : Int) ≤ y.signed * (x.ratio.2 : Int))

/-- The nearest integer as a binary64 number, a half going away from zero. -/
def roundAway (x : Binary64) : Binary64 :=
  let (n, d) := x.ratio
  (ofRatio x.negative ((2 * n + d) / (2 * d)) 1).getD (zero false)

end Binary64
end PlanFlow
