import PlanFlow.Number.Binary64

/-!
# The shortest decimal of a binary64 number

Of the decimals that read back as a number, the text shows one with the fewest digits, and of those
the nearest; an exact tie goes to the even digit.  The search tests, for one digit, two digits and
so on, the two neighbours of the number on the grid of decimals with that many digits.  A decimal
reads back exactly if it lies between the midpoints to the neighbouring binary64 numbers, where a
midpoint itself reads back if the mantissa is even.

The number is written positionally from `1e-5` up to below `1e16`, always with a point, and with an
explicitly signed exponent otherwise.
-/

namespace PlanFlow
namespace Binary64

/-- A positive decimal, `digits * 10 ^ exponent`. -/
structure Decimal where
  digits : Nat
  exponent : Int
  deriving DecidableEq

namespace Decimal

/-- The decimal as a ratio of natural numbers. -/
def ratio (d : Decimal) : Nat × Nat :=
  if d.exponent < 0 then (d.digits, Nat.pow 10 d.exponent.natAbs)
  else (d.digits * Nat.pow 10 d.exponent.natAbs, 1)

/-- The decimal without trailing zeros among its digits, with `fuel` bounding their number. -/
def trimmed : Nat → Decimal → Decimal
  | 0, d => d
  | fuel + 1, d =>
    if d.digits ≠ 0 ∧ d.digits % 10 = 0 then trimmed fuel ⟨d.digits / 10, d.exponent + 1⟩ else d

end Decimal

/-- Whether the first ratio is below the second, or equal to it where `closed` allows that. -/
def below (closed : Bool) (a b : Nat × Nat) : Bool :=
  if closed then decide (a.1 * b.2 ≤ b.1 * a.2) else decide (a.1 * b.2 < b.1 * a.2)

/-- The midpoint between the magnitude and its lower neighbour. -/
def lowerMidpoint (x : Binary64) : Nat × Nat :=
  let (n, d) := x.ratio
  if x.mantissa = Nat.pow 2 52 ∧ minExponent < x.exponent then
    (n * (Nat.pow 2 54 - 1), d * Nat.pow 2 54)
  else (n * (2 * x.mantissa - 1), d * (2 * x.mantissa))

/-- The midpoint between the magnitude and its upper neighbour. -/
def upperMidpoint (x : Binary64) : Nat × Nat :=
  let (n, d) := x.ratio
  (n * (2 * x.mantissa + 1), d * (2 * x.mantissa))

/-- Whether a positive decimal reads back as the magnitude of `x`. -/
def readsBack (x : Binary64) (d : Decimal) : Bool :=
  let closed := x.mantissa % 2 == 0
  below closed x.lowerMidpoint d.ratio && below closed d.ratio x.upperMidpoint

/-- The exponent of ten of the leading decimal digit of a positive magnitude. -/
def leadingExponent (x : Binary64) : Int :=
  let (n, d) := x.ratio
  let guess : Int := ((Nat.log2 n : Int) - (Nat.log2 d : Int)) * 30103 / 100000 - 2
  let reached (e : Int) : Bool := below true (Decimal.ratio ⟨1, e⟩) (n, d)
  if reached (guess + 4) then guess + 4
  else if reached (guess + 3) then guess + 3
  else if reached (guess + 2) then guess + 2
  else if reached (guess + 1) then guess + 1
  else guess

/-- The better of the two neighbours on the grid of multiples of `10 ^ e` that reads back. -/
def onGrid (x : Binary64) (e : Int) : Option Decimal :=
  let (n, d) := x.ratio
  let (n, d) :=
    if e < 0 then (n * Nat.pow 10 e.natAbs, d) else (n, d * Nat.pow 10 e.natAbs)
  let low : Decimal := ⟨n / d, e⟩
  let high : Decimal := ⟨n / d + 1, e⟩
  let twice := 2 * (n % d)
  let preferHigh := decide (d < twice) || (twice == d && n / d % 2 == 1)
  match low.digits != 0 && readsBack x low, readsBack x high with
  | true, true => some (if preferHigh then high else low)
  | true, false => some low
  | false, true => some high
  | false, false => none

/-- The shortest decimal that reads back as the magnitude of `x`, a positive number. -/
def shortest (x : Binary64) : Decimal :=
  let lead := x.leadingExponent
  let found := (List.range 17).findSome? fun (n : Nat) => x.onGrid (lead - (n : Int))
  (found.getD ⟨x.mantissa, x.exponent⟩).trimmed 20

/-- The text of a positive decimal. -/
def Decimal.text (d : Decimal) : String :=
  let digits := toString d.digits
  let count : Int := digits.length
  let lead := d.exponent + count - 1
  if 0 ≤ d.exponent ∧ lead < 16 then
    digits ++ String.ofList (List.replicate d.exponent.natAbs '0') ++ ".0"
  else if 0 ≤ lead ∧ lead < 16 then
    let whole := (lead + 1).natAbs
    String.ofList (digits.toList.take whole) ++ "." ++ String.ofList (digits.toList.drop whole)
  else if -5 ≤ lead ∧ lead < 0 then
    "0." ++ String.ofList (List.replicate (lead.natAbs - 1) '0') ++ digits
  else
    let fraction := digits.toList.drop 1
    String.ofList (digits.toList.take 1) ++
      (if fraction.isEmpty then "" else "." ++ String.ofList fraction) ++
      "e" ++ (if lead < 0 then "-" else "+") ++ toString lead.natAbs

/-- The text of a number. -/
def text (x : Binary64) : String :=
  (if x.negative then "-" else "") ++ (if x.isZero then "0.0" else x.shortest.text)

end Binary64
end PlanFlow
