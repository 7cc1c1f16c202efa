import PlanFlow.Number.Binary64

/-!
# Numbers and their literals

A number of a document is an integer of at most 64 bits or a binary64 number.  The literal of an
integer that fits stays an integer; a fraction, an exponent, a larger integer and `-0` make it
binary64.

The binary64 value is not the one nearest to the literal.  The digits go into a 64-bit significand
as long as they fit; integer digits after that only raise the exponent of ten, and fraction digits
after that are dropped.  The significand is rounded to binary64 and then multiplied or divided by a
power of ten, each once.  A result that is not finite is out of range.
-/

namespace PlanFlow

/-- A number: an integer of at most 64 bits, or a binary64 number. -/
inductive Number where
  | int (n : Int)
  | float (x : Binary64)
  deriving DecidableEq, Inhabited

namespace Number

/-- The number as binary64; an integer is rounded. -/
def toBinary64 : Number → Binary64
  | .int n => .ofInt n
  | .float x => x

/-- Whether two numbers count as the same one: an integer is never the same as a binary64 number,
and the two binary64 zeros are the same. -/
def same : Number → Number → Bool
  | .int m, .int n => m == n
  | .float x, .float y => x.sameValue y
  | _, _ => false

end Number

/-- A number literal: its sign, its digits before and after the point, and its exponent of ten. -/
structure NumberLiteral where
  negative : Bool
  whole : List Nat
  fraction : Option (List Nat)
  exponent : Option (Bool × List Nat)

namespace NumberLiteral

/-- The largest 64-bit significand. -/
def maxSignificand : Nat := Nat.pow 2 64 - 1

/-- The largest 32-bit exponent. -/
def maxExponent : Nat := Nat.pow 2 31 - 1

/-- Digits before the point: the significand grows while it fits, after that the exponent does. -/
def takeWhole : Nat → Nat → Bool → List Nat → Nat × Nat
  | significand, exponent, _, [] => (significand, exponent)
  | significand, exponent, full, digit :: rest =>
    if full || maxSignificand < significand * 10 + digit then
      takeWhole significand (exponent + 1) true rest
    else takeWhole (significand * 10 + digit) exponent false rest

/-- Digits after the point: each that still fits lowers the exponent, the others are dropped. -/
def takeFraction : Nat → Int → List Nat → Nat × Int
  | significand, exponent, [] => (significand, exponent)
  | significand, exponent, digit :: rest =>
    if maxSignificand < significand * 10 + digit then (significand, exponent)
    else takeFraction (significand * 10 + digit) (exponent - 1) rest

/-- The natural number of a list of decimal digits. -/
def digitsValue (digits : List Nat) : Nat := digits.foldl (fun n d => n * 10 + d) 0

/-- The largest power of ten that is a finite number has this exponent. -/
def maxPower : Nat := 308

/-- Repeated division by the largest power of ten, which may stop at zero. -/
def divLargest : Nat → Binary64 → Option Binary64
  | 0, x => some x
  | times + 1, x => if x.isZero then some x else (x.div (.powTen maxPower)).bind (divLargest times)

/-- Division by `10 ^ k` for a positive `k`, in divisions by at most the largest power, each of
which rounds. -/
def divPowTen (x : Binary64) (k : Nat) : Option Binary64 :=
  let times := (k - 1) / maxPower
  (divLargest times x).bind fun y => y.div (.powTen (k - times * maxPower))

/-- The value `significand * 10 ^ exponent`, or `none` if it is out of range. -/
def scaled (significand : Nat) (exponent : Int) : Option Binary64 :=
  let x := Binary64.ofNat significand
  if exponent < 0 then divPowTen x exponent.natAbs
  else if exponent ≤ maxPower then x.mul (.powTen exponent.natAbs)
  else if x.isZero then some x
  else none

/-- An exponent kept within 32 bits. -/
def clamp (e : Int) : Int := max (-(Int.pow 2 31)) (min e (Int.pow 2 31 - 1))

/-- The binary64 magnitude of the literal, or `none` if it is out of range. -/
def magnitude (l : NumberLiteral) : Option Binary64 :=
  let (significand, raised) := takeWhole 0 0 false l.whole
  let (significand, exponent) := takeFraction significand raised (l.fraction.getD [])
  match l.exponent with
  | none => scaled significand exponent
  | some (negative, digits) =>
    let e := digitsValue digits
    if maxExponent < e then
      if significand = 0 ∨ negative then some (.zero false) else none
    else scaled significand (clamp (if negative then exponent - e else exponent + e))

/-- The number of a literal, or `none` if it is out of range. -/
def value (l : NumberLiteral) : Option Number :=
  let n := digitsValue l.whole
  let integral := l.fraction.isNone && l.exponent.isNone
  if integral && !l.negative && decide (n ≤ maxSignificand) then some (.int n)
  else if integral && l.negative && decide (0 < n ∧ n ≤ Nat.pow 2 63) then some (.int (-n))
  else l.magnitude.map fun x => .float (if l.negative then x.neg else x)

end NumberLiteral
end PlanFlow
