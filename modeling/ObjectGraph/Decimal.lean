namespace ObjectGraph

structure Decimal where
  bits : UInt64
deriving DecidableEq, Repr

namespace Decimal

def signBit : Nat := 1 <<< 63

def hiddenBit : Nat := 1 <<< 52

def toFloat (x : Decimal) : Float := Float.ofBits x.bits

def ofFloat (x : Float) : Decimal := ⟨x.toBits⟩

def rank (x : Decimal) : Nat :=
  if x.bits.toNat < signBit then signBit + x.bits.toNat else 2 * signBit - 1 - x.bits.toNat

instance : Ord Decimal := ⟨fun x y => compare x.rank y.rank⟩

def IsNegative (x : Decimal) : Prop := signBit ≤ x.bits.toNat

instance (x : Decimal) : Decidable x.IsNegative :=
  inferInstanceAs (Decidable (signBit ≤ x.bits.toNat))

def exponentField (x : Decimal) : Nat := (x.bits.toNat >>> 52) % 2048

def fractionField (x : Decimal) : Nat := x.bits.toNat % hiddenBit

def significand (x : Decimal) : Nat :=
  if x.exponentField = 0 then x.fractionField else hiddenBit + x.fractionField

def exponent (x : Decimal) : Nat := x.exponentField - 1

def decimalPlaces : Nat := 357

def scaled (n exponent : Nat) : Nat := (n <<< exponent) * Nat.pow 10 decimalPlaces

def onGrid (x : Decimal) : Nat := scaled x.significand (x.exponent + 2)

def halfGap (x : Decimal) : Nat := scaled 1 (x.exponent + 1)

def halfGapBelow (x : Decimal) : Nat :=
  if x.fractionField = 0 ∧ 1 < x.exponentField then x.halfGap / 2 else x.halfGap

/-- Whether a grid point reads back as `x`: a midpoint goes to the even significand. -/
def Reads (x : Decimal) (point : Nat) : Prop :=
  if x.significand % 2 = 0 then
    x.onGrid ≤ point + x.halfGapBelow ∧ point ≤ x.onGrid + x.halfGap
  else
    x.onGrid < point + x.halfGapBelow ∧ point < x.onGrid + x.halfGap

instance (x : Decimal) (point : Nat) : Decidable (x.Reads point) := by
  unfold Reads
  split <;> infer_instance

def gridDigits (x : Decimal) : Nat := (Nat.toDigits 10 (x.onGrid >>> 1076)).length

/-- The decimal of `count` digits nearest to `x` that reads back, as a number of units and the place
of the unit on the grid; a tie goes up. -/
def withDigits? (x : Decimal) (count : Nat) : Option (Nat × Nat) :=
  let place := x.gridDigits - count
  let unit := Nat.pow 10 place <<< 1076
  let below := x.onGrid / unit
  let low := below * unit
  let high := low + unit
  match decide (x.Reads low), decide (x.Reads high) with
  | true, true => some (if 2 * x.onGrid < low + high then below else below + 1, place)
  | true, false => some (below, place)
  | false, true => some (below + 1, place)
  | false, false => none

def shortest (x : Decimal) : Nat × Nat :=
  ((List.range' 1 17).findSome? x.withDigits?).getD (0, 0)

def positional (units place : Nat) : List Char :=
  let digits := Nat.toDigits 10 (units * Nat.pow 10 place)
  let padded := List.replicate (decimalPlaces + 1 - digits.length) '0' ++ digits
  let whole := padded.take (padded.length - decimalPlaces)
  let fraction := ((padded.drop (padded.length - decimalPlaces)).reverse.dropWhile (· = '0')).reverse
  if fraction.isEmpty then whole else whole ++ '.' :: fraction

def magnitudeText (x : Decimal) : List Char :=
  if x.exponentField = 2047 then
    if x.fractionField = 0 then "inf".toList else "NaN".toList
  else if x.significand = 0 then ['0']
  else positional x.shortest.1 x.shortest.2

def text (x : Decimal) : String :=
  let isNaN := x.exponentField = 2047 ∧ x.fractionField ≠ 0
  String.ofList (if x.IsNegative ∧ ¬isNaN then '-' :: x.magnitudeText else x.magnitudeText)

end Decimal

end ObjectGraph
