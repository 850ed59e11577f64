/-!
# Shortest decimals

A binary floating-point number stands for every real that rounds to it. `Binary.shortest` is
a decimal with the fewest digits among those reals, and of these the one nearest to the
number itself. The arithmetic is exact: the number and the two ends of its rounding interval
are fractions over one denominator, and a decimal grid is tried for each count of digits.
-/

namespace ClassWeaver.Decimal

/-- A positive binary number `mantissa * 2 ^ exponent`. The neighbour below is at half the
distance of the neighbour above when `atPower` holds: the mantissa is then the least one of
its binade. -/
structure Binary where
  mantissa : Nat
  exponent : Int
  atPower : Bool

/-- The reals that round to a number: all values over the common denominator `unit`. The ends
belong to the interval exactly when `closed` holds. -/
structure Interval where
  low : Nat
  value : Nat
  high : Nat
  unit : Nat
  closed : Bool

/-- The rounding interval in quarters of the last place; ends round to an even mantissa. -/
def Binary.interval (x : Binary) : Interval :=
  let scale := 1 <<< (x.exponent - 2).toNat
  { low := (4 * x.mantissa - if x.atPower then 1 else 2) * scale
    value := 4 * x.mantissa * scale
    high := (4 * x.mantissa + 2) * scale
    unit := 1 <<< (2 - x.exponent).toNat
    closed := x.mantissa % 2 = 0 }

/-- A decimal `digits * 10 ^ exponent`. -/
structure Grid where
  digits : Nat
  exponent : Int

namespace Interval

/-- The interval in units of `10 ^ e`. -/
def scaled (i : Interval) (e : Int) : Interval :=
  let up := Nat.pow 10 (-e).toNat
  { i with
    low := i.low * up, value := i.value * up, high := i.high * up
    unit := i.unit * Nat.pow 10 e.toNat }

/-- Whether the whole number `d` lies in the interval. -/
def holds (i : Interval) (d : Nat) : Bool :=
  if i.closed then i.low ≤ d * i.unit && d * i.unit ≤ i.high
  else i.low < d * i.unit && d * i.unit < i.high

/-- The whole number in the interval nearest to the value; of two equally near the even one. -/
def nearest? (i : Interval) : Option Nat :=
  let d := i.value / i.unit
  let rest := 2 * (i.value % i.unit)
  let up := i.unit < rest || (i.unit == rest && d % 2 == 1)
  match i.holds d, i.holds (d + 1) with
  | true, true => some (if up then d + 1 else d)
  | true, false => some d
  | false, true => some (d + 1)
  | false, false => none

/-- The least `j ≤ fuel` for which the value times `10 ^ j` reaches one. -/
def leadingZeros (i : Interval) : (fuel : Nat) → (j : Nat) → Nat
  | 0, j => j
  | fuel + 1, j => if i.unit ≤ i.value * Nat.pow 10 j then j else leadingZeros i fuel (j + 1)

/-- The exponent `k` with `10 ^ (k - 1) ≤ value < 10 ^ k`. -/
def magnitude (i : Interval) : Int :=
  if i.unit ≤ i.value then ((Nat.toDigits 10 (i.value / i.unit)).length : Int)
  else 1 - (i.leadingZeros 400 1 : Int)

/-- Tries grids of `n`, `n + 1`, … digits. -/
def search (i : Interval) (k : Int) : (fuel : Nat) → (n : Nat) → Grid
  | 0, n => ⟨i.value / i.unit, k - n⟩
  | fuel + 1, n =>
    match (i.scaled (k - n)).nearest? with
    | some d => ⟨d, k - n⟩
    | none => search i k fuel (n + 1)

end Interval

/-- The shortest decimal that rounds to `x`. Seventeen digits always suffice for 53 bits. -/
def Binary.shortest (x : Binary) : Grid :=
  let i := x.interval
  i.search i.magnitude 18 1

/-! ### Bit patterns -/

/-- An interchange format: the widths of its fraction and exponent fields. -/
structure Format where
  fractionBits : Nat
  exponentBits : Nat

/-- The 32-bit format. -/
def single : Format := ⟨23, 8⟩

/-- The 64-bit format. -/
def double : Format := ⟨52, 11⟩

/-- What a bit pattern denotes. -/
inductive Reading where
  | nan
  | infinite (negative : Bool)
  | zero (negative : Bool)
  | finite (negative : Bool) (magnitude : Binary)

/-- Reads a bit pattern. -/
def Format.read (f : Format) (bits : Nat) : Reading :=
  let fraction := bits % (1 <<< f.fractionBits)
  let exponent := (bits >>> f.fractionBits) % (1 <<< f.exponentBits)
  let negative := (bits >>> (f.fractionBits + f.exponentBits)) % 2 == 1
  let bias : Int := ((1 <<< (f.exponentBits - 1)) - 1 : Nat)
  if exponent = (1 <<< f.exponentBits) - 1 then
    if fraction = 0 then .infinite negative else .nan
  else if exponent = 0 then
    if fraction = 0 then .zero negative
    else .finite negative ⟨fraction, 1 - bias - f.fractionBits, false⟩
  else
    .finite negative
      ⟨(1 <<< f.fractionBits) + fraction, exponent - bias - f.fractionBits,
        fraction == 0 && exponent != 1⟩

/-- Whether a bit pattern is not a number. -/
def Format.isNaN (f : Format) (bits : Nat) : Bool :=
  match f.read bits with
  | .nan => true
  | _ => false

end ClassWeaver.Decimal
