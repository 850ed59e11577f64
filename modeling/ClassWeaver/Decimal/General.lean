import ClassWeaver.Decimal.Shortest
import ClassWeaver.Text.Basic

/-!
# Decimal layout

A floating-point constant is listed with its shortest digits. The layout is positional while
the leading digit stands between the fourth place behind the point and the sixth in front of
it, and scientific with a signed exponent of at least two digits elsewhere.
-/

namespace ClassWeaver.Decimal

/-- Which exponents of the leading digit are written positionally, and how many digits an
exponent has at least. -/
structure Layout where
  least : Int
  bound : Int
  exponentDigits : Nat

/-- The layout of constants in a listing. -/
def listingLayout : Layout := ⟨-4, 6, 2⟩

/-- A numeral without trailing zeros: its digits, and the power of ten just above it. -/
def Grid.normal (g : Grid) : Text × Int :=
  let digits := Text.ofNat g.digits
  ((digits.reverse.dropWhile (· = 48)).reverse, digits.length + g.exponent)

/-- Writes `0.digits * 10 ^ point`. -/
def Layout.write (l : Layout) (digits : Text) (point : Int) : Text :=
  let exponent := point - 1
  if exponent < l.least || l.bound ≤ exponent then
    let sign : UInt8 := if exponent < 0 then 45 else 43
    let size := Text.ofNat exponent.natAbs
    let tail := match digits.drop 1 with
      | [] => []
      | rest => 46 :: rest
    digits.take 1 ++ tail ++ [101, sign]
      ++ List.replicate (l.exponentDigits - size.length) 48 ++ size
  else if point ≤ 0 then
    [48, 46] ++ List.replicate point.natAbs 48 ++ digits
  else
    let whole := point.toNat
    let tail := match digits.drop whole with
      | [] => []
      | rest => 46 :: rest
    digits.take whole ++ List.replicate (whole - digits.length) 48 ++ tail

/-- The listing text of a bit pattern. -/
def text (f : Format) (bits : Nat) : Text :=
  let minus (negative : Bool) : Text := if negative then [45] else []
  match f.read bits with
  | .nan => "NaN"
  | .infinite negative => if negative then "-Inf" else "+Inf"
  | .zero negative => minus negative ++ [48]
  | .finite negative x =>
    let (digits, point) := x.shortest.normal
    minus negative ++ listingLayout.write digits point

end ClassWeaver.Decimal
