import MessagePack.Float.Format

namespace MessagePack.Float

/-- A positive decimal `digits * 10 ^ scale`. -/
structure Decimal where
  digits : Nat
  scale : Int
  deriving DecidableEq, Repr

/-- Numerators over a common denominator for comparing multiples of `2 ^ binary` with multiples of
`10 ^ decimal`. -/
def commonUnits (binary decimal : Int) : Nat × Nat :=
  (Nat.pow 10 (-decimal).toNat <<< binary.toNat, Nat.pow 10 decimal.toNat <<< (-binary).toNat)

/-- The multiple of `10 ^ scale` that reads back as the double `mantissa * 2 ^ binary`, the nearer
one if there are two. The numbers that read back as it reach half way to its neighbours; below a
power of two the neighbour is half as far, and the ends belong to an even mantissa. -/
def onGrid? (mantissa : Nat) (binary scale : Int) : Option Decimal :=
  let (unit, step) := commonUnits (binary - 2) scale
  let value := 4 * mantissa * unit
  let narrowBelow := mantissa = 1 <<< Format.double.fraction ∧ Format.double.minScale < binary
  let low := (4 * mantissa - if narrowBelow then 1 else 2) * unit
  let high := (4 * mantissa + 2) * unit
  let below := value / step
  let inside (d : Nat) : Bool :=
    0 < d && (if mantissa % 2 = 0 then low ≤ d * step ∧ d * step ≤ high
      else low < d * step ∧ d * step < high)
  match inside below, inside (below + 1) with
  | true, true =>
    if value - below * step < (below + 1) * step - value then some ⟨below, scale⟩
    else some ⟨below + 1, scale⟩
  | true, false => some ⟨below, scale⟩
  | false, true => some ⟨below + 1, scale⟩
  | false, false => none

/-- The decimal with the fewest digits that reads back, taken on the coarsest grid that has one. -/
def shortest (mantissa : Nat) (binary : Int) : Decimal :=
  ((List.range 650).findSome? fun i : Nat => onGrid? mantissa binary (310 - i)).getD ⟨0, 0⟩

/-- Plain positional notation, with at least one digit on either side of the point. -/
def Decimal.positional (d : Decimal) : String :=
  let digits := (Nat.repr d.digits).toList
  let text :=
    if 0 ≤ d.scale then digits ++ List.replicate d.scale.toNat '0' ++ ['.', '0']
    else
      let places := (-d.scale).toNat
      let padded := List.replicate (places + 1 - digits.length) '0' ++ digits
      padded.take (padded.length - places) ++ '.' :: padded.drop (padded.length - places)
  String.ofList text

/-- The text of a double: its shortest decimal in positional notation. -/
def text (bits : UInt64) : String :=
  match Format.double.number bits.toNat with
  | .nan => "NaN"
  | .infinite negative => if negative then "-inf" else "inf"
  | .finite negative mantissa binary =>
    let magnitude := if mantissa = 0 then "0.0" else (shortest mantissa binary).positional
    if negative then "-" ++ magnitude else magnitude

end MessagePack.Float
