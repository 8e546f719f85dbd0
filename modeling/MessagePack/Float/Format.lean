namespace MessagePack.Float

/-- A binary floating point format: the widths of its fraction and exponent fields. -/
structure Format where
  fraction : Nat
  exponent : Nat

def Format.single : Format := ⟨23, 8⟩

def Format.double : Format := ⟨52, 11⟩

/-- What the bits of a float mean; a finite one is `mantissa * 2 ^ scale` with a sign. -/
inductive Number where
  | nan
  | infinite (negative : Bool)
  | finite (negative : Bool) (mantissa : Nat) (scale : Int)
  deriving DecidableEq, Repr

namespace Format

variable (format : Format)

/-- The exponent field of infinities and NaNs. -/
def top : Nat := (1 <<< format.exponent) - 1

/-- The scale of the smallest positive float. -/
def minScale : Int := 2 - (1 <<< (format.exponent - 1) : Nat) - format.fraction

def signBit (negative : Bool) : Nat :=
  if negative then 1 <<< (format.fraction + format.exponent) else 0

def number (bits : Nat) : Number :=
  let negative := (bits >>> (format.fraction + format.exponent)) % 2 = 1
  let field := (bits >>> format.fraction) % (1 <<< format.exponent)
  let low := bits % (1 <<< format.fraction)
  if field = format.top then
    if low = 0 then .infinite negative else .nan
  else if field = 0 then .finite negative low format.minScale
  else .finite negative (low + (1 <<< format.fraction)) (format.minScale + (field - 1 : Nat))

end Format

/-- The quotient rounded to the nearest integer, a half to the even one. -/
def roundDiv (num den : Nat) : Nat :=
  let quotient := num / den
  let twice := 2 * (num % den)
  if den < twice ∨ twice = den ∧ quotient % 2 = 1 then quotient + 1 else quotient

namespace Format

variable (format : Format)

/-- The bits without sign of the float nearest to `mantissa * 2 ^ scale`, a tie going to the even
mantissa. A mantissa that rounds up to the next power of two carries into the exponent field, and
what reaches the top of that field is infinite. -/
def round (mantissa : Nat) (scale : Int) : Nat :=
  if mantissa = 0 then 0 else
    let fitting := scale + mantissa.log2 - format.fraction
    let target := max fitting format.minScale
    let kept :=
      if target ≤ scale then mantissa <<< (scale - target).toNat
      else roundDiv mantissa (1 <<< (target - scale).toNat)
    min (((target - format.minScale).toNat <<< format.fraction) + kept)
      (format.top <<< format.fraction)

/-- The bits of the nearest float; a NaN becomes the quiet one with no payload. -/
def bits : Number → Nat
  | .nan => (format.top <<< format.fraction) + (1 <<< (format.fraction - 1))
  | .infinite negative => format.signBit negative + (format.top <<< format.fraction)
  | .finite negative mantissa scale => format.signBit negative + format.round mantissa scale

def ofInt (n : Int) : Nat :=
  format.bits (.finite (n < 0) n.natAbs 0)

def isNaN (bits : Nat) : Bool :=
  format.number bits = .nan

/-- Equality of numbers: no NaN equals anything, and the two zeros are equal. -/
def equal (a b : Nat) : Bool :=
  match format.number a, format.number b with
  | .infinite s, .infinite t => s == t
  | .finite s m _, .finite t n _ => m == 0 && n == 0 || s == t && a == b
  | _, _ => false

end Format

def widen (bits : UInt32) : UInt64 :=
  UInt64.ofNat (Format.double.bits (Format.single.number bits.toNat))

def narrow (bits : UInt64) : UInt32 :=
  UInt32.ofNat (Format.single.bits (Format.double.number bits.toNat))

def single (n : Int) : UInt32 :=
  UInt32.ofNat (Format.single.ofInt n)

def double (n : Int) : UInt64 :=
  UInt64.ofNat (Format.double.ofInt n)

end MessagePack.Float
