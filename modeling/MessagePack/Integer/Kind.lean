namespace MessagePack

/-- The machine integers that destinations and data ask for by name. -/
inductive IntKind where
  | i8
  | i16
  | i32
  | i64
  | i128
  | u8
  | u16
  | u32
  | u64
  | u128
  deriving DecidableEq, Repr

namespace IntKind

def bits : IntKind → Nat
  | i8 | u8 => 8
  | i16 | u16 => 16
  | i32 | u32 => 32
  | i64 | u64 => 64
  | i128 | u128 => 128

def isSigned : IntKind → Bool
  | i8 | i16 | i32 | i64 | i128 => true
  | u8 | u16 | u32 | u64 | u128 => false

/-- Wider than anything the format can carry. -/
def isWide (kind : IntKind) : Bool :=
  kind.bits == 128

def name : IntKind → String
  | i8 => "i8"
  | i16 => "i16"
  | i32 => "i32"
  | i64 => "i64"
  | i128 => "i128"
  | u8 => "u8"
  | u16 => "u16"
  | u32 => "u32"
  | u64 => "u64"
  | u128 => "u128"

def contains (kind : IntKind) (n : Int) : Bool :=
  if kind.isSigned then
    let half : Nat := 1 <<< (kind.bits - 1)
    n < half && -half ≤ n
  else 0 ≤ n && n < (1 <<< kind.bits : Nat)

end IntKind

end MessagePack
