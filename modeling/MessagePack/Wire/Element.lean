import MessagePack.Wire.BigEndian
import MessagePack.Wire.Marker

namespace MessagePack.Wire

/-- The kinds of thing the format tells apart. -/
inductive Category where
  | nil
  | bool
  | signedInt
  | unsignedInt
  | float32
  | float64
  | raw
  | array
  | map
  deriving DecidableEq, Repr

namespace Category

def name : Category → String
  | nil => "Nil"
  | bool => "Bool"
  | signedInt => "SignedInt"
  | unsignedInt => "UnsignedInt"
  | float32 => "Float32"
  | float64 => "Float64"
  | raw => "Raw"
  | array => "Array"
  | map => "Map"

def isInt : Category → Bool
  | signedInt | unsignedInt => true
  | _ => false

end Category

/-- One tag with its fixed-width field. A raw's payload and a container's contents come after it
and are no part of it. Floats are kept as their bits, so that every NaN passes unchanged. -/
inductive Element where
  | nil
  | bool (value : Bool)
  | uint (value : UInt64)
  | int (value : Int64)
  | f32 (bits : UInt32)
  | f64 (bits : UInt64)
  | raw (len : Nat)
  | array (len : Nat)
  | map (len : Nat)
  deriving DecidableEq, Repr

namespace Element

def category : Element → Category
  | nil => .nil
  | bool _ => .bool
  | uint _ => .unsignedInt
  | int _ => .signedInt
  | f32 _ => .float32
  | f64 _ => .float64
  | raw _ => .raw
  | array _ => .array
  | map _ => .map

/-- The length that the element announces. -/
def length : Element → Nat
  | raw len | array len | map len => len
  | _ => 0

/-- The element of a tag whose field spells the number `field`; a reserved tag has none. -/
def ofField (field : Nat) : Marker → Option Element
  | .posInt value => some (.uint value.toUInt64)
  | .negInt value => some (.int value.toInt64)
  | .fixRaw len => some (.raw len.toNat)
  | .fixArray len => some (.array len.toNat)
  | .fixMap len => some (.map len.toNat)
  | .nil => some .nil
  | .bool value => some (.bool value)
  | .reserved _ => none
  | .f32 => some (.f32 (UInt32.ofNat field))
  | .f64 => some (.f64 (UInt64.ofNat field))
  | .uint8 | .uint16 | .uint32 | .uint64 => some (.uint (UInt64.ofNat field))
  | .int8 => some (.int (Int64.ofInt (signed 1 field)))
  | .int16 => some (.int (Int64.ofInt (signed 2 field)))
  | .int32 => some (.int (Int64.ofInt (signed 4 field)))
  | .int64 => some (.int (Int64.ofInt (signed 8 field)))
  | .raw16 | .raw32 => some (.raw field)
  | .array16 | .array32 => some (.array field)
  | .map16 | .map32 => some (.map field)

end Element

end MessagePack.Wire
