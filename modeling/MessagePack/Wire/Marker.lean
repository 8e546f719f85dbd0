namespace MessagePack.Wire

/-- What a tag byte announces: a small number or length held in the tag itself, or the kind and
width of the field that follows. -/
inductive Marker where
  | posInt (value : UInt8)
  | fixMap (len : UInt8)
  | fixArray (len : UInt8)
  | fixRaw (len : UInt8)
  | nil
  | reserved (tag : UInt8)
  | bool (value : Bool)
  | f32
  | f64
  | uint8
  | uint16
  | uint32
  | uint64
  | int8
  | int16
  | int32
  | int64
  | raw16
  | raw32
  | array16
  | array32
  | map16
  | map32
  | negInt (value : Int8)
  deriving DecidableEq, Repr

namespace Marker

def ofByte (tag : UInt8) : Marker :=
  if tag < 0x80 then .posInt tag
  else if tag < 0x90 then .fixMap (tag &&& 0x0f)
  else if tag < 0xa0 then .fixArray (tag &&& 0x0f)
  else if tag < 0xc0 then .fixRaw (tag &&& 0x1f)
  else if 0xe0 ≤ tag then .negInt tag.toInt8
  else match tag with
    | 0xc0 => .nil
    | 0xc2 => .bool false
    | 0xc3 => .bool true
    | 0xca => .f32
    | 0xcb => .f64
    | 0xcc => .uint8
    | 0xcd => .uint16
    | 0xce => .uint32
    | 0xcf => .uint64
    | 0xd0 => .int8
    | 0xd1 => .int16
    | 0xd2 => .int32
    | 0xd3 => .int64
    | 0xda => .raw16
    | 0xdb => .raw32
    | 0xdc => .array16
    | 0xdd => .array32
    | 0xde => .map16
    | 0xdf => .map32
    | _ => .reserved tag

def toByte : Marker → UInt8
  | posInt value => value
  | fixMap len => 0x80 ||| len
  | fixArray len => 0x90 ||| len
  | fixRaw len => 0xa0 ||| len
  | nil => 0xc0
  | reserved tag => tag
  | bool value => if value then 0xc3 else 0xc2
  | f32 => 0xca
  | f64 => 0xcb
  | uint8 => 0xcc
  | uint16 => 0xcd
  | uint32 => 0xce
  | uint64 => 0xcf
  | int8 => 0xd0
  | int16 => 0xd1
  | int32 => 0xd2
  | int64 => 0xd3
  | raw16 => 0xda
  | raw32 => 0xdb
  | array16 => 0xdc
  | array32 => 0xdd
  | map16 => 0xde
  | map32 => 0xdf
  | negInt value => value.toUInt8

/-- Width in bytes of the field after the tag. -/
def fieldWidth : Marker → Nat
  | uint8 | int8 => 1
  | uint16 | int16 | raw16 | array16 | map16 => 2
  | uint32 | int32 | raw32 | array32 | map32 | f32 => 4
  | uint64 | int64 | f64 => 8
  | _ => 0

def isRaw : Marker → Bool
  | fixRaw _ | raw16 | raw32 => true
  | posInt _ | negInt _ | uint8 | uint16 | uint32 | uint64 | int8 | int16 | int32 | int64 | nil
  | bool _ | f32 | f64 | fixArray _ | array16 | array32 | fixMap _ | map16 | map32
  | reserved _ => false

def isMap : Marker → Bool
  | fixMap _ | map16 | map32 => true
  | posInt _ | negInt _ | uint8 | uint16 | uint32 | uint64 | int8 | int16 | int32 | int64 | nil
  | bool _ | f32 | f64 | fixArray _ | array16 | array32 | fixRaw _ | raw16 | raw32
  | reserved _ => false

/-- Name of the field after the tag, as error messages give it. -/
def fieldName : Marker → String
  | f32 => "F32"
  | f64 => "F64"
  | uint8 => "UInt8"
  | uint16 => "UInt16"
  | uint32 => "UInt32"
  | uint64 => "UInt64"
  | int8 => "Int8"
  | int16 => "Int16"
  | int32 => "Int32"
  | int64 => "Int64"
  | raw16 => "Raw16 length"
  | raw32 => "Raw32 length"
  | array16 => "Array16 length"
  | array32 => "Array32 length"
  | map16 => "Map16 length"
  | map32 => "Map32 length"
  | _ => "tag"

/-- Every byte is the tag of exactly one marker. -/
theorem toByte_ofByte (tag : UInt8) : (ofByte tag).toByte = tag := by
  have h : ∀ n : Fin 256, (ofByte (UInt8.ofFin n)).toByte = UInt8.ofFin n := by decide +kernel
  exact h tag.toFin

end Marker

end MessagePack.Wire
