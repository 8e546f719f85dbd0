import MessagePack.Wire.Element

namespace MessagePack.Wire

/-- Which tags a signed integer may take. Under `compatible` it keeps to the inline and signed
tags, so that 128 takes the 16-bit signed form; under `compact` a non-negative one is written as
an unsigned integer. -/
inductive IntPolicy where
  | compatible
  | compact
  deriving DecidableEq, Repr

/-- The largest length a raw, array or map can announce. -/
def maxLength : Nat := 4294967295

def header (marker : Marker) (field : Nat) : List UInt8 :=
  marker.toByte :: bigEndian marker.fieldWidth field

def uintHeader (v : UInt64) : List UInt8 :=
  if v < 128 then [v.toUInt8]
  else if v < 256 then header .uint8 v.toNat
  else if v < 65536 then header .uint16 v.toNat
  else if v < 4294967296 then header .uint32 v.toNat
  else header .uint64 v.toNat

def intHeader (policy : IntPolicy) (v : Int64) : List UInt8 :=
  let n := v.toInt
  if policy = .compact ∧ 0 ≤ n then uintHeader v.toUInt64
  else if n < -2147483648 ∨ 2147483648 ≤ n then header .int64 (unsigned 8 n)
  else if n < -32768 ∨ 32768 ≤ n then header .int32 (unsigned 4 n)
  else if n < -128 ∨ 128 ≤ n then header .int16 (unsigned 2 n)
  else if n < -32 then header .int8 (unsigned 1 n)
  else [UInt8.ofNat (unsigned 1 n)]

/-- The tags for the lengths of one kind: inline below `inlineEnd`, then 16 and 32 bits wide. -/
structure LengthTags where
  inlineTag : UInt8 → Marker
  inlineEnd : Nat
  short : Marker
  long : Marker

def LengthTags.raw : LengthTags := ⟨.fixRaw, 32, .raw16, .raw32⟩

def LengthTags.array : LengthTags := ⟨.fixArray, 16, .array16, .array32⟩

def LengthTags.map : LengthTags := ⟨.fixMap, 16, .map16, .map32⟩

/-- The narrowest header for a length, or nothing when no tag can hold it. -/
def LengthTags.header? (tags : LengthTags) (len : Nat) : Option (List UInt8) :=
  if maxLength < len then none
  else if len < tags.inlineEnd then some [(tags.inlineTag (UInt8.ofNat len)).toByte]
  else if len < 65536 then some (header tags.short len)
  else some (header tags.long len)

/-- The narrowest header for an element, or nothing when its length fits no tag. -/
def Element.header? (policy : IntPolicy) : Element → Option (List UInt8)
  | .nil => some (header .nil 0)
  | .bool value => some (header (.bool value) 0)
  | .uint value => some (uintHeader value)
  | .int value => some (intHeader policy value)
  | .f32 bits => some (header .f32 bits.toNat)
  | .f64 bits => some (header .f64 bits.toNat)
  | .raw len => LengthTags.raw.header? len
  | .array len => LengthTags.array.header? len
  | .map len => LengthTags.map.header? len

end MessagePack.Wire
