import MessagePack.Input.Ask
import MessagePack.Input.Items

namespace MessagePack

namespace IntKind

/-- An integer of the kind, or the error for one out of its range. -/
def check (kind : IntKind) (n : Int) : Decoding Int :=
  if kind.contains n then pure n else throw (.invalidValue (.integer n) kind.name)

/-- Takes any integer in range. -/
def take (kind : IntKind) : Offer → Decoding Int
  | .unsigned n => kind.check n.toNat
  | .signed n => kind.check n.toInt
  | offer => offer.refuse kind.name

end IntKind

namespace Offer

def takeBool : Offer → Decoding Bool
  | .bool b => pure b
  | offer => offer.refuse "a boolean"

/-- A single, or the single nearest to any other number. -/
def takeF32 : Offer → Decoding UInt32
  | .f32 bits => pure bits
  | .f64 bits => pure (Float.narrow bits)
  | .unsigned n => pure (Float.single n.toNat)
  | .signed n => pure (Float.single n.toInt)
  | offer => offer.refuse "f32"

/-- A double, or the double nearest to any other number. -/
def takeF64 : Offer → Decoding UInt64
  | .f32 bits => pure (Float.widen bits)
  | .f64 bits => pure bits
  | .unsigned n => pure (Float.double n.toNat)
  | .signed n => pure (Float.double n.toInt)
  | offer => offer.refuse "f64"

/-- A text of one character. -/
def takeChar : Offer → Decoding Char
  | .text s =>
    match s.toList with
    | [c] => pure c
    | _ => throw (.invalidValue (.text s) "a character")
  | offer => offer.refuse "a character"

/-- A text, or bytes that spell one. -/
def takeText : Offer → Decoding String
  | .text s => pure s
  | .octets bytes =>
    match Text.ofUtf8? bytes with
    | some s => pure s
    | none => throw (.invalidValue .octets "a string")
  | offer => offer.refuse "a string"

def takeUnit (expected : String) : Offer → Decoding Unit
  | .unit => pure ()
  | offer => offer.refuse expected

def takeInteger : Offer → Decoding Integer
  | .unsigned n => pure (.ofUInt64 n)
  | .signed n => pure (.ofInt64 n)
  | offer => offer.refuse "an integer between i64::MIN and u64::MAX"

end Offer

/-- One integer of a kind. -/
def IntKind.read (kind : IntKind) : Reader Int := fun input => do
  kind.take (← input.ask .empty (.int kind))

/-- Bytes, a text's bytes, or a sequence of bytes. -/
def Offer.takeBytes : Offer → Decoding (List UInt8)
  | .octets bytes => pure bytes
  | .text s => pure (Text.utf8 s)
  | .seq items => items.readAll fun input => do return UInt8.ofNat (← IntKind.u8.read input).toNat
  | offer => offer.refuse "byte array"

namespace Timestamp

def ofPair : List Int → Timestamp
  | [sec, nsec] => .new (Int64.ofInt sec) (Int64.ofInt nsec)
  | _ => .ofSeconds 0

/-- Seconds and nanoseconds, read as a tuple. -/
def readTuple : Reader Timestamp := fun input => do
  match ← input.ask .empty .tuple with
  | .seq items =>
    return ofPair (← items.readTuple "a tuple of size 2" [IntKind.i64.read, IntKind.i64.read])
  | offer => offer.refuse "a tuple of size 2"

/-- A newtype of a pair, or the pair itself. -/
def take : Offer → Decoding Timestamp
  | .newtype content => readTuple content
  | .seq items =>
    return ofPair (← items.readTuple "a (seconds, nanoseconds) pair"
      [IntKind.i64.read, IntKind.i64.read])
  | offer => offer.refuse "a (seconds, nanoseconds) pair"

end Timestamp

end MessagePack
