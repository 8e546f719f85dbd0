import MessagePack.Config
import MessagePack.Fields
import MessagePack.Nesting
import MessagePack.Source
import MessagePack.Timestamp.Basic
import MessagePack.Value.Basic

namespace MessagePack

/-- The state of a decoding session. -/
structure Decoder where
  source : Source
  nesting : Nesting
  /-- A tag that has been looked at but not taken. -/
  peeked : Option UInt8 := none
  /-- The field tables made so far; a session without tables reads each key for itself. -/
  tables : Option FieldCache := some {}

/-- Reading from a session. An error keeps the state it left. -/
abbrev Decoding := EStateM Error Decoder

/-- A result as a step of a session. -/
def Decoding.ofExcept : Except Error α → Decoding α
  | .ok a => pure a
  | .error e => throw e

namespace Decoder

def new (source : Source) (config : Config) : Decoder :=
  { source, nesting := { limit := config.maxDepth } }

/-- A session over bytes, with the default configuration. -/
def ofBytes (bytes : List UInt8) : Decoder := new (.ofBytes bytes) {}

/-- The result of a reading, without the state it left. -/
def result (reading : Decoding α) (decoder : Decoder) : Except Error α :=
  match reading decoder with
  | .ok a _ => .ok a
  | .error e _ => .error e

/-- Reads a fixed number of bytes for a step; the end of the input cuts the data short. -/
def exactly (step : Step) (count : Nat) : Decoding (List UInt8) := fun decoder =>
  match decoder.source.fill count with
  | (.full bytes, source) => .ok bytes { decoder with source }
  | (.ended _, source) => .error (.truncated step count) { decoder with source }
  | (.failed fault, source) => .error (.ofRead step count fault) { decoder with source }

/-- The payload of a raw. Any failure of the source counts as such, even one that says that the
input has ended. -/
def payload (len : Nat) : Decoding (List UInt8) := fun decoder =>
  match decoder.source.fill len with
  | (.full bytes, source) => .ok bytes { decoder with source }
  | (.ended got, source) => .error (.truncated .payload (len - got)) { decoder with source }
  | (.failed fault, source) => .error (.io fault) { decoder with source }

/-- The next tag, which stays to be read. -/
def peekTag : Decoding UInt8 := do
  match (← get).peeked with
  | some tag => pure tag
  | none =>
    let bytes ← exactly .tag 1
    let tag := bytes.headD 0
    modify fun decoder => { decoder with peeked := some tag }
    pure tag

def peekMarker : Decoding Wire.Marker := do
  return .ofByte (← peekTag)

/-- The number in the field after a tag. -/
def field (marker : Wire.Marker) : Decoding Nat :=
  if marker.fieldWidth = 0 then pure 0
  else do return Wire.ofBigEndian (← exactly (.field marker) marker.fieldWidth)

/-- Takes note of an element among the open containers. One that is refused stays counted and
open. -/
def enter (element : Wire.Element) : Decoding Unit := fun decoder =>
  match decoder.nesting.enter element with
  | .ok nesting => .ok () { decoder with nesting }
  | .error e => .error e { decoder with nesting := decoder.nesting.noted element }

/-- The next tag with its field. -/
def nextElement : Decoding Wire.Element := do
  let tag ← peekTag
  modify fun decoder => { decoder with peeked := none }
  let marker := Wire.Marker.ofByte tag
  match Wire.Element.ofField (← field marker) marker with
  | none => throw (.malformed (.unknownTag tag))
  | some element => do
    enter element
    pure element

def nil : Decoding Unit := do
  match ← nextElement with
  | .nil => pure ()
  | e => throw (.typeMismatch "Nil" e.category)

def bool : Decoding Bool := do
  match ← nextElement with
  | .bool b => pure b
  | e => throw (.typeMismatch "Bool" e.category)

def u64 : Decoding UInt64 := do
  match ← nextElement with
  | .uint n => pure n
  | .int n =>
    if 0 ≤ n.toInt then pure n.toUInt64
    else throw (.invalidValue (.integer n.toInt) "an unsigned integer")
  | e => throw (.typeMismatch "integer" e.category)

def i64 : Decoding Int64 := do
  match ← nextElement with
  | .int n => pure n
  | .uint n =>
    if n.toNat < 9223372036854775808 then pure n.toInt64
    else throw (.invalidValue (.integer n.toNat) "an i64")
  | e => throw (.typeMismatch "integer" e.category)

def f32 : Decoding UInt32 := do
  match ← nextElement with
  | .f32 bits => pure bits
  | .f64 bits => pure (Float.narrow bits)
  | e => throw (.typeMismatch "float" e.category)

def f64 : Decoding UInt64 := do
  match ← nextElement with
  | .f32 bits => pure (Float.widen bits)
  | .f64 bits => pure bits
  | e => throw (.typeMismatch "float" e.category)

def bytes : Decoding (List UInt8) := do
  match ← nextElement with
  | .raw len => payload len
  | e => throw (.typeMismatch "Raw" e.category)

/-- The bytes as text. -/
def decodeText (bytes : List UInt8) : Decoding String :=
  match Text.ofUtf8? bytes with
  | some s => pure s
  | none => throw (.malformed (.notUtf8 ((Text.utf8Fault? bytes).getD ⟨0, none⟩)))

def string : Decoding String := do
  decodeText (← bytes)

def arrayLen : Decoding Nat := do
  match ← nextElement with
  | .array len => pure len
  | e => throw (.typeMismatch "Array" e.category)

def mapLen : Decoding Nat := do
  match ← nextElement with
  | .map len => pure len
  | e => throw (.typeMismatch "Map" e.category)

/-- A timestamp from two bare integers. -/
def time : Decoding Timestamp := do
  let sec ← i64
  let nsec ← i64
  return .new sec nsec

/-- Repeats a reading. -/
def repeatFrom (one : Decoding α) (done : List α) : Nat → Decoding (List α)
  | 0 => pure done.reverse
  | count + 1 => do
    let a ← one
    repeatFrom one (a :: done) count

def replicate (count : Nat) (one : Decoding α) : Decoding (List α) :=
  repeatFrom one [] count

end Decoder

end MessagePack
