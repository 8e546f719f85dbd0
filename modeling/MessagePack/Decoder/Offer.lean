import MessagePack.Decoder.Basic
import MessagePack.Input.Basic
import MessagePack.Input.Request

namespace MessagePack.Decoder

/-- A raw as text if it is UTF-8, and as bytes otherwise. -/
def offerRaw (len : Nat) : Decoding Offer := do
  let bytes ← payload len
  match Text.ofUtf8? bytes with
  | some s => return .text s
  | none => return .octets bytes

/-- A raw as text, which it has to be. -/
def offerText (len : Nat) : Decoding Offer := do
  let bytes ← payload len
  match Text.ofUtf8? bytes with
  | some s => return .text s
  | none => throw (.malformed (.notUtf8 ((Text.utf8Fault? bytes).getD ⟨0, none⟩)))

def offerItems (len : Nat) : Offer := .seq (.wire len len)

def offerEntries (len : Nat) (fields : Option Fields) : Offer := .map (.wire len len fields)

/-- Whatever comes next. -/
def offerAny : Decoding Offer := do
  match ← nextElement with
  | .nil => return .unit
  | .bool b => return .bool b
  | .uint n => return .unsigned n
  | .int n => return .signed n
  | .f32 bits => return .f32 bits
  | .f64 bits => return .f64 bits
  | .raw len => offerRaw len
  | .array len => return offerItems len
  | .map len => return offerEntries len none

def offerSeq : Decoding Offer := do
  match ← nextElement with
  | .array len => return offerItems len
  | .raw len => return .seq (.bytes 0 (← payload len))
  | e => throw (.typeMismatch "Array" e.category)

/-- The table of a structure's fields, made and kept if there was none, in a session with tables. -/
def fieldsOf (name : String) (names : List String) : Decoding (Option Fields) :=
  modifyGet fun decoder =>
    match decoder.tables with
    | none => (none, decoder)
    | some cache =>
      let (fields, cache) := cache.fieldsOf name names
      (some fields, { decoder with tables := some cache })

/-- What the session offers on a request, taking no account of codecs. Anything but what was asked
for is an error, except that bytes and sequences stand in for each other. -/
def offer : Request → Decoding Offer
  | .any | .ignored => offerAny
  | .bool => do
    match ← nextElement with
    | .bool b => return .bool b
    | e => throw (.typeMismatch "Bool" e.category)
  | .int kind => do
    if kind.isWide then throw (.rejected (.unsupported kind.name))
    match ← nextElement with
    | .uint n => return .unsigned n
    | .int n => return .signed n
    | e => throw (.typeMismatch "integer" e.category)
  | .f32 => do
    match ← nextElement with
    | .f32 bits => return .f32 bits
    | .f64 bits => return .f32 (Float.narrow bits)
    | e => throw (.typeMismatch "float" e.category)
  | .f64 => do
    match ← nextElement with
    | .f32 bits => return .f64 (Float.widen bits)
    | .f64 bits => return .f64 bits
    | e => throw (.typeMismatch "float" e.category)
  | .text => do
    match ← nextElement with
    | .raw len => offerText len
    | e => throw (.typeMismatch "Raw" e.category)
  | .bytes => do
    match ← nextElement with
    | .raw len => return .octets (← payload len)
    | .array len => return offerItems len
    | e => throw (.typeMismatch "Raw" e.category)
  | .option => do
    match ← peekMarker with
    | .nil => do
      let _ ← nextElement
      return .absent
    | _ => return .present .wire
  | .unit | .unitStruct _ => do
    match ← nextElement with
    | .nil => return .unit
    | e => throw (.typeMismatch "Nil" e.category)
  | .newtype _ => return .newtype .wire
  | .seq | .tuple | .tupleStruct _ => offerSeq
  | .map => do
    match ← nextElement with
    | .map len => return offerEntries len none
    | e => throw (.typeMismatch "Map" e.category)
  | .struct name names => do
    match ← nextElement with
    | .map len => return offerEntries len (← fieldsOf name names)
    | .array len => return offerItems len
    | e => throw (.typeMismatch "Map" e.category)
  | .identifier => do
    match ← nextElement with
    | .raw len => offerRaw len
    | .uint n => return .unsigned n
    | e => throw (.typeMismatch "identifier" e.category)

/-- A variant by its name alone, or by a map of one entry from its name to its contents. -/
def offerVariant : Decoding VariantOffer := do
  let marker ← peekMarker
  if marker.isMap then
    let len ← mapLen
    if len ≠ 1 then throw (.rejected (.variantEntries len))
    return .variant .wire (some .wire)
  else if marker.isRaw then return .variant .wire none
  else
    let e ← nextElement
    throw (.typeMismatch "enum" e.category)

end MessagePack.Decoder
