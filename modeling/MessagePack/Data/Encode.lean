import MessagePack.Data.Basic
import MessagePack.Encoder.Capture
import MessagePack.Registry

namespace MessagePack

namespace Data

open Encoder (arrayLen mapLen capture through verbatim afterwards buffered)

variable (config : Config)

mutual

/-- Writes data. A type that the registry knows is written by its codec, which is given the value
that the data would be written as without any registry. -/
def encode : Registry → Data → Encoding Unit
  | _, .bool b => Encoder.bool config b
  | _, .int k n => Encoder.kind config k n
  | _, .f32 bits => Encoder.f32 config bits
  | _, .f64 bits => Encoder.f64 config bits
  | _, .char c => Encoder.text config c.toString
  | _, .text s => Encoder.text config s
  | _, .bytes data => Encoder.bytes config data
  | _, .unit => Encoder.nil config
  | _, .absent => Encoder.nil config
  | registry, .present content => encode registry content
  | _, .human => Encoder.bool config false
  | _, .value v => Encoder.value config v
  | _, .integer n => Encoder.integer config n
  | registry, .timestamp t =>
    match registry.get? Timestamp.typeName with
    | some codec => through codec config (capture (Encoder.timePair config t))
    | none => Encoder.timePair config t
  | registry, .seq (some len) items => do
    arrayLen config len
    encodeItems registry items
  | registry, .seq none items =>
    afterwards (arrayLen config items.length) (buffered (encodeItems registry items))
  | registry, .map (some len) entries => do
    mapLen config len
    encodeEntries registry entries
  | registry, .map none entries =>
    afterwards (mapLen config entries.length) (buffered (encodeEntries registry entries))
  | registry, .collectSeq hint items => do
    let announced := hint.getD items.length
    arrayLen config announced
    encodeItems registry items
    if items.length ≠ announced then
      throw (.rejected (.announcedItems announced items.length))
  | registry, .collectMap hint entries => do
    let announced := hint.getD entries.length
    mapLen config announced
    encodeEntries registry entries
    if entries.length ≠ announced then
      throw (.rejected (.announcedEntries announced entries.length))
  | registry, .tuple items => do
    arrayLen config items.length
    encodeItems registry items
  | registry, .tupleStruct name items =>
    match registry.get? name with
    | some codec => through codec config (.array <$> captureItems items)
    | none => do
      arrayLen config items.length
      encodeItems registry items
  | registry, .unitStruct name =>
    match registry.get? name with
    | some codec => codec.encode config .nil
    | none => Encoder.nil config
  | registry, .newtype name content =>
    if name = Encoder.coderName then verbatim (capture (encode .empty content))
    else match registry.get? name with
      | some codec => through codec config (capture (encode .empty content))
      | none => encode registry content
  | registry, .struct name fields =>
    match registry.get? name with
    | some codec => through codec config (.map <$> captureFields fields)
    | none => do
      mapLen config fields.length
      encodeFields registry fields
  | _, .unitVariant _ name => Encoder.text config name
  | registry, .newtypeVariant _ name content => do
    Encoder.variant config name
    encode registry content
  | registry, .tupleVariant _ name items => do
    Encoder.variant config name
    arrayLen config items.length
    encodeItems registry items
  | registry, .structVariant _ name fields => do
    Encoder.variant config name
    mapLen config fields.length
    encodeFields registry fields
  | _, .coder write => Encoder.coder config write

def encodeItems : Registry → List Data → Encoding Unit
  | _, [] => pure ()
  | registry, d :: rest => do
    encode registry d
    encodeItems registry rest

def encodeEntries : Registry → List (Data × Data) → Encoding Unit
  | _, [] => pure ()
  | registry, (k, v) :: rest => do
    encode registry k
    encode registry v
    encodeEntries registry rest

def encodeFields : Registry → List (String × Data) → Encoding Unit
  | _, [] => pure ()
  | registry, (name, v) :: rest => do
    Encoder.text config name
    encode registry v
    encodeFields registry rest

def captureItems : List Data → Except Error (List Value)
  | [] => .ok []
  | d :: rest => do
    let v ← capture (encode .empty d)
    return v :: (← captureItems rest)

def captureFields : List (String × Data) → Except Error (List (Value × Value))
  | [] => .ok []
  | (name, d) :: rest => do
    let v ← capture (encode .empty d)
    return (.text name, v) :: (← captureFields rest)

end

/-- Writes each of several data. -/
def encodeAll (registry : Registry) (list : List Data) : Encoding Unit :=
  encodeItems config registry list

end Data

end MessagePack
