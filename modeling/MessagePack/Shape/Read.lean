import MessagePack.Input.FieldReader
import MessagePack.Input.Probe
import MessagePack.Input.Scalar
import MessagePack.Shape.Basic

namespace MessagePack

section

variable (registry : Registry)

mutual

/-- Reads a type from an input. -/
def Shape.read : Shape → Reader Item
  | .bool, input => return .bool (← (← input.ask registry .bool).takeBool)
  | .int kind, input => return .int kind (← kind.read input)
  | .f32, input => return .f32 (← (← input.ask registry .f32).takeF32)
  | .f64, input => return .f64 (← (← input.ask registry .f64).takeF64)
  | .char, input => return .char (← (← input.ask registry .text).takeChar)
  | .text, input => return .text (← (← input.ask registry .text).takeText)
  | .bytes, input => return .bytes (← (← input.ask registry .bytes).takeBytes)
  | .unit, input => do
    (← input.ask registry .unit).takeUnit "unit"
    return .unit
  | .ignored, input => do
    input.fold .ignored
    return .ignored
  | .human, input => return .human input.isHumanReadable
  | .value, input => return .value (← input.fold .value)
  | .integer, input => return .integer (← (← input.ask registry .any).takeInteger)
  | .timestamp, input =>
    return .timestamp (← Timestamp.take (← input.ask registry (.newtype Timestamp.typeName)))
  | .option content, input => do
    match ← input.ask registry .option with
    | .absent | .unit => return .absent
    | .present inner => return .present (← content.read inner)
    | offer => offer.refuse "option"
  | .seq item, input => do
    match ← input.ask registry .seq with
    | .seq items => return .seq (← items.readAll item.read)
    | offer => offer.refuse "a sequence"
  | .map key item, input => do
    match ← input.ask registry .map with
    | .map entries => return .map (← entries.readAll key.read item.read)
    | offer => offer.refuse "a map"
  | .mapPart count key item, input => do
    match ← input.ask registry .map with
    | .map entries => return .map (← entries.readPart count key.read item.read)
    | offer => offer.refuse "a map"
  | .tuple items, input => do
    let expected := s!"a tuple of size {items.length}"
    let offer ← input.ask registry .tuple
    return .tuple (← offer.takeTuple expected expected (Shape.readers items))
  | .tupleStruct name items, input => do
    let expected := "tuple struct " ++ name
    let offer ← input.ask registry (.tupleStruct name)
    return .tupleStruct name
      (← offer.takeTuple expected (withElements expected items.length) (Shape.readers items))
  | .unitStruct name, input => do
    (← input.ask registry (.unitStruct name)).takeUnit ("unit struct " ++ name)
    return .unitStruct name
  | .newtype name content, input => do
    match ← input.ask registry (.newtype name) with
    | .newtype inner => return .newtype name (← content.read inner)
    | offer =>
      let expected := "tuple struct " ++ name
      let list ← offer.takeTuple expected (withElements expected 1) [content.read]
      return .newtype name (list.headD .unit)
  | .struct name fields strict, input => do
    let offer ← input.ask registry (.struct name (fields.map Prod.fst))
    return .struct name
      (← FieldReader.readOffer (Shape.fieldReaders fields) strict ("struct " ++ name) offer)
  | .enumeration name variants, input =>
    ContentReader.readVariant ("enum " ++ name) (Shape.contentReaders name variants) input
  | .probe request, input => return .offered (← (← input.ask registry request).token)
  | .probeVariant kind, input => do (← input.askVariant).probe kind

def Shape.readers : List Shape → List (Reader Item)
  | [] => []
  | shape :: rest => shape.read :: Shape.readers rest

def Shape.fieldReaders : List (String × Shape) → List FieldReader
  | [] => []
  | (name, shape) :: rest => ⟨name, shape.isOption, shape.read⟩ :: Shape.fieldReaders rest

def Shape.contentReaders (type : String) :
    List (String × Content) → List (String × ContentReader)
  | [] => []
  | (variant, content) :: rest =>
    (variant, content.read type variant) :: Shape.contentReaders type rest

/-- Reads the contents of a variant. -/
def Content.read (type variant : String) : Content → ContentReader
  | .unit, content? => do
    Input.noContent content?
    return .unitVariant type variant
  | .newtype content, content? => do
    return .newtypeVariant type variant
      (← content.read (← Input.content "newtype variant" content?))
  | .tuple items, content? => do
    let expected := s!"tuple variant {type}::{variant}"
    let offer ← Input.askTuple content?
    return .tupleVariant type variant
      (← offer.takeTuple expected (withElements expected items.length) (Shape.readers items))
  | .struct fields, content? => do
    let expected := s!"struct variant {type}::{variant}"
    let offer ← Input.askStruct content?
    return .structVariant type variant
      (← FieldReader.readOffer (Shape.fieldReaders fields) false expected offer)

end

end

end MessagePack
