import MessagePack.Input.Choices
import MessagePack.Item

namespace MessagePack

/-- How the contents of a variant are read; without contents there is nothing to read from. -/
abbrev ContentReader := Option Input → Decoding Item

namespace Input

/-- A variant without contents may have a nil in their place. -/
def noContent : Option Input → Decoding Unit
  | none | some (.tree .nil) => pure ()
  | some .wire => Decoder.nil
  | some _ => throw (.invalidType .newtypeVariant "unit variant")

/-- Where the contents of a variant are read, if it has any. -/
def content (expected : String) : Option Input → Decoding Input
  | some input => pure input
  | none => throw (.invalidType .unitVariant expected)

/-- What the contents of a variant with named fields are asked for. -/
def structRequest : Input → Request
  | wire => .map
  | _ => .any

/-- What is offered by the contents of a variant with unnamed fields. -/
def askTuple (content? : Option Input) : Decoding Offer := do
  (← content "tuple variant" content?).ask .empty .seq

/-- What is offered by the contents of a variant with named fields. -/
def askStruct (content? : Option Input) : Decoding Offer := do
  let input ← content "struct variant" content?
  input.ask .empty input.structRequest

end Input

namespace ContentReader

/-- The names of the variants; a key must be one of them. -/
def keys (variants : List (String × ContentReader)) : Choices ContentReader where
  kind := "variant"
  choices := variants
  unknown key := .unknownVariant key (variants.map Prod.fst)
  otherwise := none

/-- Reads a variant with the reader that its name selects. -/
def readVariant (expected : String) (variants : List (String × ContentReader)) : Reader Item :=
  fun input => do
  match ← input.askVariant with
  | .variant name content? => do (← (keys variants).read name) content?
  | .other offer => offer.refuse expected

end ContentReader

end MessagePack
