import MessagePack.Input.Content
import MessagePack.Input.Entries

namespace MessagePack

/-- What was offered, and everything inside it. -/
def Offer.token : Offer → Decoding Token
  | bool b => return .bool b
  | unsigned n => return .unsigned n
  | signed n => return .signed n
  | wide n type => return .wide n type
  | f32 bits => return .f32 bits
  | f64 bits => return .f64 bits
  | text s => return .text s
  | octets bytes => return .octets bytes
  | unit => return .unit
  | absent => return .absent
  | present content => return .present (← content.fold .token)
  | newtype content => return .newtype (← content.fold .token)
  | seq items => return .seq items.hint (← items.readAll (·.fold .token))
  | map entries =>
    return .map entries.hint (← entries.readAll (·.fold .token) (·.fold .token))

/-- The contents of a variant as they are offered. -/
def ContentKind.probe : ContentKind → Option Input → Decoding (Option Token)
  | unit, content? => do
    Input.noContent content?
    return none
  | newtype, content? => do
    return some (← (← Input.content "newtype variant" content?).fold .token)
  | tuple, content? => do return some (← (← Input.askTuple content?).token)
  | struct, content? => do return some (← (← Input.askStruct content?).token)

/-- What a destination that wants a variant is offered. -/
def VariantOffer.probe (kind : ContentKind) : VariantOffer → Decoding Item
  | variant name content? => do
    let name ← name.fold .token
    return .offeredVariant name (← kind.probe content?)
  | other offer => return .offered (← offer.token)

end MessagePack
