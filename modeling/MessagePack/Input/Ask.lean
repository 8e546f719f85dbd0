import MessagePack.Decoder.Fold
import MessagePack.Decoder.Offer
import MessagePack.Registry
import MessagePack.Value.Offer

namespace MessagePack.Input

/-- What an input offers on a request. On the wire, a type that the registry knows is read by its
codec, and the value that gives answers the request. -/
def ask (registry : Registry) (request : Request) : Input → Decoding Offer
  | wire =>
    match request.typeName?.bind registry.get? with
    | some codec => do .ofExcept ((← codec.decode).offer request)
    | none => Decoder.offer request
  | tree v => .ofExcept (v.offer request)
  | token t => pure t.offer

/-- What an input offers to a destination that wants a variant. -/
def askVariant : Input → Decoding VariantOffer
  | wire => Decoder.offerVariant
  | tree v => .ofExcept v.offerVariant
  | token t => pure (.other t.offer)

/-- Reads an input whole, whatever it is. -/
def fold (f : Fold α) : Input → Decoding α
  | wire => Decoder.fold f
  | tree v => pure (v.fold f)
  | token t => .ofExcept (t.fold f)

/-- Only the session itself says that its format is not meant for people. -/
def isHumanReadable : Input → Bool
  | wire => false
  | _ => true

end MessagePack.Input
