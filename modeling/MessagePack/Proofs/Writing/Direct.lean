import MessagePack.Proofs.Writing.Stable

namespace MessagePack

/-- The encoding is put together from single offers of bytes to the sink, and hands on the failure
of any of them: what it does next may depend on anything but the sink. -/
inductive Encoding.Direct : {α : Type} → Encoding α → Prop
  | pure {α : Type} (a : α) : Direct (Pure.pure a)
  | throw {α : Type} (e : Error) : Direct (MonadExcept.throw e : Encoding α)
  | write (data : List UInt8) : Direct (Encoder.write data)
  | bind {α β : Type} {first : Encoding α} {next : α → Encoding β} (head : Direct first)
      (tail : ∀ a, Direct (next a)) : Direct (first >>= next)

theorem Encoding.Direct.stable : Stable Direct where
  nothing := .pure ()
  throw := .throw
  write := .write
  seq h h' := .bind h fun _ => h'

/-- Whatever the codec is handed it writes by single offers. -/
def Codec.Direct (codec : Codec) : Prop :=
  ∀ config v, Encoding.Direct (codec.encode config v)

def Registry.Direct (registry : Registry) : Prop :=
  ∀ name codec, registry.get? name = some codec → codec.Direct

theorem Registry.direct_default : Registry.default.Direct :=
  respects_default Encoding.Direct.stable

/-- Data is written by single offers, whatever its types, as far as the codecs keep to that. -/
theorem Data.encode_direct (config : Config) {registry : Registry} (hregistry : registry.Direct)
    (d : Data) : Encoding.Direct (d.encode config registry) :=
  d.encode_stable config Encoding.Direct.stable hregistry

end MessagePack
