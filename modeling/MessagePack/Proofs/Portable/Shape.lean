import MessagePack.Proofs.Parallel.Shape
import MessagePack.Proofs.Portable.Basic
import MessagePack.Proofs.Registry.Register

namespace MessagePack

open Decoding Decoder

variable {loose : Prop}

/-- The codec makes the same of the same elements wherever they stand. -/
def Codec.Portable (loose : Prop) (codec : Codec) : Prop := Decoding.Portable loose codec.decode

/-- Every codec of the registry is such a codec. -/
def Registry.Portable (loose : Prop) (registry : Registry) : Prop :=
  ∀ name codec, registry.get? name = some codec → codec.Portable loose

/-- The codec for timestamps reads two integers, one after the other. -/
theorem Codec.portable_timestamp : timestamp.Portable loose :=
  (Parallel.map (time_parallel trivial)).portable

namespace Registry

theorem portable_empty : Registry.empty.Portable loose := nofun

theorem Portable.register {registry : Registry} (h : registry.Portable loose) (name : String)
    {codec : Codec} (hcodec : codec.Portable loose) :
    (registry.register name codec).Portable loose :=
  forall_register h name hcodec

theorem portable_default : Registry.default.Portable loose :=
  portable_empty.register _ Codec.portable_timestamp

end Registry

/-- Whatever type is read, its elements may stand anywhere. Where the form of integers does not
count, no part of the type may take whatever it is offered. -/
theorem Shape.read_portable {registry : Registry} (hregistry : registry.Portable loose)
    (shape : Shape) (h : loose → shape.Plain) (input : Input) :
    Portable loose (shape.read registry input) := by
  have hcodecs : registry.Parallel (.portable loose) := hregistry
  exact (shape.read_parallel hcodecs h input (.inl trivial)).portable

end MessagePack
