import MessagePack.Decoder.Fold
import MessagePack.Encoder.Basic
import MessagePack.Value.Access

namespace MessagePack

/-- A pair of functions that take over how the values of one named type are written and read. -/
structure Codec where
  encode : Config → Value → Encoding Unit
  decode : Decoding Value

namespace Codec

/-- What is shown of any codec, whose functions have no text. -/
def display : String := "Entry \x7b .. \x7d"

/-- Two bare integers for the seconds and the nanoseconds. -/
def timestamp : Codec where
  encode config
    | .array [sec, nsec] =>
      match sec.i64?, nsec.i64? with
      | some sec, some nsec => Encoder.time config (.new sec nsec)
      | _, _ => throw (.custom "timestamp must be a pair of integers")
    | _ => throw (.custom "timestamp must be a pair of integers")
  decode := do
    let t ← Decoder.time
    return .array [.ofInt64 t.seconds, .ofUInt64 (UInt64.ofNat t.nanos)]

end Codec

end MessagePack
