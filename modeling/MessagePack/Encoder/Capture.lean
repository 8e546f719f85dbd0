import MessagePack.Codec.Basic

namespace MessagePack.Encoder

/-- Writes to the side and reads the first element back as a value. -/
def capture (encoding : Encoding Unit) : Except Error Value := do
  let bytes ← buffered encoding
  Decoder.result Decoder.value (.new (.ofBytes bytes) { maxDepth := unlimitedDepth })

/-- Hands a captured value to a codec. -/
def through (codec : Codec) (config : Config) : Except Error Value → Encoding Unit
  | .ok v => codec.encode config v
  | .error e => throw e

/-- The newtype name under which pre-encoded bytes are written as they are. -/
def coderName : String := "rawpack::Coder"

/-- Writes pre-encoded bytes, which must have been captured as a raw. -/
def verbatim : Except Error Value → Encoding Unit
  | .ok (.raw bytes) => write bytes
  | .ok v => throw (.rejected (.preencoded v.category))
  | .error e => throw e

/-- Bytes written to the side, after a header for what they turned out to hold. -/
def afterwards (header : Encoding Unit) : Except Error (List UInt8) → Encoding Unit
  | .ok body => do
    header
    if body.isEmpty then pure () else write body
  | .error e => throw e

/-- The bytes of something that writes them itself, as a newtype of pre-encoded bytes. -/
def coder (config : Config) (encoding : Encoding Unit) : Encoding Unit :=
  match buffered encoding with
  | .ok body => verbatim (capture (bytes config body))
  | .error e => throw (.custom e.message)

end MessagePack.Encoder
