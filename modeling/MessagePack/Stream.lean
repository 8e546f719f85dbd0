import MessagePack.Data.Encode
import MessagePack.Shape.Read

namespace MessagePack

/-- The bytes of some data, with the default registry and configuration. -/
def marshal (d : Data) : Except Error (List UInt8) :=
  Encoder.buffered (d.encode {} .default)

/-- The first thing of a type in some bytes, with the default registry and configuration. -/
def unmarshal (shape : Shape) (bytes : List UInt8) : Except Error Item :=
  Decoder.result (shape.read .default .wire) (.ofBytes bytes)

/-- A type read from a value in memory. -/
def Value.decode (v : Value) (shape : Shape) : Except Error Item :=
  Decoder.result (shape.read .empty (.tree v)) (.ofBytes [])

/-- A type read from a token. -/
def Token.decode (t : Token) (shape : Shape) : Except Error Item :=
  Decoder.result (shape.read .empty (.token t)) (.ofBytes [])

/-- The bytes of a value. -/
def Value.encode (config : Config) (v : Value) : Except Error (List UInt8) :=
  Encoder.buffered (Encoder.value config v)

end MessagePack
