import MessagePack.Codec.Basic

namespace MessagePack.Codec

/-- The value as it is. -/
def bare : Codec where
  encode := Encoder.value
  decode := Decoder.value

/-- The value behind a tag, as an array of the two. -/
def tagged : Codec where
  encode config v := do
    Encoder.arrayLen config 2
    Encoder.text config "tag"
    Encoder.value config v
  decode := do
    let len ← Decoder.arrayLen
    if len ≠ 2 then throw (.custom "not tagged")
    let tag ← Decoder.string
    if tag ≠ "tag" then throw (.custom "not tagged")
    Decoder.value

/-- One coordinate of a point as a bare integer. -/
def coordinate (config : Config) (v : Value) (name : String) : Encoding Unit :=
  match (v.get? name).bind Value.i64? with
  | some n => Encoder.int config n
  | none => throw (.custom ("point without " ++ name))

/-- The coordinates `x` and `y` as two bare integers. -/
def point : Codec where
  encode config v := do
    coordinate config v "x"
    coordinate config v "y"
  decode := do
    let x ← Decoder.i64
    let y ← Decoder.i64
    return .map [(.text "x", .ofInt64 x), (.text "y", .ofInt64 y)]

/-- Only the name of the value's category. -/
def category : Codec where
  encode config v := Encoder.text config v.category.name
  decode := do return .text (← Decoder.string)

/-- Refuses both ways. -/
def refusing : Codec where
  encode _ _ := throw (.unsupported "codec")
  decode := throw (.unsupported "codec")

end MessagePack.Codec
