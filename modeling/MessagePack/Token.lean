import MessagePack.Value.Basic

namespace MessagePack

/-- One thing offered to a destination, with everything inside it. A sequence or map may say
beforehand how long it is. -/
inductive Token where
  | bool (value : Bool)
  | unsigned (value : UInt64)
  | signed (value : Int64)
  | wide (value : Int) (type : String)
  | f32 (bits : UInt32)
  | f64 (bits : UInt64)
  | text (s : String)
  | octets (bytes : List UInt8)
  | unit
  | absent
  | present (content : Token)
  | newtype (content : Token)
  | seq (hint : Option Nat) (items : List Token)
  | map (hint : Option Nat) (entries : List (Token × Token))

end MessagePack
