import MessagePack.Integer.Kind
import MessagePack.Timestamp.Basic
import MessagePack.Token

namespace MessagePack

/-- What a destination has read. -/
inductive Item where
  | bool (value : Bool)
  | int (kind : IntKind) (n : Int)
  | f32 (bits : UInt32)
  | f64 (bits : UInt64)
  | char (c : Char)
  | text (s : String)
  | bytes (data : List UInt8)
  | unit
  | ignored
  | human (isReadable : Bool)
  | value (v : Value)
  | integer (n : Integer)
  | timestamp (t : Timestamp)
  | absent
  | present (content : Item)
  | seq (items : List Item)
  | map (entries : List (Item × Item))
  | tuple (items : List Item)
  | tupleStruct (name : String) (items : List Item)
  | unitStruct (name : String)
  | newtype (name : String) (content : Item)
  | struct (name : String) (fields : List (String × Item))
  | unitVariant (type variant : String)
  | newtypeVariant (type variant : String) (content : Item)
  | tupleVariant (type variant : String) (items : List Item)
  | structVariant (type variant : String) (fields : List (String × Item))
  /-- What was offered to a destination that takes anything. -/
  | offered (t : Token)
  | offeredVariant (name : Token) (content : Option Token)

end MessagePack
