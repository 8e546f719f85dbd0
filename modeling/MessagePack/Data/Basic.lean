import MessagePack.Encoder.Basic
import MessagePack.Integer.Kind

namespace MessagePack

/-- What is to be written, in the terms of the types it comes from. A sequence or map announces its
length when it starts, if it knows it; `collectSeq` and `collectMap` are given their contents with
an exact length hint or without one. A `coder` node writes its own bytes. -/
inductive Data where
  | bool (value : Bool)
  | int (kind : IntKind) (n : Int)
  | f32 (bits : UInt32)
  | f64 (bits : UInt64)
  | char (c : Char)
  | text (s : String)
  | bytes (data : List UInt8)
  | unit
  | absent
  | present (content : Data)
  /-- Asks whether the format is meant for people, and writes the answer. -/
  | human
  | value (v : Value)
  | integer (n : Integer)
  | timestamp (t : Timestamp)
  | seq (len : Option Nat) (items : List Data)
  | map (len : Option Nat) (entries : List (Data × Data))
  | collectSeq (hint : Option Nat) (items : List Data)
  | collectMap (hint : Option Nat) (entries : List (Data × Data))
  | tuple (items : List Data)
  | tupleStruct (name : String) (items : List Data)
  | unitStruct (name : String)
  | newtype (name : String) (content : Data)
  | struct (name : String) (fields : List (String × Data))
  | unitVariant (type variant : String)
  | newtypeVariant (type variant : String) (content : Data)
  | tupleVariant (type variant : String) (items : List Data)
  | structVariant (type variant : String) (fields : List (String × Data))
  | coder (write : Encoding Unit)

namespace Data

/-- A sequence that announces its length. -/
def list (items : List Data) : Data := seq items.length items

/-- A map that announces its length. -/
def dict (entries : List (Data × Data)) : Data := map entries.length entries

end Data

end MessagePack
