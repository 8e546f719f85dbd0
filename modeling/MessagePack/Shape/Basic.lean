import MessagePack.Input.Request

namespace MessagePack

mutual

/-- A type to read: what it asks for and what it takes. -/
inductive Shape where
  | bool
  | int (kind : IntKind)
  | f32
  | f64
  | char
  | text
  | bytes
  | unit
  | ignored
  /-- Reads nothing, and answers whether the format is meant for people. -/
  | human
  | value
  | integer
  | timestamp
  | option (content : Shape)
  | seq (item : Shape)
  | map (key item : Shape)
  /-- A map of which at most `count` entries are read. -/
  | mapPart (count : Nat) (key item : Shape)
  | tuple (items : List Shape)
  | tupleStruct (name : String) (items : List Shape)
  | unitStruct (name : String)
  | newtype (name : String) (content : Shape)
  /-- A strict structure refuses the fields it does not know. -/
  | struct (name : String) (fields : List (String × Shape)) (strict : Bool)
  | enumeration (name : String) (variants : List (String × Content))
  /-- Asks, takes whatever it is offered and answers what that was. -/
  | probe (request : Request)
  | probeVariant (kind : ContentKind)

/-- What a variant carries. -/
inductive Content where
  | unit
  | newtype (content : Shape)
  | tuple (items : List Shape)
  | struct (fields : List (String × Shape))

end

namespace Shape

/-- A field of such a type may be missing. -/
def isOption : Shape → Bool
  | option _ => true
  | _ => false

end Shape

end MessagePack
