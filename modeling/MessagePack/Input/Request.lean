import MessagePack.Integer.Kind

namespace MessagePack

/-- What a destination that wants no variant asks an input for. The input answers with what it has,
which need not be what was asked for. -/
inductive Request where
  | any
  | bool
  | int (kind : IntKind)
  | f32
  | f64
  | text
  | bytes
  | option
  | unit
  | unitStruct (name : String)
  | newtype (name : String)
  | seq
  | tuple
  | tupleStruct (name : String)
  | map
  | struct (name : String) (fields : List String)
  | identifier
  | ignored

/-- What a destination asks the contents of a variant for. -/
inductive ContentKind where
  | unit
  | newtype
  | tuple
  | struct
  deriving DecidableEq, Repr

/-- The type name that a registry may have a codec for. -/
def Request.typeName? : Request → Option String
  | unitStruct name | newtype name | tupleStruct name | struct name _ => some name
  | _ => none

end MessagePack
