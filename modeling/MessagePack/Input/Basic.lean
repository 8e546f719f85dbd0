import MessagePack.Error
import MessagePack.Fields
import MessagePack.Token

namespace MessagePack

/-- Where a destination reads from: the session itself, a value in memory, or a token that is
offered whatever the destination asks for. -/
inductive Input where
  | wire
  | tree (v : Value)
  | token (t : Token)

/-- The items of a sequence that are still to be read. -/
inductive Items where
  | wire (left total : Nat)
  | tree (taken : Nat) (rest : List Value)
  | bytes (taken : Nat) (rest : List UInt8)
  | tokens (hint : Option Nat) (rest : List Token)

namespace Items

/-- How many items are left. -/
def left : Items → Nat
  | wire left _ => left
  | tree _ rest => rest.length
  | bytes _ rest => rest.length
  | tokens _ rest => rest.length

/-- The number of items that the sequence says are left. -/
def hint : Items → Option Nat
  | tokens hint _ => hint
  | items => some items.left

/-- The next item and the ones after it. -/
def next : Items → Option (Input × Items)
  | wire (left + 1) total => some (.wire, wire left total)
  | tree taken (v :: rest) => some (.tree v, tree (taken + 1) rest)
  | bytes taken (b :: rest) => some (.token (.unsigned b.toUInt64), bytes (taken + 1) rest)
  | tokens hint (t :: rest) => some (.token t, tokens (hint.map (· - 1)) rest)
  | _ => none

end Items

/-- The entries of a map that are still to be read. Those of a structure on the wire come with the
table of its fields. -/
inductive Entries where
  | wire (left total : Nat) (fields : Option Fields)
  | tree (taken : Nat) (rest : List (Value × Value))
  | tokens (hint : Option Nat) (rest : List (Token × Token))

namespace Entries

def left : Entries → Nat
  | wire left _ _ => left
  | tree _ rest => rest.length
  | tokens _ rest => rest.length

def hint : Entries → Option Nat
  | tokens hint _ => hint
  | entries => some entries.left

end Entries

/-- What an input offers to a destination: one thing, with the inputs for what is inside it. -/
inductive Offer where
  | bool (value : Bool)
  | unsigned (value : UInt64)
  | signed (value : Int64)
  | wide (value : Int) (type : String)
  | f32 (bits : UInt32)
  | f64 (bits : UInt64)
  | text (s : String)
  | octets (bytes : List UInt8)
  | unit
  | absent
  | present (content : Input)
  | newtype (content : Input)
  | seq (items : Items)
  | map (entries : Entries)

/-- What an input offers to a destination that wants a variant. -/
inductive VariantOffer where
  /-- Where the name is read, and where the contents are if there are any. -/
  | variant (name : Input) (content : Option Input)
  | other (offer : Offer)

def Token.offer : Token → Offer
  | bool b => .bool b
  | unsigned n => .unsigned n
  | signed n => .signed n
  | wide n type => .wide n type
  | f32 bits => .f32 bits
  | f64 bits => .f64 bits
  | text s => .text s
  | octets bytes => .octets bytes
  | unit => .unit
  | absent => .absent
  | present content => .present (.token content)
  | newtype content => .newtype (.token content)
  | seq hint items => .seq (.tokens hint items)
  | map hint entries => .map (.tokens hint entries)

/-- How an offer is spoken of in an error. -/
def Offer.found : Offer → Found
  | bool b => .bool b
  | unsigned n => .integer n.toNat
  | signed n => .integer n.toInt
  | wide n type => .wideInteger n type
  | f32 bits => .float (Float.widen bits)
  | f64 bits => .float bits
  | text s => .text s
  | octets _ => .octets
  | unit => .unit
  | absent | present _ => .option
  | newtype _ => .newtypeStruct
  | seq _ => .sequence
  | map _ => .map

end MessagePack
