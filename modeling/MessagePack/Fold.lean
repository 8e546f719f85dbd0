import MessagePack.Error
import MessagePack.Token

namespace MessagePack

/-- What a destination that takes anything makes of each thing it is offered. -/
structure Fold (α : Type) where
  bool : Bool → α
  unsigned : UInt64 → α
  signed : Int64 → α
  wide : Int → String → Except Error α
  f32 : UInt32 → α
  f64 : UInt64 → α
  text : String → α
  octets : List UInt8 → α
  unit : α
  absent : α
  present : α → α
  newtype : α → α
  seq : Option Nat → List α → α
  map : Option Nat → List (α × α) → α

namespace Fold

/-- Keeps what is said, as a value. Integers of 128 bits are none. -/
def value : Fold Value where
  bool := .bool
  unsigned := .ofUInt64
  signed := .ofInt64
  wide n type := .error (.invalidType (.wideInteger n type) "any encodable value")
  f32 := .f32
  f64 := .f64
  text := .text
  octets := .raw
  unit := .nil
  absent := .nil
  present v := v
  newtype v := v
  seq _ := .array
  map _ := .map

/-- Keeps nothing. -/
def ignored : Fold Unit where
  bool _ := ()
  unsigned _ := ()
  signed _ := ()
  wide _ _ := .ok ()
  f32 _ := ()
  f64 _ := ()
  text _ := ()
  octets _ := ()
  unit := ()
  absent := ()
  present _ := ()
  newtype _ := ()
  seq _ _ := ()
  map _ _ := ()

/-- Keeps everything as it was offered. -/
def token : Fold Token where
  bool := .bool
  unsigned := .unsigned
  signed := .signed
  wide n type := .ok (.wide n type)
  f32 := .f32
  f64 := .f64
  text := .text
  octets := .octets
  unit := .unit
  absent := .absent
  present := .present
  newtype := .newtype
  seq := .seq
  map := .map

/-- A raw is offered as text if it is UTF-8 and as bytes otherwise. -/
def raw (f : Fold α) (bytes : List UInt8) : α :=
  match Text.ofUtf8? bytes with
  | some s => f.text s
  | none => f.octets bytes

/-- An integer is offered as unsigned unless it is negative. -/
def int (f : Fold α) (n : Integer) : α :=
  match n.form with
  | .unsigned v => f.unsigned v
  | .negative v => f.signed v

end Fold

namespace Value

variable (f : Fold α)

mutual

def fold : Value → α
  | nil => f.unit
  | bool b => f.bool b
  | int n => f.int n
  | f32 bits => f.f32 bits
  | f64 bits => f.f64 bits
  | raw bytes => f.raw bytes
  | array items => f.seq items.length (foldItems items)
  | map entries => f.map entries.length (foldEntries entries)

def foldItems : List Value → List α
  | [] => []
  | v :: rest => fold v :: foldItems rest

def foldEntries : List (Value × Value) → List (α × α)
  | [] => []
  | (k, v) :: rest => (fold k, fold v) :: foldEntries rest

end

end Value

namespace Token

variable (f : Fold α)

mutual

def fold : Token → Except Error α
  | bool b => .ok (f.bool b)
  | unsigned n => .ok (f.unsigned n)
  | signed n => .ok (f.signed n)
  | wide n type => f.wide n type
  | f32 bits => .ok (f.f32 bits)
  | f64 bits => .ok (f.f64 bits)
  | text s => .ok (f.text s)
  | octets bytes => .ok (f.octets bytes)
  | unit => .ok f.unit
  | absent => .ok f.absent
  | present content => do return f.present (← fold content)
  | newtype content => do return f.newtype (← fold content)
  | seq hint items => do return f.seq hint (← foldItems items)
  | map hint entries => do return f.map hint (← foldEntries entries)

def foldItems : List Token → Except Error (List α)
  | [] => .ok []
  | t :: rest => do
    let a ← fold t
    return a :: (← foldItems rest)

def foldEntries : List (Token × Token) → Except Error (List (α × α))
  | [] => .ok []
  | (k, v) :: rest => do
    let a ← fold k
    let b ← fold v
    return (a, b) :: (← foldEntries rest)

end

end Token

end MessagePack
