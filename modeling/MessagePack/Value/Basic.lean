import MessagePack.Integer.Basic
import MessagePack.Text.Utf8

namespace MessagePack

/-- Anything one element and its contents can say. Entries of a map keep their order, and a key may
come twice. -/
inductive Value where
  | nil
  | bool (value : Bool)
  | int (value : Integer)
  | f32 (bits : UInt32)
  | f64 (bits : UInt64)
  | raw (bytes : List UInt8)
  | array (items : List Value)
  | map (entries : List (Value × Value))

namespace Value

instance : Inhabited Value := ⟨nil⟩

def category : Value → Wire.Category
  | nil => .nil
  | bool _ => .bool
  | int n => n.category
  | f32 _ => .float32
  | f64 _ => .float64
  | raw _ => .raw
  | array _ => .array
  | map _ => .map

def text (s : String) : Value :=
  raw (Text.utf8 s)

def ofUInt64 (n : UInt64) : Value :=
  int (.ofUInt64 n)

def ofInt64 (n : Int64) : Value :=
  int (.ofInt64 n)

mutual

/-- How deep containers nest: 0 for a scalar, one more than the deepest content for a container. -/
def height : Value → Nat
  | array items => heights items + 1
  | map entries => entryHeights entries + 1
  | _ => 0

def heights : List Value → Nat
  | [] => 0
  | v :: rest => max v.height (heights rest)

def entryHeights : List (Value × Value) → Nat
  | [] => 0
  | (k, v) :: rest => max (max k.height v.height) (entryHeights rest)

end

mutual

/-- Equality of what is said: floats of one width compare as numbers, so a NaN equals nothing. -/
def equal : Value → Value → Bool
  | nil, nil => true
  | bool a, bool b => a == b
  | int a, int b => a == b
  | f32 a, f32 b => Float.Format.single.equal a.toNat b.toNat
  | f64 a, f64 b => Float.Format.double.equal a.toNat b.toNat
  | raw a, raw b => a == b
  | array a, array b => equalItems a b
  | map a, map b => equalEntries a b
  | _, _ => false

def equalItems : List Value → List Value → Bool
  | [], [] => true
  | a :: as, b :: bs => equal a b && equalItems as bs
  | _, _ => false

def equalEntries : List (Value × Value) → List (Value × Value) → Bool
  | [], [] => true
  | (k, v) :: as, (l, w) :: bs => equal k l && equal v w && equalEntries as bs
  | _, _ => false

end

end Value

end MessagePack
