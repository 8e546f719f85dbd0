import MessagePack.Value.Basic

namespace MessagePack.Value

def isNil (v : Value) : Bool := v matches nil

def isBool (v : Value) : Bool := v matches bool _

def isInt (v : Value) : Bool := v matches int _

def isRaw (v : Value) : Bool := v matches raw _

def isArray (v : Value) : Bool := v matches array _

def isMap (v : Value) : Bool := v matches map _

def bool? : Value → Option Bool
  | bool b => some b
  | _ => none

def int? : Value → Option Integer
  | int n => some n
  | _ => none

def i64? (v : Value) : Option Int64 :=
  v.int?.bind Integer.i64?

def u64? (v : Value) : Option UInt64 :=
  v.int?.bind Integer.u64?

/-- The integer, if it lies in the range of the kind. -/
def kind? (kind : IntKind) (v : Value) : Option Int :=
  v.int?.bind (Integer.to? kind)

def f32? : Value → Option UInt32
  | f32 bits => some bits
  | _ => none

/-- The double, a single being widened. -/
def f64? : Value → Option UInt64
  | f32 bits => some (Float.widen bits)
  | f64 bits => some bits
  | _ => none

def exactF64? : Value → Option UInt64
  | f64 bits => some bits
  | _ => none

def raw? : Value → Option (List UInt8)
  | raw bytes => some bytes
  | _ => none

/-- The raw as text, if it is UTF-8. -/
def text? (v : Value) : Option String :=
  v.raw?.bind Text.ofUtf8?

def array? : Value → Option (List Value)
  | array items => some items
  | _ => none

def map? : Value → Option (List (Value × Value))
  | map entries => some entries
  | _ => none

/-- The value of the first entry whose key is a raw with the bytes of `key`. -/
def get? (v : Value) (key : String) : Option Value :=
  v.map?.bind fun entries =>
    (entries.find? fun entry => entry.1.raw? == some (Text.utf8 key)).map Prod.snd

/-- The value under a key, or nil. -/
def get (v : Value) (key : String) : Value :=
  (v.get? key).getD nil

/-- The item at a position, or nil. -/
def item (v : Value) (i : Nat) : Value :=
  (v.array?.bind (·[i]?)).getD nil

/-- The value with the items of an array replaced; anything else has none and stays. -/
def modifyItems (f : List Value → List Value) : Value → Value
  | array items => array (f items)
  | v => v

/-- The value with the entries of a map replaced; anything else has none and stays. -/
def modifyEntries (f : List (Value × Value) → List (Value × Value)) : Value → Value
  | map entries => map (f entries)
  | v => v

end MessagePack.Value
