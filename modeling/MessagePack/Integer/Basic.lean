import MessagePack.Float.Format
import MessagePack.Integer.Kind
import MessagePack.Wire.Element

namespace MessagePack

/-- An integer the format can carry, whatever tag it came under: anything from the least 64-bit
signed to the greatest 64-bit unsigned one. -/
structure Integer where
  val : Int
  ge : -9223372036854775808 ≤ val
  lt : val < 18446744073709551616
  deriving DecidableEq

namespace Integer

def ofInt? (n : Int) : Option Integer :=
  if h : -9223372036854775808 ≤ n ∧ n < 18446744073709551616 then some ⟨n, h.1, h.2⟩ else none

def ofUInt64 (n : UInt64) : Integer :=
  ⟨n.toNat, by omega, by have := n.toNat_lt; omega⟩

def ofInt64 (n : Int64) : Integer :=
  ⟨n.toInt, by have := n.le_toInt; omega, by have := n.toInt_lt; omega⟩

def min : Integer := ⟨-9223372036854775808, by decide, by decide⟩

def max : Integer := ⟨18446744073709551615, by decide, by decide⟩

instance : Inhabited Integer := ⟨⟨0, by decide, by decide⟩⟩

instance : Ord Integer := ⟨fun a b => compare a.val b.val⟩

def to? (kind : IntKind) (n : Integer) : Option Int :=
  if kind.contains n.val then some n.val else none

def i64? (n : Integer) : Option Int64 :=
  (n.to? .i64).map Int64.ofInt

def u64? (n : Integer) : Option UInt64 :=
  (n.to? .u64).map fun v => UInt64.ofNat v.toNat

/-- The form an integer takes on the wire: whatever has no sign is unsigned. -/
inductive Form where
  | unsigned (value : UInt64)
  | negative (value : Int64)

def form (n : Integer) : Form :=
  if n.val < 0 then .negative (Int64.ofInt n.val) else .unsigned (UInt64.ofNat n.val.toNat)

def category (n : Integer) : Wire.Category :=
  match n.form with
  | .unsigned _ => .unsignedInt
  | .negative _ => .signedInt

/-- The bits of the nearest double. -/
def double (n : Integer) : UInt64 :=
  Float.double n.val

def display (n : Integer) : String :=
  toString n.val

def debug (n : Integer) : String :=
  s!"Integer({n.val})"

/-- The list in ascending order. -/
def sort (list : List Integer) : List Integer :=
  list.mergeSort fun a b => a.val ≤ b.val

end Integer

end MessagePack
