namespace MessagePack.Wire

/-- The lowest `width` bytes of a number, most significant first. -/
def bigEndian : Nat → Nat → List UInt8
  | 0, _ => []
  | width + 1, n => UInt8.ofNat (n >>> (8 * width)) :: bigEndian width n

/-- The number that a byte string spells, most significant byte first. -/
def ofBigEndian (bytes : List UInt8) : Nat :=
  bytes.foldl (fun n b => 256 * n + b.toNat) 0

/-- The two's complement reading of a `width`-byte number. -/
def signed (width n : Nat) : Int :=
  Int.bmod n (1 <<< (8 * width))

/-- The two's complement spelling of an integer in `width` bytes. -/
def unsigned (width : Nat) (v : Int) : Nat :=
  (v % (1 <<< (8 * width) : Nat)).toNat

theorem bigEndian_length (width n : Nat) : (bigEndian width n).length = width := by
  induction width with
  | zero => rfl
  | succ width ih => simp [bigEndian, ih]

end MessagePack.Wire
