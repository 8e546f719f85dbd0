import MessagePack.Wire.BigEndian
import Mathlib.Tactic.Common
import Mathlib.Tactic.Ring

namespace MessagePack.Wire

private theorem one_shiftLeft (width : Nat) : 1 <<< (8 * width) = 256 ^ width := by
  rw [Nat.one_shiftLeft, Nat.pow_mul]

theorem bigEndian_succ (width n : Nat) :
    bigEndian (width + 1) n = UInt8.ofNat (n / 256 ^ width) :: bigEndian width n := by
  rw [bigEndian, Nat.shiftRight_eq_div_pow, Nat.pow_mul]

theorem signed_eq (width n : Nat) : signed width n = Int.bmod n (256 ^ width) := by
  rw [signed, one_shiftLeft]

theorem unsigned_eq (width : Nat) (v : Int) :
    unsigned width v = (v % (256 ^ width : Nat)).toNat := by
  rw [unsigned, one_shiftLeft]

private theorem foldl_bytes (bytes : List UInt8) (n : Nat) :
    bytes.foldl (fun n b => 256 * n + b.toNat) n = n * 256 ^ bytes.length + ofBigEndian bytes := by
  induction bytes generalizing n with
  | nil => simp [ofBigEndian]
  | cons b bytes ih =>
    simp only [ofBigEndian, List.foldl_cons, List.length_cons]
    rw [ih, ih (256 * 0 + b.toNat)]
    ring

theorem ofBigEndian_cons (b : UInt8) (bytes : List UInt8) :
    ofBigEndian (b :: bytes) = b.toNat * 256 ^ bytes.length + ofBigEndian bytes := by
  have h := foldl_bytes bytes (256 * 0 + b.toNat)
  simpa [ofBigEndian] using h

theorem ofBigEndian_lt (bytes : List UInt8) : ofBigEndian bytes < 256 ^ bytes.length := by
  induction bytes with
  | nil => simp [ofBigEndian]
  | cons b bytes ih =>
    have hb : b.toNat + 1 ≤ 256 := b.toNat_lt
    have hmul := Nat.mul_le_mul_right (256 ^ bytes.length) hb
    rw [ofBigEndian_cons, List.length_cons, Nat.pow_succ]
    rw [Nat.add_mul, Nat.one_mul] at hmul
    omega

/-- A field holds the number modulo what its width can tell apart. -/
theorem ofBigEndian_bigEndian (width n : Nat) :
    ofBigEndian (bigEndian width n) = n % 256 ^ width := by
  induction width with
  | zero => simp [bigEndian, ofBigEndian, Nat.mod_one]
  | succ width ih =>
    rw [bigEndian_succ, ofBigEndian_cons, bigEndian_length, ih, Nat.pow_succ]
    rw [UInt8.toNat_ofNat', Nat.mod_mul, Nat.mul_comm, Nat.add_comm]

theorem ofBigEndian_bigEndian_of_lt {width n : Nat} (h : n < 256 ^ width) :
    ofBigEndian (bigEndian width n) = n := by
  rw [ofBigEndian_bigEndian, Nat.mod_eq_of_lt h]

private theorem bigEndian_add_mul (width n m : Nat) :
    bigEndian width (m * 256 ^ width + n) = bigEndian width n := by
  induction width generalizing m with
  | zero => rfl
  | succ width ih =>
    have hsplit : m * 256 ^ (width + 1) + n = m * 256 * 256 ^ width + n := by
      rw [Nat.pow_succ]; ring
    have hpos : 0 < 256 ^ width := Nat.pow_pos (by decide)
    have hdiv : (m * 256 * 256 ^ width + n) / 256 ^ width = m * 256 + n / 256 ^ width := by
      rw [Nat.add_comm, Nat.add_mul_div_right _ _ hpos, Nat.add_comm]
    rw [bigEndian_succ, bigEndian_succ, hsplit, ih, hdiv]
    congr 1
    apply UInt8.toNat.inj
    simp only [UInt8.toNat_ofNat']
    omega

/-- Every field of a width is the big-endian form of the number it spells. -/
theorem bigEndian_ofBigEndian (bytes : List UInt8) :
    bigEndian bytes.length (ofBigEndian bytes) = bytes := by
  induction bytes with
  | nil => rfl
  | cons b bytes ih =>
    have hlt := ofBigEndian_lt bytes
    have hpos : 0 < 256 ^ bytes.length := Nat.pow_pos (by decide)
    have hdiv : (b.toNat * 256 ^ bytes.length + ofBigEndian bytes) / 256 ^ bytes.length =
        b.toNat := by
      rw [Nat.add_comm, Nat.add_mul_div_right _ _ hpos, Nat.div_eq_of_lt hlt, Nat.zero_add]
    rw [ofBigEndian_cons, List.length_cons, bigEndian_succ, bigEndian_add_mul, ih, hdiv]
    simp

theorem unsigned_lt (width : Nat) (v : Int) : unsigned width v < 256 ^ width := by
  have hpos : (0 : Int) < (256 ^ width : Nat) := by exact_mod_cast Nat.pow_pos (by decide)
  have hlt := Int.emod_lt_of_pos v hpos
  have hnonneg := Int.emod_nonneg v (Int.ne_of_gt hpos)
  rw [unsigned_eq]
  omega

theorem signed_unsigned {width : Nat} {v : Int} (hge : -(256 ^ width : Nat) ≤ 2 * v)
    (hlt : 2 * v < (256 ^ width : Nat)) : signed width (unsigned width v) = v := by
  have hpos : (0 : Int) < (256 ^ width : Nat) := by exact_mod_cast Nat.pow_pos (by decide)
  have hnonneg := Int.emod_nonneg v (Int.ne_of_gt hpos)
  rw [signed_eq, unsigned_eq, Int.toNat_of_nonneg hnonneg, Int.emod_bmod]
  exact Int.bmod_eq_of_le_mul_two (by omega) (by omega)

theorem unsigned_signed {width n : Nat} (h : n < 256 ^ width) :
    unsigned width (signed width n) = n := by
  rw [signed_eq, unsigned_eq, Int.bmod_emod, Int.emod_eq_of_lt (by omega) (by exact_mod_cast h),
    Int.toNat_natCast]

theorem signed_range {width : Nat} (hw : 0 < width) (n : Nat) :
    -(256 ^ width : Nat) ≤ 2 * signed width n ∧ 2 * signed width n < (256 ^ width : Nat) := by
  have hpos : 0 < 256 ^ width := Nat.pow_pos (by decide)
  have heven : 256 ^ width % 2 = 0 := by
    obtain ⟨k, rfl⟩ : ∃ k, width = k + 1 := ⟨width - 1, by omega⟩
    rw [Nat.pow_succ]
    omega
  have hge := Int.le_bmod (x := n) hpos
  have hlt := Int.bmod_lt (x := n) hpos
  rw [signed_eq]
  omega

end MessagePack.Wire
