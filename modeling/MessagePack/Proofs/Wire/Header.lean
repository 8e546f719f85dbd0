import MessagePack.Proofs.Wire.Forest
import MessagePack.Proofs.Wire.IsHeader

namespace MessagePack.Wire

/-- What the header written for an element announces: a number that is written in an unsigned form
comes back as one without a sign. -/
def Element.announced (policy : IntPolicy) : Element → Element
  | int v =>
    if 0 ≤ v.toInt ∧ (policy = .compact ∨ v.toInt < 128) then uint v.toUInt64 else int v
  | e => e

theorem isHeader_uintHeader (v : UInt64) : IsHeader (.uint v) (uintHeader v) := by
  have hwide (marker : Marker) (form : (marker.toByte, marker.fieldWidth) ∈
      [((0xcc : UInt8), 1), (0xcd, 2), (0xce, 4), (0xcf, 8)])
      (h : v.toNat < 256 ^ marker.fieldWidth) : IsHeader (.uint v) (header marker v.toNat) := by
    have huint := IsHeader.uint form h
    rwa [UInt64.ofNat_toNat] at huint
  unfold uintHeader
  split_ifs with h1 h2 h3 h4
  · have hpos := IsHeader.posInt (n := v.toNat) (UInt64.lt_iff_toNat_lt.mp h1)
    rw [UInt64.ofNat_toNat] at hpos
    exact hpos
  · apply hwide .uint8 (by decide)
    exact UInt64.lt_iff_toNat_lt.mp h2
  · apply hwide .uint16 (by decide)
    exact UInt64.lt_iff_toNat_lt.mp h3
  · apply hwide .uint32 (by decide)
    exact UInt64.lt_iff_toNat_lt.mp h4
  · apply hwide .uint64 (by decide)
    exact v.toNat_lt

theorem toNat_toUInt64_of_nonneg {v : Int64} (h : 0 ≤ v.toInt) :
    v.toUInt64.toNat = v.toInt.toNat := by
  have hle : 0 ≤ v := Int64.le_iff_toInt_le.mpr h
  rw [Int64.toNat_toUInt64_of_le hle, Int64.toNat_toInt]

/-- The element of an integer carries the same number, with a sign or without one. -/
theorem announced_int (policy : IntPolicy) (v : Int64) :
    (Element.int v).announced policy = .int v ∨
      ∃ u : UInt64, (Element.int v).announced policy = .uint u ∧ (u.toNat : Int) = v.toInt := by
  simp only [Element.announced]
  split_ifs with h
  · have hnat := toNat_toUInt64_of_nonneg h.1
    exact .inr ⟨v.toUInt64, rfl, by omega⟩
  · exact .inl rfl

@[simp] theorem isContainer_announced (policy : IntPolicy) (e : Element) :
    (e.announced policy).isContainer = e.isContainer := by
  cases e with
  | int v =>
    rcases announced_int policy v with h | ⟨u, h, -⟩
    · rw [h]
    · rw [h]
      rfl
  | _ => rfl

/-- The tag that holds a small number is its only byte. -/
private theorem isHeader_inline {v : Int64} (hge : -32 ≤ v.toInt) (hlt : v.toInt < 128) :
    IsHeader (if 0 ≤ v.toInt then .uint v.toUInt64 else .int v)
      [UInt8.ofNat (unsigned 1 v.toInt)] := by
  by_cases h : 0 ≤ v.toInt
  · have hnum : unsigned 1 v.toInt = v.toInt.toNat := by
      rw [unsigned_eq]
      omega
    have hpos := IsHeader.posInt (n := v.toInt.toNat) (by omega)
    rw [if_pos h, hnum]
    rwa [← toNat_toUInt64_of_nonneg h, UInt64.ofNat_toNat, toNat_toUInt64_of_nonneg h] at hpos
  · have hnum : unsigned 1 v.toInt = 0xe0 + (v.toInt + 32).toNat := by
      rw [unsigned_eq]
      omega
    have hback : (((v.toInt + 32).toNat : Nat) : Int) - 32 = v.toInt := by omega
    have hneg := IsHeader.negInt (n := (v.toInt + 32).toNat) (by omega)
    rw [if_neg h, hnum]
    rwa [hback, Int64.ofInt_toInt] at hneg

theorem isHeader_intHeader (policy : IntPolicy) (v : Int64) :
    IsHeader ((Element.int v).announced policy) (intHeader policy v) := by
  have hge := v.le_toInt
  have hlt := v.toInt_lt
  have hwide (marker : Marker) (form : (marker.toByte, marker.fieldWidth) ∈
      [((0xd0 : UInt8), 1), (0xd1, 2), (0xd2, 4), (0xd3, 8)])
      (ge : -(256 ^ marker.fieldWidth : Nat) ≤ 2 * v.toInt)
      (lt : 2 * v.toInt < (256 ^ marker.fieldWidth : Nat)) :
      IsHeader (.int v) (header marker (unsigned marker.fieldWidth v.toInt)) := by
    have hint := IsHeader.int form ge lt
    rwa [Int64.ofInt_toInt] at hint
  simp only [intHeader, Element.announced]
  by_cases hcompact : policy = .compact ∧ 0 ≤ v.toInt
  · rw [if_pos hcompact, if_pos ⟨hcompact.2, .inl hcompact.1⟩]
    exact isHeader_uintHeader _
  · rw [if_neg hcompact]
    by_cases hinline : -32 ≤ v.toInt ∧ v.toInt < 128
    · have hsame : (0 ≤ v.toInt ∧ (policy = .compact ∨ v.toInt < 128)) ↔ 0 ≤ v.toInt :=
        ⟨And.left, fun h => ⟨h, .inr hinline.2⟩⟩
      have h64 : ¬(v.toInt < -2147483648 ∨ 2147483648 ≤ v.toInt) := by omega
      have h32 : ¬(v.toInt < -32768 ∨ 32768 ≤ v.toInt) := by omega
      have h16 : ¬(v.toInt < -128 ∨ 128 ≤ v.toInt) := by omega
      have h8 : ¬v.toInt < -32 := by omega
      simp only [if_neg h64, if_neg h32, if_neg h16, if_neg h8, hsame]
      exact isHeader_inline hinline.1 hinline.2
    · have hsigned : ¬(0 ≤ v.toInt ∧ (policy = .compact ∨ v.toInt < 128)) := by
        intro h
        have hlow := h.2.resolve_left fun heq => hcompact ⟨heq, h.1⟩
        omega
      rw [if_neg hsigned]
      split_ifs with h1 h2 h3 h4
      · apply hwide .int64 (by decide) <;> simp only [Marker.fieldWidth] <;> omega
      · apply hwide .int32 (by decide) <;> simp only [Marker.fieldWidth] <;> omega
      · apply hwide .int16 (by decide) <;> simp only [Marker.fieldWidth] <;> omega
      · apply hwide .int8 (by decide) <;> simp only [Marker.fieldWidth] <;> omega
      · omega

/-- A length that a tag of its own holds, and one in a field of 16 or 32 bits. -/
private theorem isHeader_length (tags : LengthTags) {e : Nat → Element}
    (hinline : ∀ n < tags.inlineEnd, IsHeader (e n) [(tags.inlineTag (UInt8.ofNat n)).toByte])
    (hshort : ∀ n < 65536, IsHeader (e n) (Wire.header tags.short n))
    (hlong : ∀ n < 4294967296, IsHeader (e n) (Wire.header tags.long n)) {len : Nat}
    {header : List UInt8} (h : tags.header? len = some header) : IsHeader (e len) header := by
  unfold LengthTags.header? at h
  split_ifs at h with h1 h2 h3
  · cases h
    exact hinline len h2
  · cases h
    exact hshort len h3
  · cases h
    apply hlong
    simp only [maxLength] at h1
    omega

/-- Whatever header is written for an element announces that element. -/
theorem isHeader_header? {policy : IntPolicy} {e : Element} {header : List UInt8}
    (h : e.header? policy = some header) : IsHeader (e.announced policy) header := by
  cases e with
  | nil =>
    cases h
    exact .nil
  | bool b =>
    cases h
    cases b
    · exact .bool false
    · exact .bool true
  | uint v =>
    cases h
    exact isHeader_uintHeader v
  | int v =>
    cases h
    exact isHeader_intHeader policy v
  | f32 bits =>
    cases h
    exact .f32 bits
  | f64 bits =>
    cases h
    exact .f64 bits
  | raw len =>
    apply isHeader_length .raw (e := .raw) _ _ _ h
    · intro n hn
      have htag : ∀ i : Fin 32, (Marker.fixRaw (UInt8.ofNat i)).toByte = .ofNat (0xa0 + i) := by
        decide +kernel
      rw [LengthTags.raw, htag ⟨n, hn⟩]
      exact .fixRaw hn
    · intro n hn
      exact .raw (by decide) hn
    · intro n hn
      exact .raw (by decide) hn
  | array len =>
    apply isHeader_length .array (e := .array) _ _ _ h
    · intro n hn
      have htag : ∀ i : Fin 16, (Marker.fixArray (UInt8.ofNat i)).toByte = .ofNat (0x90 + i) := by
        decide +kernel
      rw [LengthTags.array, htag ⟨n, hn⟩]
      exact .fixArray hn
    · intro n hn
      exact .array (by decide) hn
    · intro n hn
      exact .array (by decide) hn
  | map len =>
    apply isHeader_length .map (e := .map) _ _ _ h
    · intro n hn
      have htag : ∀ i : Fin 16, (Marker.fixMap (UInt8.ofNat i)).toByte = .ofNat (0x80 + i) := by
        decide +kernel
      rw [LengthTags.map, htag ⟨n, hn⟩]
      exact .fixMap hn
    · intro n hn
      exact .map (by decide) hn
    · intro n hn
      exact .map (by decide) hn

private theorem exists_length_header {len : Nat} (h : len ≤ maxLength) (tags : LengthTags) :
    ∃ header, tags.header? len = some header := by
  unfold LengthTags.header?
  rw [if_neg (Nat.not_lt.mpr h)]
  split_ifs <;> exact ⟨_, rfl⟩

theorem header?_of_long {e : Element} (policy : IntPolicy) (h : maxLength < e.length) :
    e.header? policy = none := by
  cases e with
  | raw len | array len | map len => exact if_pos h
  | _ => exact absurd h (Nat.not_lt_zero _)

/-- There is a header for every element whose length fits 32 bits. -/
theorem exists_header {e : Element} (policy : IntPolicy) (h : e.length ≤ maxLength) :
    ∃ header, e.header? policy = some header := by
  cases e with
  | raw len => exact exists_length_header h .raw
  | array len => exact exists_length_header h .array
  | map len => exact exists_length_header h .map
  | _ => exact ⟨_, rfl⟩

end MessagePack.Wire
