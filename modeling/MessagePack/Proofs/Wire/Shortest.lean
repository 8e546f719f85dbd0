import MessagePack.Proofs.Wire.Header

namespace MessagePack.Wire

private theorem length_header (marker : Marker) (field : Nat) :
    (header marker field).length = marker.fieldWidth + 1 := by
  simp [header, bigEndian_length]

/-- No form that holds an unsigned number is narrower than the one it is written in. -/
theorem length_uintHeader_le {v : UInt64} {width : Nat} (hwidth : width ∈ [1, 2, 4, 8])
    (h : v.toNat < 256 ^ width) : (uintHeader v).length ≤ width + 1 := by
  have h7 : v < 128 ↔ v.toNat < 128 := UInt64.lt_iff_toNat_lt
  have h8 : v < 256 ↔ v.toNat < 256 := UInt64.lt_iff_toNat_lt
  have h16 : v < 65536 ↔ v.toNat < 65536 := UInt64.lt_iff_toNat_lt
  have h32 : v < 4294967296 ↔ v.toNat < 4294967296 := UInt64.lt_iff_toNat_lt
  simp only [List.mem_cons, List.not_mem_nil, or_false] at hwidth
  simp only [uintHeader, h7, h8, h16, h32]
  split_ifs <;> simp only [length_header, Marker.fieldWidth, List.length_singleton] <;>
    rcases hwidth with rfl | rfl | rfl | rfl <;> omega

theorem length_uintHeader_of_lt {v : UInt64} (h : v.toNat < 128) : (uintHeader v).length = 1 := by
  rw [uintHeader, if_pos (UInt64.lt_iff_toNat_lt.mpr h)]
  rfl

/-- No signed form that holds a number is narrower than the one it is written in. -/
theorem length_intHeader_le (policy : IntPolicy) {v : Int64} {width : Nat}
    (hwidth : width ∈ [1, 2, 4, 8]) (ge : -(256 ^ width : Nat) ≤ 2 * v.toInt)
    (lt : 2 * v.toInt < (256 ^ width : Nat)) : (intHeader policy v).length ≤ width + 1 := by
  simp only [intHeader]
  by_cases hcompact : policy = .compact ∧ 0 ≤ v.toInt
  · rw [if_pos hcompact]
    refine length_uintHeader_le hwidth ?_
    rw [toNat_toUInt64_of_nonneg hcompact.2]
    omega
  · rw [if_neg hcompact]
    simp only [List.mem_cons, List.not_mem_nil, or_false] at hwidth
    split_ifs <;> simp only [length_header, Marker.fieldWidth, List.length_singleton] <;>
      rcases hwidth with rfl | rfl | rfl | rfl <;> omega

theorem length_intHeader_of_inline (policy : IntPolicy) {v : Int64} (ge : -32 ≤ v.toInt)
    (lt : v.toInt < 0) : (intHeader policy v).length = 1 := by
  simp only [intHeader]
  split_ifs <;> first | rfl | omega

/-- No field that holds a length is narrower than the one it is written in. -/
theorem LengthTags.length_header_le {tags : LengthTags} (hshort : tags.short.fieldWidth = 2)
    (hlong : tags.long.fieldWidth = 4) {len width : Nat} (hwidth : width ∈ [2, 4])
    (hlen : len < 256 ^ width) {header : List UInt8} (h : tags.header? len = some header) :
    header.length ≤ width + 1 := by
  simp only [List.mem_cons, List.not_mem_nil, or_false] at hwidth
  unfold LengthTags.header? at h
  split_ifs at h <;> cases h <;> simp only [length_header, hshort, hlong, List.length_singleton] <;>
    rcases hwidth with rfl | rfl <;> omega

theorem LengthTags.length_header_of_inline {tags : LengthTags} {len : Nat}
    (hlen : len < tags.inlineEnd) {header : List UInt8} (h : tags.header? len = some header) :
    header.length = 1 := by
  unfold LengthTags.header? at h
  split_ifs at h
  cases h
  rfl

/-- An element is announced by no shorter header than the one it is written with. -/
theorem IsHeader.length_le {e : Element} {other header : List UInt8} (h : IsHeader e other)
    {policy : IntPolicy} (hwritten : e.header? policy = some header) :
    header.length ≤ other.length := by
  cases h with
  | nil | bool | f32 | f64 =>
    cases hwritten
    simp [length_header, bigEndian_length, Marker.fieldWidth]
  | @posInt n h =>
    cases hwritten
    have hlt : (UInt64.ofNat n).toNat < 128 := by
      rw [UInt64.toNat_ofNat']
      omega
    exact Nat.le_of_eq (length_uintHeader_of_lt hlt)
  | @uint tag width n form h =>
    cases hwritten
    have hwidth : width ∈ [1, 2, 4, 8] := by
      simp only [List.mem_cons, Prod.mk.injEq, List.not_mem_nil, or_false] at form ⊢
      omega
    rw [List.length_cons, bigEndian_length]
    refine length_uintHeader_le hwidth (Nat.lt_of_le_of_lt ?_ h)
    rw [UInt64.toNat_ofNat']
    exact Nat.mod_le n _
  | @negInt n h =>
    cases hwritten
    have hval : (Int64.ofInt ((n : Int) - 32)).toInt = n - 32 :=
      Int64.toInt_ofInt_of_le (by omega) (by omega)
    exact Nat.le_of_eq (length_intHeader_of_inline policy (by omega) (by omega))
  | @int tag width n form ge lt =>
    cases hwritten
    have hwidth : width ∈ [1, 2, 4, 8] := by
      simp only [List.mem_cons, Prod.mk.injEq, List.not_mem_nil, or_false] at form ⊢
      omega
    have hval : (Int64.ofInt n).toInt = n := by
      simp only [List.mem_cons, List.not_mem_nil, or_false] at hwidth
      rcases hwidth with rfl | rfl | rfl | rfl <;>
        exact Int64.toInt_ofInt_of_le (by omega) (by omega)
    rw [List.length_cons, bigEndian_length]
    exact length_intHeader_le policy hwidth (by rwa [hval]) (by rwa [hval])
  | fixRaw h | fixArray h | fixMap h =>
    exact Nat.le_of_eq (LengthTags.length_header_of_inline h hwritten)
  | @raw tag width n form h | @array tag width n form h | @map tag width n form h =>
    have hwidth : width ∈ [2, 4] := by
      simp only [List.mem_cons, Prod.mk.injEq, List.not_mem_nil, or_false] at form ⊢
      omega
    rw [List.length_cons, bigEndian_length]
    exact LengthTags.length_header_le rfl rfl hwidth h hwritten

/-- What a header can announce is no longer than 32 bits can say. -/
theorem IsHeader.length_le_maxLength {e : Element} {header : List UInt8} (h : IsHeader e header) :
    e.length ≤ maxLength := by
  cases h with
  | fixRaw h | fixArray h | fixMap h =>
    simp only [Element.length, maxLength]
    omega
  | raw form h | array form h | map form h =>
    simp only [List.mem_cons, Prod.mk.injEq, List.not_mem_nil, or_false] at form
    simp only [Element.length, maxLength]
    rcases form with ⟨-, rfl⟩ | ⟨-, rfl⟩ <;> omega
  | _ => exact Nat.zero_le _

end MessagePack.Wire
