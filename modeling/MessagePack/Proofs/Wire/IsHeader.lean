import MessagePack.Proofs.Wire.Field
import MessagePack.Wire.Element
import MessagePack.Wire.Header

namespace MessagePack.Wire

/-- The byte strings that announce an element: a tag byte and the big-endian field after it. A
number or length may take any of the forms that hold it. -/
inductive IsHeader : Element → List UInt8 → Prop where
  | nil : IsHeader .nil [0xc0]
  | bool (value : Bool) : IsHeader (.bool value) [if value then 0xc3 else 0xc2]
  | posInt {n : Nat} (h : n < 128) : IsHeader (.uint (.ofNat n)) [.ofNat n]
  | uint {tag : UInt8} {width n : Nat}
      (form : (tag, width) ∈ [(0xcc, 1), (0xcd, 2), (0xce, 4), (0xcf, 8)])
      (h : n < 256 ^ width) : IsHeader (.uint (.ofNat n)) (tag :: bigEndian width n)
  | negInt {n : Nat} (h : n < 32) : IsHeader (.int (.ofInt (n - 32))) [.ofNat (0xe0 + n)]
  | int {tag : UInt8} {width : Nat} {v : Int}
      (form : (tag, width) ∈ [(0xd0, 1), (0xd1, 2), (0xd2, 4), (0xd3, 8)])
      (ge : -(256 ^ width : Nat) ≤ 2 * v) (lt : 2 * v < (256 ^ width : Nat)) :
      IsHeader (.int (.ofInt v)) (tag :: bigEndian width (unsigned width v))
  | f32 (bits : UInt32) : IsHeader (.f32 bits) (0xca :: bigEndian 4 bits.toNat)
  | f64 (bits : UInt64) : IsHeader (.f64 bits) (0xcb :: bigEndian 8 bits.toNat)
  | fixRaw {n : Nat} (h : n < 32) : IsHeader (.raw n) [.ofNat (0xa0 + n)]
  | raw {tag : UInt8} {width n : Nat} (form : (tag, width) ∈ [(0xda, 2), (0xdb, 4)])
      (h : n < 256 ^ width) : IsHeader (.raw n) (tag :: bigEndian width n)
  | fixArray {n : Nat} (h : n < 16) : IsHeader (.array n) [.ofNat (0x90 + n)]
  | array {tag : UInt8} {width n : Nat} (form : (tag, width) ∈ [(0xdc, 2), (0xdd, 4)])
      (h : n < 256 ^ width) : IsHeader (.array n) (tag :: bigEndian width n)
  | fixMap {n : Nat} (h : n < 16) : IsHeader (.map n) [.ofNat (0x80 + n)]
  | map {tag : UInt8} {width n : Nat} (form : (tag, width) ∈ [(0xde, 2), (0xdf, 4)])
      (h : n < 256 ^ width) : IsHeader (.map n) (tag :: bigEndian width n)

/-- A tag that holds a number or length in its low bits is the first byte of its form plus that. -/
private theorem inline_tags (tag : UInt8) :
    (¬tag < 0x80 → tag < 0x90 →
      tag = .ofNat (0x80 + (tag &&& 0x0f).toNat) ∧ (tag &&& 0x0f).toNat < 16) ∧
    (¬tag < 0x90 → tag < 0xa0 →
      tag = .ofNat (0x90 + (tag &&& 0x0f).toNat) ∧ (tag &&& 0x0f).toNat < 16) ∧
    (¬tag < 0xa0 → tag < 0xc0 →
      tag = .ofNat (0xa0 + (tag &&& 0x1f).toNat) ∧ (tag &&& 0x1f).toNat < 32) ∧
    (0xe0 ≤ tag → tag = .ofNat (0xe0 + (tag.toNat - 0xe0)) ∧
      tag.toInt8.toInt64 = .ofInt ((tag.toNat - 0xe0 : Nat) - 32)) := by
  have h : ∀ n : Fin 256, let tag := UInt8.ofNat n
      (¬tag < 0x80 → tag < 0x90 →
        tag = .ofNat (0x80 + (tag &&& 0x0f).toNat) ∧ (tag &&& 0x0f).toNat < 16) ∧
      (¬tag < 0x90 → tag < 0xa0 →
        tag = .ofNat (0x90 + (tag &&& 0x0f).toNat) ∧ (tag &&& 0x0f).toNat < 16) ∧
      (¬tag < 0xa0 → tag < 0xc0 →
        tag = .ofNat (0xa0 + (tag &&& 0x1f).toNat) ∧ (tag &&& 0x1f).toNat < 32) ∧
      (0xe0 ≤ tag → tag = .ofNat (0xe0 + (tag.toNat - 0xe0)) ∧
        tag.toInt8.toInt64 = .ofInt ((tag.toNat - 0xe0 : Nat) - 32)) := by
    decide +kernel
  obtain ⟨n, hn, rfl⟩ : ∃ n, n < 256 ∧ tag = .ofNat n :=
    ⟨tag.toNat, tag.toNat_lt, UInt8.ofNat_toNat.symm⟩
  exact h ⟨n, hn⟩

private theorem ofField_inline :
    (∀ n : Fin 128, Element.ofField 0 (.ofByte (.ofNat n)) = some (.uint (.ofNat n))) ∧
    (∀ n : Fin 32, Element.ofField 0 (.ofByte (.ofNat (0xe0 + n))) =
      some (.int (.ofInt (n - 32)))) ∧
    (∀ n : Fin 32, Element.ofField 0 (.ofByte (.ofNat (0xa0 + n))) = some (.raw n)) ∧
    (∀ n : Fin 16, Element.ofField 0 (.ofByte (.ofNat (0x90 + n))) = some (.array n)) ∧
    (∀ n : Fin 16, Element.ofField 0 (.ofByte (.ofNat (0x80 + n))) = some (.map n)) := by
  decide +kernel

private theorem fieldWidth_inline :
    (∀ n : Fin 128, (Marker.ofByte (.ofNat n)).fieldWidth = 0) ∧
    (∀ n : Fin 32, (Marker.ofByte (.ofNat (0xe0 + n))).fieldWidth = 0) ∧
    (∀ n : Fin 32, (Marker.ofByte (.ofNat (0xa0 + n))).fieldWidth = 0) ∧
    (∀ n : Fin 16, (Marker.ofByte (.ofNat (0x90 + n))).fieldWidth = 0) ∧
    (∀ n : Fin 16, (Marker.ofByte (.ofNat (0x80 + n))).fieldWidth = 0) := by
  decide +kernel

private theorem isHeader_signed {tag : UInt8} {width n : Nat}
    (form : (tag, width) ∈ [(0xd0, 1), (0xd1, 2), (0xd2, 4), (0xd3, 8)]) (hw : 0 < width)
    (h : n < 256 ^ width) :
    IsHeader (.int (.ofInt (signed width n))) (tag :: bigEndian width n) := by
  obtain ⟨ge, lt⟩ := signed_range hw n
  have hint := IsHeader.int form ge lt
  rwa [unsigned_signed h] at hint

/-- A tag and field announce an element exactly when the tag's marker takes a field of that width
and makes the element of it. -/
theorem isHeader_cons_iff {tag : UInt8} {field : List UInt8} {e : Element} :
    IsHeader e (tag :: field) ↔ field.length = (Marker.ofByte tag).fieldWidth ∧
      Element.ofField (ofBigEndian field) (Marker.ofByte tag) = some e := by
  constructor
  · intro h
    cases h with
    | nil => exact ⟨by decide, by decide⟩
    | bool value => cases value <;> exact ⟨by decide, by decide⟩
    | @posInt n h => exact ⟨(fieldWidth_inline.1 ⟨n, h⟩).symm, ofField_inline.1 ⟨n, h⟩⟩
    | @negInt n h => exact ⟨(fieldWidth_inline.2.1 ⟨n, h⟩).symm, ofField_inline.2.1 ⟨n, h⟩⟩
    | @fixRaw n h => exact ⟨(fieldWidth_inline.2.2.1 ⟨n, h⟩).symm, ofField_inline.2.2.1 ⟨n, h⟩⟩
    | @fixArray n h =>
      exact ⟨(fieldWidth_inline.2.2.2.1 ⟨n, h⟩).symm, ofField_inline.2.2.2.1 ⟨n, h⟩⟩
    | @fixMap n h =>
      exact ⟨(fieldWidth_inline.2.2.2.2 ⟨n, h⟩).symm, ofField_inline.2.2.2.2 ⟨n, h⟩⟩
    | uint form h =>
      rw [ofBigEndian_bigEndian_of_lt h, bigEndian_length]
      simp only [List.mem_cons, Prod.mk.injEq, List.not_mem_nil, or_false] at form
      rcases form with ⟨rfl, rfl⟩ | ⟨rfl, rfl⟩ | ⟨rfl, rfl⟩ | ⟨rfl, rfl⟩ <;> exact ⟨rfl, rfl⟩
    | raw form h | array form h | map form h =>
      rw [ofBigEndian_bigEndian_of_lt h, bigEndian_length]
      simp only [List.mem_cons, Prod.mk.injEq, List.not_mem_nil, or_false] at form
      rcases form with ⟨rfl, rfl⟩ | ⟨rfl, rfl⟩ <;> exact ⟨rfl, rfl⟩
    | int form ge lt =>
      rw [ofBigEndian_bigEndian_of_lt (unsigned_lt _ _), bigEndian_length]
      simp only [List.mem_cons, Prod.mk.injEq, List.not_mem_nil, or_false] at form
      rcases form with ⟨rfl, rfl⟩ | ⟨rfl, rfl⟩ | ⟨rfl, rfl⟩ | ⟨rfl, rfl⟩ <;>
        exact ⟨rfl, congrArg (fun v => some (Element.int (.ofInt v))) (signed_unsigned ge lt)⟩
    | f32 bits =>
      rw [ofBigEndian_bigEndian_of_lt bits.toNat_lt, bigEndian_length]
      exact ⟨rfl, by simp [Marker.ofByte, Element.ofField]⟩
    | f64 bits =>
      rw [ofBigEndian_bigEndian_of_lt bits.toNat_lt, bigEndian_length]
      exact ⟨rfl, by simp [Marker.ofByte, Element.ofField]⟩
  · intro hparts
    obtain ⟨hlen, he⟩ := hparts
    have hlt := ofBigEndian_lt field
    have hfield := bigEndian_ofBigEndian field
    obtain ⟨hmap, harray, hraw, hneg⟩ := inline_tags tag
    rw [hlen] at hlt hfield
    rw [← hfield]
    generalize ofBigEndian field = n at he hlt
    clear hlen hfield
    unfold Marker.ofByte at he hlt ⊢
    split_ifs at he hlt ⊢ with h1 h2 h3 h4 h5
    · cases he
      have hpos := IsHeader.posInt (n := tag.toNat) h1
      simpa [Marker.fieldWidth, bigEndian] using hpos
    · cases he
      have hfix := IsHeader.fixMap (hmap h1 h2).2
      rwa [← (hmap h1 h2).1] at hfix
    · cases he
      have hfix := IsHeader.fixArray (harray h2 h3).2
      rwa [← (harray h2 h3).1] at hfix
    · cases he
      have hfix := IsHeader.fixRaw (hraw h3 h4).2
      rwa [← (hraw h3 h4).1] at hfix
    · cases he
      have hlast : tag.toNat - 0xe0 < 32 := by have := tag.toNat_lt; omega
      have hfix := IsHeader.negInt hlast
      rw [(hneg h5).2]
      rwa [← (hneg h5).1] at hfix
    · split at he <;> simp only [Marker.fieldWidth] at hlt ⊢ <;> cases he
      · exact .nil
      · exact .bool false
      · exact .bool true
      · have hf := IsHeader.f32 (.ofNat n)
        rwa [UInt32.toNat_ofNat_of_lt' hlt] at hf
      · have hf := IsHeader.f64 (.ofNat n)
        rwa [UInt64.toNat_ofNat_of_lt' hlt] at hf
      · exact .uint (by decide) hlt
      · exact .uint (by decide) hlt
      · exact .uint (by decide) hlt
      · exact .uint (by decide) hlt
      · exact isHeader_signed (by decide) (by decide) hlt
      · exact isHeader_signed (by decide) (by decide) hlt
      · exact isHeader_signed (by decide) (by decide) hlt
      · exact isHeader_signed (by decide) (by decide) hlt
      · exact .raw (by decide) hlt
      · exact .raw (by decide) hlt
      · exact .array (by decide) hlt
      · exact .array (by decide) hlt
      · exact .map (by decide) hlt
      · exact .map (by decide) hlt

theorem IsHeader.exists_cons {e : Element} {header : List UInt8} (h : IsHeader e header) :
    ∃ tag field, header = tag :: field := by
  cases h <;> exact ⟨_, _, rfl⟩

theorem IsHeader.length_pos {e : Element} {header : List UInt8} (h : IsHeader e header) :
    0 < header.length := by
  obtain ⟨tag, field, rfl⟩ := h.exists_cons
  simp

/-- No header is the beginning of another: what follows one never changes how it is read. -/
theorem IsHeader.append_inj {e e' : Element} {header header' rest rest' : List UInt8}
    (h : IsHeader e header) (h' : IsHeader e' header') (heq : header ++ rest = header' ++ rest') :
    e = e' ∧ header = header' ∧ rest = rest' := by
  obtain ⟨tag, field, rfl⟩ := h.exists_cons
  obtain ⟨tag', field', rfl⟩ := h'.exists_cons
  obtain ⟨hlen, he⟩ := isHeader_cons_iff.mp h
  obtain ⟨hlen', he'⟩ := isHeader_cons_iff.mp h'
  simp only [List.cons_append, List.cons.injEq] at heq
  obtain ⟨rfl, htail⟩ := heq
  obtain ⟨rfl, hrest⟩ := List.append_inj htail (hlen.trans hlen'.symm)
  rw [he] at he'
  exact ⟨Option.some.inj he', rfl, hrest⟩

namespace Element

variable {field : Nat} {marker : Marker}

/-- Only a reserved tag announces nothing, whatever its field spells. -/
theorem ofField_eq_none_iff : ofField field marker = none ↔ ∃ tag, marker = .reserved tag := by
  cases marker <;> simp [ofField]

/-- The tag of a nil is no other element's. -/
theorem eq_nil_of_ofField (h : ofField field marker = some .nil) : marker = .nil := by
  cases marker <;> first | rfl | cases h

theorem isRaw_of_ofField {len : Nat} (h : ofField field marker = some (.raw len)) :
    marker.isRaw = true ∧ marker.isMap = false := by
  cases marker <;> first | exact ⟨rfl, rfl⟩ | cases h

theorem isMap_of_ofField {len : Nat} (h : ofField field marker = some (.map len)) :
    marker.isMap = true := by
  cases marker <;> first | rfl | cases h

/-- A tag of a raw starts nothing but a raw. -/
theorem eq_raw_of_ofField {e : Element} (hraw : marker.isRaw = true)
    (h : ofField field marker = some e) : ∃ len, e = .raw len := by
  cases marker <;> first | exact ⟨_, (Option.some.inj h).symm⟩ | cases hraw

end Element

end MessagePack.Wire
