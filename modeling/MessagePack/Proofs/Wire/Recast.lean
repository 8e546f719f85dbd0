import MessagePack.Nesting
import MessagePack.Proofs.Wire.IsHeader
import MessagePack.Proofs.Wire.Streams

namespace MessagePack.Wire

variable {loose : Prop} {rest bytes bytes' header tail : List UInt8} {e e' : Element}

/-- The same element. Where the form of an integer does not count, a number that has the signed form
may have the unsigned one instead. -/
inductive Element.Recast (loose : Prop) : Element → Element → Prop
  | same (e : Element) : Recast loose e e
  | unsigned {v : Int64} {n : UInt64} (free : loose) (same : v.toInt = n.toNat) :
      Recast loose (.int v) (.uint n)

namespace Element.Recast

/-- The open containers do not tell one element from the other. -/
theorem enter_eq (h : e.Recast loose e') (nesting : Nesting) :
    nesting.enter e' = nesting.enter e := by
  cases h <;> rfl

end Element.Recast

/-- As far as a look at the tag tells the element, both tell the same. -/
structure Marker.Kin (marker marker' : Marker) : Prop where
  isRaw_eq : marker'.isRaw = marker.isRaw
  isMap_eq : marker'.isMap = marker.isMap
  nil_iff : marker' = .nil ↔ marker = .nil

theorem Marker.Kin.refl (marker : Marker) : marker.Kin marker := ⟨rfl, rfl, Iff.rfl⟩

private theorem Element.look_of_ofField {field : Nat} {marker : Marker}
    (h : ofField field marker = some e) :
    marker.isRaw = (e.category == .raw) ∧ marker.isMap = (e.category == .map) ∧
      (marker = .nil ↔ e.category = .nil) := by
  cases marker <;> cases h <;> exact ⟨rfl, rfl, by simp [category]⟩

theorem Element.Recast.kin {field field' : Nat} {marker marker' : Marker} (h : e.Recast loose e')
    (he : ofField field marker = some e) (he' : ofField field' marker' = some e') :
    marker.Kin marker' := by
  obtain ⟨hraw, hmap, hnil⟩ := look_of_ofField he
  obtain ⟨hraw', hmap', hnil'⟩ := look_of_ofField he'
  cases h with
  | same => exact ⟨hraw'.trans hraw.symm, hmap'.trans hmap.symm, hnil'.trans hnil.symm⟩
  | unsigned =>
    exact ⟨hraw'.trans hraw.symm, hmap'.trans hmap.symm, hnil'.trans (by simp [category, hnil])⟩

/-- The second bytes spell the same elements one after another, each with the same payload behind a
header that may be of another width, up to a point from which on the bytes themselves are the same;
behind them comes `rest`. -/
inductive Recast (loose : Prop) (rest : List UInt8) : List UInt8 → List UInt8 → Prop
  | kept (bytes : List UInt8) : Recast loose rest bytes (bytes ++ rest)
  | element {e e' : Element} {header header' data bytes bytes' : List UInt8}
      (first : IsHeader e header) (second : IsHeader e' header') (recast : e.Recast loose e')
      (payload : data.length = e.payload) (tail : Recast loose rest bytes bytes') :
      Recast loose rest (header ++ (data ++ bytes)) (header' ++ (data ++ bytes'))

/-- Behind the header of an element with a payload of so many bytes: if they are there, they are the
same, and the elements go on after them. -/
def Owing (loose : Prop) (rest : List UInt8) (len : Nat) (tail tail' : List UInt8) : Prop :=
  ∀ ⦃data more⦄, tail = data ++ more → data.length = len →
    ∃ more', tail' = data ++ more' ∧ Recast loose rest more more'

namespace Recast

theorem of_owing (h : Owing loose rest 0 bytes bytes') : Recast loose rest bytes bytes' := by
  obtain ⟨more, rfl, hmore⟩ := h (List.nil_append bytes).symm rfl
  exact hmore

/-- At the end of the bytes only `rest` is to come. -/
theorem eq_rest (h : Recast loose rest [] bytes') : bytes' = rest := by
  generalize hnil : ([] : List UInt8) = bytes at h
  cases h with
  | kept => rw [← hnil, List.nil_append]
  | element first =>
    obtain ⟨tag, field, rfl⟩ := first.exists_cons
    exact nomatch hnil

/-- Where an element comes next in the first bytes, one recast comes next in the second. -/
theorem exists_header (h : Recast loose rest (header ++ tail) bytes') (he : IsHeader e header) :
    ∃ e' header' tail', IsHeader e' header' ∧ e.Recast loose e' ∧ bytes' = header' ++ tail' ∧
      Owing loose rest e.payload tail tail' := by
  generalize hbytes : header ++ tail = bytes at h
  cases h with
  | kept =>
    refine ⟨e, header, tail ++ rest, he, .same e, by rw [← hbytes, List.append_assoc], ?_⟩
    rintro data more rfl -
    exact ⟨more ++ rest, List.append_assoc .., .kept more⟩
  | @element found e' header₁ header' data more more' first second recast payload rest =>
    -- no header begins another, so the bytes split in this way only
    obtain ⟨rfl, rfl, rfl⟩ := he.append_inj first hbytes
    refine ⟨e', header', _, second, recast, rfl, fun data' left heq hlen => ?_⟩
    obtain ⟨rfl, rfl⟩ := List.append_inj heq (payload.trans hlen.symm)
    exact ⟨more', rfl, rest⟩

/-- Where a tag comes next in the first bytes, one of its kin comes next in the second. -/
theorem exists_tag {tag : UInt8} (h : Recast loose rest (tag :: tail) bytes') :
    ∃ tag' tail', bytes' = tag' :: tail' ∧ (Marker.ofByte tag).Kin (.ofByte tag') := by
  generalize hbytes : tag :: tail = bytes at h
  cases h with
  | kept => exact ⟨tag, tail ++ rest, by rw [← hbytes, List.cons_append], .refl _⟩
  | element first second recast =>
    obtain ⟨tag₁, field, rfl⟩ := first.exists_cons
    obtain ⟨tag', field', rfl⟩ := second.exists_cons
    obtain rfl := (List.cons.inj hbytes).1
    exact ⟨tag', _, rfl, recast.kin (isHeader_cons_iff.mp first).2 (isHeader_cons_iff.mp second).2⟩

end Recast

end MessagePack.Wire
