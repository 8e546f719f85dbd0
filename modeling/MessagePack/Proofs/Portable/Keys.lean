import MessagePack.Proofs.Portable.Pieces
import MessagePack.Proofs.RoundTrip.Named

namespace MessagePack

open Decoding Decoder
open Wire (Element IsHeader Marker)

variable {α : Type} {limit depth : Nat} {bytes : List UInt8}

namespace Choices

variable {known : Choices α} {chosen : α} {header : List UInt8}

/-- A raw is a key by what its bytes stand for, whatever table of fields there is. -/
theorem key_yields_raw {data : List UInt8} (h : IsHeader (.raw data.length) header)
    (hchosen : known.read (Entries.rawKey data) = pure chosen) (table : Option Fields) :
    Yields (Entries.key table >>= known.read) [.raw data.length] (header ++ data) chosen := by
  cases table with
  | none =>
    obtain ⟨next, hwire, hraw⟩ := known.read_readsRaws
    change Yields (known.read .wire) _ _ _
    rw [hwire]
    refine .raw h fun hpayload => ?_
    rw [hraw, bind_of_ok hpayload, hchosen]
    rfl
  | some fields =>
    rw [Entries.key, bind_assoc]
    obtain ⟨tag, field, rfl⟩ := h.exists_cons
    have hbytes : tag :: field ++ data = tag :: (field ++ data) := rfl
    refine .peekMarker hbytes ?_
    rw [(Element.isRaw_of_ofField (Wire.isHeader_cons_iff.mp h).2).1, if_pos rfl,
      Entries.fieldKey_eq, bind_assoc]
    refine .raw h fun hpayload => ?_
    dsimp only
    rw [bind_assoc, bind_of_ok (Entries.keyBytes_eq_ok_iff.mpr hpayload), pure_bind, hchosen]
    rfl

/-- An unsigned integer is a key by its number. -/
theorem key_yields_uint {n : UInt64} (h : IsHeader (.uint n) header)
    (hchosen : known.take (.unsigned n) = pure chosen) (table : Option Fields) :
    Yields (Entries.key table >>= known.read) [.uint n] header chosen := by
  have hwire : Yields (known.read .wire) [.uint n] header chosen := by
    rw [read_eq, Input.ask_wire rfl, offer_identifier, bind_assoc]
    refine .scalar h ?_
    rw [identifierAt, pure_bind, hchosen]
  cases table with
  | none => exact hwire
  | some fields =>
    rw [Entries.key, bind_assoc]
    obtain ⟨tag, field, rfl⟩ := h.exists_cons
    refine .peekMarker rfl ?_
    rw [if_neg ?_]
    · exact hwire
    · intro hraw
      obtain ⟨len, hlen⟩ := Element.eq_raw_of_ofField hraw (Wire.isHeader_cons_iff.mp h).2
      cases hlen

theorem key_read_portable (table : Option Fields) :
    Portable False (Entries.key table >>= known.read) :=
  ((Entries.key_parallel trivial table).seq fun input =>
    known.read_parallel input (.inl trivial)).portable

/-- A key may come anywhere. -/
theorem key_covers {e : Element} {table : Option Fields}
    (h : Yields (Entries.key table >>= known.read) [e] bytes chosen) (he : e.isContainer = false)
    (hroom : depth ≤ limit) :
    Covers limit depth depth (Entries.key table >>= known.read) bytes chosen :=
  .of_readsWhole (known.key_read_portable table) (.scalar h he) hroom

end Choices

namespace FieldReader

variable {readers : List FieldReader}

theorem byPosition?_keys (strict : Bool) (i : Nat) :
    (keys readers strict).byPosition? i = readers[i]?.map fun reader => some (i, reader) := by
  rw [Choices.byPosition?, keys, List.getElem?_map, List.getElem?_zipIdx]
  cases readers[i]? with
  | none => rfl
  | some reader => simp

/-- Where unknown keys are no error, one that makes no choice is read over. -/
theorem settle_unknown (rejection : Rejection) :
    (keys readers false).settle none rejection = pure none := rfl

/-- The bytes of a raw that spell no name make no choice, be they text or not. -/
theorem read_rawKey_unknown {data : List UInt8}
    (h : ∀ reader ∈ readers, Text.utf8 reader.name ≠ data) :
    (keys readers false).read (Entries.rawKey data) = pure none := by
  have hchoice {name : String} {a : Option (Nat × FieldReader)}
      (hmem : (name, a) ∈ (keys readers false).choices) : Text.utf8 name ≠ data := by
    obtain ⟨⟨reader, i⟩, hreader, hsame⟩ := List.mem_map.mp hmem
    obtain ⟨rfl, -⟩ := Prod.mk.inj hsame
    exact h reader (List.fst_mem_of_mem_zipIdx hreader)
  rw [Choices.read_eq, Entries.rawKey]
  cases htext : Text.ofUtf8? data with
  | some s =>
    have hnone : (keys readers false).byText? s = none := by
      refine List.lookup_eq_none_iff.mpr fun choice hmem => bne_iff_ne.mpr fun hs => ?_
      exact hchoice hmem (hs ▸ Text.utf8_eq_of_ofUtf8? htext)
    change (keys readers false).settle ((keys readers false).byText? s) _ = _
    rw [hnone, settle_unknown]
  | none =>
    have hnone : (keys readers false).byBytes? data = none := by
      refine Option.map_eq_none_iff.mpr (List.find?_eq_none.mpr fun choice hmem => ?_)
      simpa using hchoice hmem
    change (keys readers false).settle ((keys readers false).byBytes? data) _ = _
    rw [hnone, settle_unknown]

theorem read_rawKey_name (hdistinct : (readers.map name).Nodup) {i : Nat} {reader : FieldReader}
    (h : readers[i]? = some reader) :
    (keys readers false).read (Entries.rawKey (Text.utf8 reader.name)) =
      pure (some (i, reader)) := by
  rw [Choices.read_eq, Entries.rawKey, Text.ofUtf8?_utf8]
  exact Choices.settle_of_byText? (byText?_of_getElem? false hdistinct h)

end FieldReader

/-- The key of a field: a raw of its name, in a header of any width, or its position, in any
unsigned form. -/
inductive FieldKey (name : String) (position : Nat) : List UInt8 → Prop
  | name {header : List UInt8} (h : IsHeader (.raw (Text.utf8 name).length) header) :
      FieldKey name position (header ++ Text.utf8 name)
  | position {n : UInt64} {header : List UInt8} (h : IsHeader (.uint n) header)
      (same : n.toNat = position) : FieldKey name position header

/-- A key that none of these fields has: a raw of other bytes, which need not be text, or a position
beyond them. -/
inductive UnknownKey (names : List String) : List UInt8 → Prop
  | raw {data header : List UInt8} (h : IsHeader (.raw data.length) header)
      (other : ∀ name ∈ names, Text.utf8 name ≠ data) : UnknownKey names (header ++ data)
  | position {n : UInt64} {header : List UInt8} (h : IsHeader (.uint n) header)
      (beyond : names.length ≤ n.toNat) : UnknownKey names header

section

variable {readers : List FieldReader} (hroom : depth ≤ limit) (table : Option Fields)

include hroom

theorem FieldKey.covers (hdistinct : (readers.map FieldReader.name).Nodup) {i : Nat}
    {reader : FieldReader} (hreader : readers[i]? = some reader)
    (h : FieldKey reader.name i bytes) :
    Covers limit depth depth (Entries.key table >>= (FieldReader.keys readers false).read) bytes
      (some (i, reader)) := by
  cases h with
  | name h =>
    have hname := FieldReader.read_rawKey_name hdistinct hreader
    exact Choices.key_covers (Choices.key_yields_raw h hname table) rfl hroom
  | @position n _ h same =>
    refine Choices.key_covers (Choices.key_yields_uint h ?_ table) rfl hroom
    subst same
    rw [Choices.take, FieldReader.byPosition?_keys, hreader]
    rfl

theorem UnknownKey.covers (h : UnknownKey (readers.map FieldReader.name) bytes) :
    Covers limit depth depth (Entries.key table >>= (FieldReader.keys readers false).read) bytes
      none := by
  cases h with
  | raw h other =>
    have hunknown := FieldReader.read_rawKey_unknown fun reader hmem =>
      other reader.name (List.mem_map.mpr ⟨reader, hmem, rfl⟩)
    exact Choices.key_covers (Choices.key_yields_raw h hunknown table) rfl hroom
  | @position n _ h beyond =>
    refine Choices.key_covers (Choices.key_yields_uint h ?_ table) rfl hroom
    rw [List.length_map] at beyond
    rw [Choices.take, FieldReader.byPosition?_keys, List.getElem?_eq_none beyond]
    rfl

end

end MessagePack
