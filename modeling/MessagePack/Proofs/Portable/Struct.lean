import MessagePack.Proofs.Portable.Keys
import Mathlib.Algebra.Order.BigOperators.Group.List
import Mathlib.Data.List.Perm.Subperm
import Mathlib.Data.List.ReduceOption

namespace MessagePack

open Decoding Decoder
open Wire (Element IsHeader)

namespace FieldReader

variable {known : Choices (Option (Nat × FieldReader))} {limit before after : Nat}
  {table : Option Fields} {key bytes : List UInt8} {slots : List (Option Item)}

/-- An entry of a field that has not come yet fills its slot. -/
theorem fillSlot_known {slot : Nat} {field : FieldReader} {item : Item}
    (hkey : Covers limit before before (Entries.key table >>= known.read) key (some (slot, field)))
    (hnew : slots.getD slot none = none)
    (hitem : Covers limit before after (field.read .wire) bytes item) :
    Covers limit before after (fillSlot known slots (Entries.key table, .wire)) (key ++ bytes)
      (slots.set slot (some item)) := by
  refine hkey.bind ?_
  dsimp only
  rw [hnew]
  exact hitem.map

/-- Any other entry is read over. -/
theorem fillSlot_unknown
    (hkey : Covers limit before before (Entries.key table >>= known.read) key none)
    (hskip : Covers limit before after (Decoder.fold .ignored) bytes ()) :
    Covers limit before after (fillSlot known slots (Entries.key table, .wire)) (key ++ bytes)
      slots :=
  hkey.bind hskip.map

end FieldReader

/-- A field of a structure with bytes that may come for it: what they are read as, and how many
containers may stay open behind them. Only a type that leaves something unread keeps any open. -/
structure WireField where
  name : String
  shape : Shape
  bytes : List UInt8
  item : Item
  left : Nat := 0

namespace WireField

variable {registry : Registry} {room limit depth : Nat} {fields : List WireField}

/-- The bytes are read whole as the type, with so much room for containers. -/
def Reads (registry : Registry) (room : Nat) (field : WireField) : Prop :=
  ReadsWhole room (field.shape.read registry .wire) field.bytes field.left field.item

def reader (registry : Registry) (field : WireField) : FieldReader :=
  ⟨field.name, field.shape.isOption, field.shape.read registry⟩

theorem fieldReaders_eq (fields : List WireField) :
    Shape.fieldReaders registry (fields.map fun field => (field.name, field.shape)) =
      fields.map (reader registry) := by
  rw [Shape.fieldReaders_eq_map, List.map_map]
  rfl

theorem names_eq (fields : List WireField) :
    (fields.map (reader registry)).map FieldReader.name = fields.map name := by
  rw [List.map_map]
  rfl

theorem Reads.covers {field : WireField} (h : field.Reads registry room)
    (hregistry : registry.Portable False) (hroom : depth + room ≤ limit) :
    Covers limit depth (depth + field.left) (field.shape.read registry .wire) field.bytes
      field.item :=
  .of_readsWhole (field.shape.read_portable hregistry False.elim .wire) h hroom

/-- What the fields at some positions leave open. -/
def leftAt (fields : List WireField) (i : Nat) : Nat :=
  (fields[i]?.map left).getD 0

/-- Fields that come at most once leave no more open than all of them. -/
theorem sum_leftAt_le {positions : List Nat} (hnodup : positions.Nodup)
    (hlt : ∀ i ∈ positions, i < fields.length) :
    (positions.map (leftAt fields)).sum ≤ (fields.map left).sum := by
  have hall : (List.range fields.length).map (leftAt fields) = fields.map left := by
    apply List.ext_getElem?
    intro i
    rw [List.getElem?_map, List.getElem?_map]
    by_cases hi : i < fields.length
    · simp [hi, leftAt]
    · simp [hi]
  obtain ⟨chosen, hperm, hsub⟩ := hnodup.subperm fun i hi => List.mem_range.mpr (hlt i hi)
  rw [← hall, ← (hperm.map (leftAt fields)).sum_eq]
  exact (hsub.map _).sum_le_sum fun _ _ => Nat.zero_le _

/-- The slots of a structure when the fields at some positions have been read. -/
def slots (fields : List WireField) (done : List Nat) : List (Option Item) :=
  fields.mapIdx fun i field => if i ∈ done then some field.item else none

theorem slots_nil (fields : List WireField) :
    slots fields [] = List.replicate fields.length none := by
  simp [slots, List.mapIdx_eq_replicate_iff]

theorem slots_congr {done done' : List Nat} (h : ∀ i, i ∈ done ↔ i ∈ done') :
    slots fields done = slots fields done' := by
  simp only [slots, h]

theorem getD_slots {done : List Nat} {i : Nat} (h : i ∉ done) :
    (slots fields done).getD i none = none := by
  rw [List.getD_eq_getElem?_getD, slots, List.getElem?_mapIdx]
  cases fields[i]? <;> simp [h]

theorem set_slots {done : List Nat} {i : Nat} {field : WireField} (h : fields[i]? = some field) :
    (slots fields done).set i (some field.item) = slots fields (i :: done) := by
  obtain ⟨hi, rfl⟩ := List.getElem?_eq_some_iff.mp h
  apply List.ext_getElem?
  intro j
  rw [List.getElem?_set, slots, slots, List.getElem?_mapIdx, List.getElem?_mapIdx]
  by_cases hij : i = j
  · subst hij
    simp [hi]
  · simp [hij, Ne.symm hij]

/-- The slot holds what was read for the field, or nothing, where that is what the field then is. -/
def Fills (field : WireField) (slot : Option Item) : Prop :=
  slot = some field.item ∨ slot = none ∧ field.shape.isOption = true ∧ field.item = .absent

theorem collect_eq {filled : List (Option Item)} (h : List.Forall₂ Fills fields filled) :
    FieldReader.collect (fields.map (reader registry)) filled =
      .ok (fields.map fun field => (field.name, field.item)) := by
  induction h with
  | nil => rfl
  | @cons field slot fields filled hslot _ ih =>
    obtain rfl | ⟨rfl, hoption, habsent⟩ := hslot
    · simp only [List.map_cons, FieldReader.collect, ih]
      rfl
    · have hmay : (reader registry field).isOption = true := hoption
      simp only [List.map_cons, FieldReader.collect, ih, hmay, if_pos, habsent]
      rfl

/-- The structure is complete once every field has been read that is not missing from it. -/
theorem slots_fill {done : List Nat} (h : ∀ i field, fields[i]? = some field →
    i ∈ done ∨ field.shape.isOption = true ∧ field.item = .absent) :
    List.Forall₂ Fills fields (slots fields done) := by
  refine List.forall₂_iff_get.mpr ⟨by simp [slots], fun i hi _ => ?_⟩
  simp only [slots, List.get_eq_getElem, List.getElem_mapIdx]
  by_cases hdone : i ∈ done
  · exact .inl (if_pos hdone)
  · exact .inr ⟨if_neg hdone, (h i _ (List.getElem?_eq_getElem hi)).resolve_left hdone⟩

/-- One entry of a map, with the position of its field: a key of the field and the field's bytes, or
a key that no field has and any complete element that does not nest too deep. -/
inductive IsEntry (fields : List WireField) (room : Nat) : Option Nat → List UInt8 → Prop
  | known {i : Nat} {field : WireField} {key : List UInt8} (found : fields[i]? = some field)
      (hkey : FieldKey field.name i key) : IsEntry fields room (some i) (key ++ field.bytes)
  | unknown {key bytes : List UInt8} {v : Value} (hkey : UnknownKey (fields.map name) key)
      (hv : v.SpelledBy bytes) (fits : v.height ≤ room) : IsEntry fields room none (key ++ bytes)

/-- Entries one after another, of fields in any order and of others between them. -/
inductive AreEntries (fields : List WireField) (room : Nat) :
    List (Option Nat) → List UInt8 → Prop
  | nil : AreEntries fields room [] []
  | cons {position : Option Nat} {order : List (Option Nat)} {entry body : List UInt8}
      (head : IsEntry fields room position entry) (tail : AreEntries fields room order body) :
      AreEntries fields room (position :: order) (entry ++ body)

theorem AreEntries.lt_length {order : List (Option Nat)} {body : List UInt8}
    (h : AreEntries fields room order body) : ∀ i ∈ order.reduceOption, i < fields.length := by
  induction h with
  | nil => exact nofun
  | cons head _ ih =>
    cases head with
    | known found =>
      rw [List.reduceOption_cons_of_some]
      exact List.forall_mem_cons.mpr ⟨(List.getElem?_eq_some_iff.mp found).1, ih⟩
    | unknown =>
      rw [List.reduceOption_cons_of_none]
      exact ih

section

variable (hregistry : registry.Portable False)
  (hreads : ∀ field ∈ fields, field.Reads registry room)

include hregistry hreads

/-- Whatever order the entries come in, each fills the slot of its field, if it has one. -/
theorem AreEntries.fillSlots_covers {order : List (Option Nat)} {body : List UInt8}
    (h : AreEntries fields room order body) (hdistinct : (fields.map name).Nodup)
    {done : List Nat} (hnodup : (order.reduceOption ++ done).Nodup)
    (hroom : depth + (order.reduceOption.map (leftAt fields)).sum + room ≤ limit)
    (table : Option Fields) :
    Covers limit depth (depth + (order.reduceOption.map (leftAt fields)).sum)
      ((List.replicate order.length (Entries.key table, .wire)).foldlM
        (FieldReader.fillSlot (FieldReader.keys (fields.map (reader registry)) false))
        (slots fields done))
      body (slots fields (order.reduceOption ++ done)) := by
  have hnames : (fields.map (reader registry)).map FieldReader.name = fields.map name :=
    names_eq fields
  -- with each entry `done` grows by its field, and `depth` by what the field leaves open
  induction h generalizing done depth with
  | nil => exact .pure depth _
  | @cons position order entry body head tail ih =>
    have hfits : depth ≤ limit := by omega
    rw [List.length_cons, List.replicate_succ, List.foldlM_cons]
    cases head with
    | @known i field key found hkey =>
      rw [List.reduceOption_cons_of_some] at hnodup hroom ⊢
      have hleft : leftAt fields i = field.left := by rw [leftAt, found]; rfl
      rw [List.map_cons, List.sum_cons, hleft] at hroom ⊢
      have hreader : (fields.map (reader registry))[i]? = some (field.reader registry) := by
        rw [List.getElem?_map, found]
        rfl
      have hnew : i ∉ done := fun hmem =>
        (List.nodup_cons.mp hnodup).1 (List.mem_append_right _ hmem)
      have hitem : Covers limit depth (depth + field.left) (field.shape.read registry .wire)
          field.bytes field.item :=
        (hreads field (List.mem_of_getElem? found)).covers hregistry (by omega)
      have hbudget : depth + field.left + (order.reduceOption.map (leftAt fields)).sum + room ≤
          limit := by omega
      have hrest := ih (List.perm_middle.nodup_iff.mpr hnodup) hbudget
      rw [← set_slots found, Nat.add_assoc] at hrest
      -- a slot only knows whether its field is done, not when it came
      have hsame : slots fields (order.reduceOption ++ i :: done) =
          slots fields (i :: order.reduceOption ++ done) :=
        slots_congr fun j => List.perm_middle.mem_iff
      rw [hsame] at hrest
      exact (FieldReader.fillSlot_known (hkey.covers hfits table (hnames ▸ hdistinct) hreader)
        (getD_slots hnew) hitem).bind hrest
    | @unknown key bytes v hkey hv fits =>
      rw [List.reduceOption_cons_of_none] at hnodup hroom ⊢
      have hskip : Covers limit depth (depth + 0) (Decoder.fold .ignored) bytes (v.fold .ignored) :=
        .of_readsWhole (Decoder.fold_parallel trivial fun _ => Fold.signBlind_ignored).portable
          (.fold Fold.signBlind_ignored hv) (by omega)
      exact (FieldReader.fillSlot_unknown (UnknownKey.covers hfits table (hnames ▸ hkey))
        hskip).bind (ih hnodup hroom)

/-- The structure is complete once every field has come that is not missing from it. -/
theorem AreEntries.readEntries_covers {order : List (Option Nat)} {body : List UInt8}
    (h : AreEntries fields room order body) (hdistinct : (fields.map name).Nodup)
    (honce : order.reduceOption.Nodup)
    (hmissing : ∀ i field, fields[i]? = some field →
      i ∈ order.reduceOption ∨ field.shape.isOption = true ∧ field.item = .absent)
    (hroom : depth + (fields.map left).sum + room ≤ limit) (table : Option Fields) :
    Covers limit depth (depth + (fields.map left).sum)
      (FieldReader.readEntries (fields.map (reader registry)) false
        (.wire order.length order.length table))
      body (fields.map fun field => (field.name, field.item)) := by
  have hsum := sum_leftAt_le honce h.lt_length
  have hnodup : (order.reduceOption ++ []).Nodup := by rwa [List.append_nil]
  have hbudget : depth + (order.reduceOption.map (leftAt fields)).sum + room ≤ limit := by omega
  have hslots := h.fillSlots_covers hregistry hreads hdistinct hnodup hbudget table
  rw [slots_nil, List.append_nil, ← List.length_map (reader registry)] at hslots
  rw [FieldReader.readEntries_eq]
  refine (hslots.follow ?_).weaken (Nat.le_refl _) (Nat.add_le_add_left hsum _)
  rw [collect_eq (slots_fill hmissing)]
  rfl

theorem mapM_covers (hroom : depth + (fields.map left).sum + room ≤ limit) :
    Covers limit depth (depth + (fields.map left).sum)
      ((fields.map fun field => field.shape.read registry).mapM fun one => one .wire)
      (fields.flatMap bytes) (fields.map item) := by
  induction fields generalizing depth with
  | nil => exact .pure depth _
  | cons field fields ih =>
    rw [List.map_cons, List.sum_cons] at hroom
    have hitem : Covers limit depth (depth + field.left) (field.shape.read registry .wire)
        field.bytes field.item :=
      (hreads field List.mem_cons_self).covers hregistry (by omega)
    have hbudget : depth + field.left + (fields.map left).sum + room ≤ limit := by omega
    have hrest := ih (fun field hmem => hreads field (List.mem_cons_of_mem _ hmem)) hbudget
    rw [List.map_cons, List.map_cons, List.sum_cons, List.flatMap_cons, ← Nat.add_assoc,
      List.mapM_cons]
    exact hitem.bind hrest.map

/-- The fields in their order are the items of an array. -/
theorem readItems_covers (expected : String)
    (hroom : depth + (fields.map left).sum + room ≤ limit) :
    Covers limit depth (depth + (fields.map left).sum)
      (FieldReader.readItems (fields.map (reader registry)) expected
        (.wire fields.length fields.length))
      (fields.flatMap bytes) (fields.map fun field => (field.name, field.item)) := by
  have hreaders : (fields.map (reader registry)).map FieldReader.read =
      fields.map fun field => field.shape.read registry := by
    rw [List.map_map]
    rfl
  have hzip : ((fields.map (reader registry)).map FieldReader.name).zip (fields.map item) =
      fields.map fun field => (field.name, field.item) := by
    rw [names_eq, List.zip_map']
  have hlen : fields.length = (fields.map fun field => field.shape.read registry).length := by
    rw [List.length_map]
  rw [FieldReader.readItems, hreaders, ← hzip, Items.readTuple_wire hlen]
  exact (mapM_covers hregistry hreads hroom).map

end

end WireField

namespace Decoder

variable {limit depth len : Nat} {type : String} {names : List String} {header : List UInt8}
  (hroom : depth < limit)

include hroom

/-- A map is offered for a structure with the table of its fields. -/
theorem offer_struct_covers_map (h : IsHeader (.map len) header) :
    Covers limit depth (depth + 1) (offer (.struct type names)) header
      (offerEntries len (some (.ofNames names))) := by
  have htable : Covers limit (depth + 1) (depth + 1)
      (fieldsOf type names >>= fun table => pure (offerEntries len table)) []
      (offerEntries len (some (.ofNames names))) := (Covers.fieldsOf (depth + 1) type names).map
  rw [offer, ← List.append_nil header]
  exact (Covers.header h rfl hroom).bind htable

/-- An array is offered for a structure as a sequence of as many items. -/
theorem offer_struct_covers_array (h : IsHeader (.array len) header) :
    Covers limit depth (depth + 1) (offer (.struct type names)) header (offerItems len) := by
  rw [offer]
  exact (Covers.header h rfl hroom).follow rfl

end Decoder

open WireField

namespace Shape

/-- Neither the order of its entries, nor the form of its keys, nor what else is in the map makes a
difference to a structure: fields that may be read each by itself are read from a map in which each
comes once, in any order, under its name or its position, except for options that are absent, and
between any entries whose keys are no field's. The items of an array are read as the same
structure. -/
theorem read_struct_unordered {registry : Registry} (hregistry : registry.Portable False)
    {type : String} (htype : registry.get? type = none) {fields : List WireField}
    (hdistinct : (fields.map name).Nodup) {room : Nat}
    (hreads : ∀ field ∈ fields, field.Reads registry room) {config : Config}
    (hroom : (fields.map left).sum + room < config.maxDepth) (rest : List UInt8) :
    let shape : Shape := .struct type (fields.map fun field => (field.name, field.shape)) false
    let item : Item := .struct type (fields.map fun field => (field.name, field.item))
    (∀ {order header body}, IsHeader (.map order.length) header →
      AreEntries fields room order body → order.reduceOption.Nodup →
      (∀ i field, fields[i]? = some field →
        i ∈ order.reduceOption ∨ field.shape.isOption = true ∧ field.item = .absent) →
      ∃ d, shape.read registry .wire (new (.ofBytes (header ++ body ++ rest)) config) =
        .ok item d ∧ d.ahead = rest) ∧
    ∀ {header}, IsHeader (.array fields.length) header →
      ∃ d, shape.read registry .wire
          (new (.ofBytes (header ++ fields.flatMap WireField.bytes ++ rest)) config) =
        .ok item d ∧ d.ahead = rest := by
  intro shape item
  have hask : Input.ask registry (.struct type
      ((fields.map fun field => (field.name, field.shape)).map Prod.fst)) .wire =
        Decoder.offer (.struct type
          ((fields.map fun field => (field.name, field.shape)).map Prod.fst)) :=
    Input.ask_wire htype
  have hbudget : 0 + 1 + (fields.map left).sum + room ≤ config.maxDepth := by omega
  have hread {bytes : List UInt8} (h : Covers config.maxDepth 0 (0 + 1 + (fields.map left).sum)
      (shape.read registry .wire) bytes item) :
      ∃ d, shape.read registry .wire (new (.ofBytes (bytes ++ rest)) config) = .ok item d ∧
        d.ahead = rest := by
    obtain ⟨d, hd, hready⟩ := h (ready_new (bytes ++ rest) config)
    exact ⟨d, hd, hready.ahead⟩
  have hopen : 0 < config.maxDepth := by omega
  constructor
  · intro order header body hheader hentries honce hmissing
    have hfields := hentries.readEntries_covers hregistry hreads hdistinct honce hmissing hbudget
    refine hread ?_
    rw [Shape.read, hask, fieldReaders_eq]
    exact (offer_struct_covers_map hopen hheader).bind (hfields _).map
  · intro header hheader
    have hfields := readItems_covers hregistry hreads ("struct " ++ type) hbudget
    refine hread ?_
    rw [Shape.read, hask, fieldReaders_eq]
    exact (offer_struct_covers_array hopen hheader).bind hfields.map

/-- The last field under its position and the first under its name, both in forms too wide, each
behind it an entry of no field: under a byte that is no text, and under the first position beyond
them. The option between the two fields is missing from the map and nil in the array. Of two open
containers the items of the last field are the second. -/
theorem read_struct_unordered_mixed :
    let fields : List WireField := [⟨"a", .int .u8, [0xcc, 0x05], .int .u8 5, 0⟩,
      ⟨"b", .option .bool, [0xc0], .absent, 0⟩,
      ⟨"c", .seq .integer, [0xdc, 0x00, 0x01, 0xff], .seq [.integer (.ofInt64 (-1))], 0⟩]
    let shape : Shape :=
      .struct "P" [("a", .int .u8), ("b", .option .bool), ("c", .seq .integer)] false
    let item : Item := .struct "P" [("a", .int .u8 5), ("b", .absent),
      ("c", .seq [.integer (.ofInt64 (-1))])]
    let entries : List UInt8 := [0xcd, 0x00, 0x02, 0xdc, 0x00, 0x01, 0xff,
      0xda, 0x00, 0x01, 0xff, 0x91, 0xc0,
      0xdb, 0x00, 0x00, 0x00, 0x01, 0x61, 0xcc, 0x05,
      0xcf, 0x00, 0x00, 0x00, 0x00, 0x00, 0x00, 0x00, 0x03, 0xc3]
    let items : List UInt8 := [0xcc, 0x05, 0xc0, 0xdc, 0x00, 0x01, 0xff]
    (∀ field ∈ fields, field.Reads .default 1) ∧
      AreEntries fields 1 [some 2, none, some 0, none] entries ∧
      (∃ d, shape.read .default .wire
          (new (.ofBytes ([0xde, 0x00, 0x04] ++ entries ++ [0xc0])) { maxDepth := 2 }) =
        .ok item d ∧ d.ahead = [0xc0]) ∧
      ∃ d, shape.read .default .wire
          (new (.ofBytes ([0x93] ++ items ++ [0xc0])) { maxDepth := 2 }) =
        .ok item d ∧ d.ahead = [0xc0] := by
  intro fields shape item entries items
  have hreads : ∀ field ∈ fields, field.Reads .default 1 := by
    let done (bytes : List UInt8) : Decoder :=
      { new (.ofBytes bytes) { maxDepth := 1 } with
        source := { rest := [], position := bytes.length } }
    have hnumber : ReadsWhole 1 ((Shape.int .u8).read .default .wire) [0xcc, 0x05] 0
        (.int .u8 5) := ⟨done [0xcc, 0x05], by rfl, rfl, Nat.le_refl 0⟩
    have hoption : ReadsWhole 1 ((Shape.option .bool).read .default .wire) [0xc0] 0 .absent :=
      ⟨done [0xc0], by rfl, rfl, Nat.le_refl 0⟩
    have hseq : ReadsWhole 1 ((Shape.seq .integer).read .default .wire) [0xdc, 0x00, 0x01, 0xff] 0
        (.seq [.integer (.ofInt64 (-1))]) :=
      ⟨done [0xdc, 0x00, 0x01, 0xff], by rfl, rfl, Nat.le_refl 0⟩
    simp only [fields, List.forall_mem_cons]
    exact ⟨hnumber, hoption, hseq, List.forall_mem_nil _⟩
  have hentries : AreEntries fields 1 [some 2, none, some 0, none] entries := by
    have hposition : FieldKey "c" 2 [0xcd, 0x00, 0x02] :=
      .position (n := 2) (Wire.isHeader_cons_iff.mpr ⟨rfl, rfl⟩) rfl
    have hname : FieldKey "a" 0 ([0xdb, 0x00, 0x00, 0x00, 0x01] ++ [0x61]) :=
      .name (Wire.isHeader_cons_iff.mpr ⟨rfl, rfl⟩)
    have hbyte : UnknownKey (fields.map name) ([0xda, 0x00, 0x01] ++ [0xff]) :=
      .raw (Wire.isHeader_cons_iff.mpr ⟨rfl, rfl⟩) (by decide)
    have hbeyond : UnknownKey (fields.map name)
        [0xcf, 0x00, 0x00, 0x00, 0x00, 0x00, 0x00, 0x00, 0x03] :=
      .position (n := 3) (Wire.isHeader_cons_iff.mpr ⟨rfl, rfl⟩) (by decide)
    have hnested : Value.SpelledBy (.array [.nil]) ([0x91] ++ ([0xc0] ++ [])) :=
      .array (Wire.isHeader_cons_iff.mpr ⟨rfl, rfl⟩) (.cons (.nil .nil) .nil)
    exact .cons (@IsEntry.known fields 1 2 _ _ rfl hposition)
      (.cons (.unknown hbyte hnested (by decide))
        (.cons (@IsEntry.known fields 1 0 _ _ rfl hname)
          (.cons (.unknown hbeyond (.bool (.bool true)) (by decide)) .nil)))
  have hmap : IsHeader (.map [some 2, none, some 0, none].length) [0xde, 0x00, 0x04] :=
    Wire.isHeader_cons_iff.mpr ⟨rfl, rfl⟩
  have harray : IsHeader (.array 3) [0x93] := Wire.isHeader_cons_iff.mpr ⟨rfl, rfl⟩
  have hmissing : ∀ i field, fields[i]? = some field →
      i ∈ [2, 0] ∨ field.shape.isOption = true ∧ field.item = .absent := by
    intro i field hfield
    rcases i with _ | _ | _ | i
    · exact .inl (by decide)
    · exact .inr (Option.some.inj hfield ▸ ⟨rfl, rfl⟩)
    · exact .inl (by decide)
    · cases hfield
  obtain ⟨hunordered, hitems⟩ := @read_struct_unordered .default Registry.portable_default "P" rfl
    fields (by decide) 1 hreads { maxDepth := 2 } (by decide) [0xc0]
  exact ⟨hreads, hentries, hunordered hmap hentries (by decide) hmissing, hitems harray⟩

end Shape

end MessagePack
