import MessagePack.Proofs.Readers.Keys
import MessagePack.Proofs.RoundTrip.Items

namespace MessagePack

open Decoding Decoder
open Encoding (Writes)
open Wire (Element Forest Marker Streams maxLength)

variable {α : Type} {config : Config} {registry : Registry} {height : Data → Nat}

/-- A name that comes once is found where it is. -/
theorem lookup_of_mem {list : List (String × α)} {name : String} {a : α}
    (hdistinct : (list.map Prod.fst).Nodup) (hmem : (name, a) ∈ list) :
    list.lookup name = some a := by
  induction list with
  | nil => simp at hmem
  | cons entry list ih =>
    obtain ⟨hnew, hrest⟩ := List.nodup_cons.mp hdistinct
    rcases List.mem_cons.mp hmem with rfl | hmem
    · simp
    · have hother : (name == entry.1) = false := by
        rw [beq_eq_false_iff_ne]
        intro heq
        exact hnew (heq ▸ List.mem_map.mpr ⟨_, hmem, rfl⟩)
      rw [List.lookup_cons, hother]
      exact ih hrest hmem

/-- Whether the table of fields has the name or not, it is read as itself. -/
private theorem fieldKey_agree {name : String} (hsize : (Text.utf8 name).length ≤ maxLength)
    (fields : Fields) :
    Agree (Encoder.text config name) (Entries.fieldKey fields)
      [.node (.raw (Text.utf8 name).length) []] (.token (.text name)) := by
  rw [Entries.fieldKey_eq]
  apply Agree.raw hsize
  intro d d' hpayload
  have hkey : Entries.rawKey (Text.utf8 name) = .token (.text name) := by simp [Entries.rawKey]
  exact (bind_of_ok (Entries.keyBytes_eq_ok_iff.mpr hpayload)).trans (by rw [hkey]; rfl)

theorem Choices.settle_of_byText? {known : Choices α} {name : String} {choice : α}
    (h : known.byText? name = some choice) :
    known.settle (known.byText? name) (known.unknown name) = pure choice := by
  rw [settle, h]
  rfl

theorem Choices.read_text_agree {known : Choices α} {name : String} {choice : α}
    (hsize : (Text.utf8 name).length ≤ maxLength) (hchoice : known.byText? name = some choice) :
    Agree (Encoder.text config name) (known.read .wire)
      [.node (.raw (Text.utf8 name).length) []] choice := by
  have hoffer : Agree (Encoder.text config name) (Decoder.offer .identifier)
      [.node (.raw (Text.utf8 name).length) []] (.text name) := by
    apply Agree.raw hsize
    intro d d' hpayload
    refine (bind_of_ok hpayload).trans ?_
    rw [Text.ofUtf8?_utf8]
    rfl
  exact hoffer.follow (settle_of_byText? hchoice)

theorem Entries.key_agree {known : Choices α} {name : String} {choice : α}
    (hsize : (Text.utf8 name).length ≤ maxLength) (hchoice : known.byText? name = some choice)
    (table : Option Fields) :
    Agree (Encoder.text config name) (Entries.key table >>= known.read)
      [.node (.raw (Text.utf8 name).length) []] choice := by
  cases table with
  | none => exact known.read_text_agree hsize hchoice
  | some fields =>
    have hkey : Agree (Encoder.text config name) (Entries.key (some fields))
        [.node (.raw (Text.utf8 name).length) []] (.token (.text name)) := by
      apply (fieldKey_agree hsize fields).peek (by simp)
      intro tag tail hwrites hstreams
      obtain ⟨field, hfield⟩ := hstreams.exists_field
      rw [(Element.isRaw_of_ofField hfield).1, if_pos rfl]
    exact hkey.follow (Choices.settle_of_byText? hchoice)

namespace FieldReader

/-- The field has the reader's name, and the reader reads its data. -/
def Matches (reads : Data → Reader Item → Prop) (field : String × Data) (reader : FieldReader) :
    Prop :=
  field.1 = reader.name ∧ reads field.2 reader.read

variable {reads : Data → Reader Item → Prop} {readers : List FieldReader}
  {fields : List (String × Data)} (strict : Bool)

theorem byText?_of_getElem? {i : Nat} {reader : FieldReader}
    (hdistinct : (readers.map name).Nodup) (h : readers[i]? = some reader) :
    (keys readers strict).byText? reader.name = some (some (i, reader)) := by
  have hnames : (keys readers strict).choices.map Prod.fst = readers.map name := by
    conv_rhs => rw [← List.zipIdx_map_fst 0 readers]
    rw [keys, List.map_map, List.map_map]
    rfl
  have hmem : (reader, i) ∈ readers.zipIdx := List.mk_mem_zipIdx_iff_getElem?.mpr h
  apply lookup_of_mem
  · rw [hnames]
    exact hdistinct
  · exact List.mem_map.mpr ⟨(reader, i), hmem, rfl⟩

theorem byText?_keys {before : List FieldReader} {reader : FieldReader}
    (hdistinct : ((before ++ reader :: readers).map name).Nodup) :
    (keys (before ++ reader :: readers) strict).byText? reader.name =
      some (some (before.length, reader)) :=
  byText?_of_getElem? strict hdistinct (by simp)

section

variable (filled : List Item) (rest : List (Option Item))

/-- With the slots filled up from the front, the next one is empty. -/
theorem getD_slots :
    (filled.map some ++ none :: rest).getD filled.length none = none := by
  simp

theorem set_slots (item : Item) : (filled.map some ++ none :: rest).set filled.length (some item) =
    (filled ++ [item]).map some ++ rest := by
  simp

end

/-- The slots fill up from the front, as fields are written in the order of their readers. -/
theorem fillSlots_agree (before : List FieldReader)
    (h : List.Forall₂ (Matches fun d one => d.AgreesAt (height d) config registry (one .wire))
      fields readers)
    (hsizes : ∀ field ∈ fields, (Text.utf8 field.1).length ≤ maxLength)
    (hdistinct : ((before ++ readers).map name).Nodup) (filled : List Item)
    (hfilled : filled.length = before.length) :
    ∃ f, (∀ table, Agree (Data.encodeFields config registry fields)
        ((List.replicate fields.length (Entries.key table, .wire)).foldlM
          (fillSlot (keys (before ++ readers) strict))
          (filled.map some ++ List.replicate readers.length none)) f
        ((filled ++ fields.map fun field => field.2.item).map some)) ∧
      2 * fields.length ≤ f.length ∧
      f.height = tallest (fun field => height field.2) fields := by
  induction h generalizing before filled with
  | nil =>
    refine ⟨[], fun table => ?_, Nat.le_refl _, rfl⟩
    simp only [List.length_nil, List.replicate_zero, List.map_nil, List.append_nil]
    exact .nothing _
  | @cons field reader fields readers hone _ ih =>
    obtain ⟨label, d⟩ := field
    obtain ⟨rfl, f, hread, hf, hheight⟩ := hone
    have hsame : before ++ reader :: readers = before ++ [reader] ++ readers := by simp
    obtain ⟨g, hrest, hlen, hheights⟩ := ih (before ++ [reader])
      (fun field h => hsizes field (by simp [h])) (hsame ▸ hdistinct) (filled ++ [d.item])
      (by simp [hfilled])
    have hpos := List.length_pos_iff.mpr hf
    refine ⟨[.node (.raw (Text.utf8 reader.name).length) []] ++ (f ++ g), fun table => ?_, ?_, ?_⟩
    · have hkey : Agree (Encoder.text config reader.name)
          (Entries.key table >>= (keys (before ++ reader :: readers) strict).read)
          [.node (.raw (Text.utf8 reader.name).length) []] (some (before.length, reader)) :=
        Entries.key_agree (hsizes (reader.name, d) (by simp)) (byText?_keys strict hdistinct) table
      have hopen := hfilled ▸ getD_slots filled (List.replicate readers.length none)
      have hset := hfilled ▸ set_slots filled (List.replicate readers.length none) d.item
      have hnext : Agree (d.encode config registry >>= fun _ =>
          Data.encodeFields config registry fields) (reader.read .wire >>= fun item =>
            (List.replicate fields.length (Entries.key table, .wire)).foldlM
              (fillSlot (keys (before ++ reader :: readers) strict))
              ((filled.map some ++ none :: List.replicate readers.length none).set
                before.length (some item))) (f ++ g)
          ((filled ++ d.item :: fields.map fun field => field.2.item).map some) := by
        apply hread.bind
        rw [hset, hsame]
        simpa using hrest table
      rw [List.length_cons, List.length_cons, List.replicate_succ, List.replicate_succ,
        List.foldlM_cons, fillSlot, bind_assoc]
      apply hkey.bind
      dsimp only
      rw [hopen]
      simpa only [Option.isSome_none, Bool.false_eq_true, if_false, bind_assoc, pure_bind,
        List.map_cons] using hnext
    · simp only [List.length_append, List.length_cons, List.length_nil]
      omega
    · simp only [Forest.height_append, hheight, hheights, tallest]
      simp [Forest.height, Wire.ElementTree.height, Element.isContainer]

theorem collect_eq (h : List.Forall₂ (Matches reads) fields readers) :
    collect readers ((fields.map fun field => field.2.item).map some) =
      .ok (Data.itemFields fields) := by
  induction h with
  | nil => rfl
  | @cons field reader fields readers hone _ ih =>
    obtain ⟨label, d⟩ := field
    obtain ⟨rfl, -⟩ := hone
    simp only [List.map_cons, collect, ih]
    rfl

/-- A structure is read from the map it is written as. -/
theorem readEntries_agree
    (h : List.Forall₂ (Matches fun d one => d.AgreesAt (height d) config registry (one .wire))
      fields readers)
    (hsizes : ∀ field ∈ fields, (Text.utf8 field.1).length ≤ maxLength)
    (hdistinct : (readers.map name).Nodup) :
    ∃ f, (∀ table, Agree (Data.encodeFields config registry fields)
        (readEntries readers strict (.wire fields.length fields.length table)) f
        (Data.itemFields fields)) ∧
      2 * fields.length ≤ f.length ∧
      f.height = tallest (fun field => height field.2) fields := by
  obtain ⟨f, hagree, hlen, hheight⟩ :=
    fillSlots_agree strict [] h hsizes hdistinct [] rfl
  refine ⟨f, fun table => ?_, hlen, hheight⟩
  rw [readEntries_eq]
  apply (hagree table).follow
  simp only [List.nil_append, collect_eq h]
  rfl

end FieldReader

namespace Shape

theorem fieldReaders_eq_map (shapes : List (String × Shape)) :
    Shape.fieldReaders registry shapes = shapes.map fun shape =>
      ⟨shape.1, shape.2.isOption, shape.2.read registry⟩ := by
  induction shapes with
  | nil => rfl
  | cons shape rest ih => rw [Shape.fieldReaders, ih, List.map_cons]

/-- Fields that fit the types one by one are read by them. -/
theorem fieldReaders_match {reads : Data → Reader Item → Prop} {fields : List (String × Data)}
    {shapes : List (String × Shape)} (hsame : FieldsMatch fields shapes)
    (h : ∀ field shape, (field, shape) ∈ fields.zip shapes →
      reads field.2 (shape.2.read registry)) :
    List.Forall₂ (FieldReader.Matches reads) fields (Shape.fieldReaders registry shapes) := by
  have hnames : List.Forall₂ (fun field shape => field.1 = shape.1) fields shapes := by
    have heq := hsame.names
    rwa [← List.forall₂_eq_eq_eq, List.forall₂_map_left_iff, List.forall₂_map_right_iff] at heq
  obtain ⟨hlen, hname⟩ := List.forall₂_iff_zip.mp hnames
  rw [Shape.fieldReaders_eq_map, List.forall₂_map_right_iff]
  exact List.forall₂_iff_zip.mpr ⟨hlen, fun {field shape} hmem =>
    ⟨hname hmem, h field shape hmem⟩⟩

theorem fieldReaders_distinct {fields : List (String × Data)} {shapes : List (String × Shape)}
    (hsame : FieldsMatch fields shapes) :
    ((Shape.fieldReaders registry shapes).map FieldReader.name).Nodup := by
  rw [Shape.fieldReaders_eq_map, List.map_map]
  exact hsame.distinct

theorem struct_agrees {name : String} {fields : List (String × Data)}
    {shapes : List (String × Shape)} {strict : Bool} (hfree : registry.get? name = none)
    (hsame : FieldsMatch fields shapes)
    (h : ∀ field shape, (field, shape) ∈ fields.zip shapes →
      field.2.AgreesAt (height field.2) config registry (shape.2.read registry .wire)) :
    (Data.struct name fields).AgreesAt (tallest (fun field => height field.2) fields + 1)
      config registry
      ((Shape.struct name shapes strict).read registry .wire) := by
  obtain ⟨f, hagree, hlen, hheight⟩ := FieldReader.readEntries_agree strict
    (fieldReaders_match hsame h) hsame.sizes (fieldReaders_distinct hsame)
  have hask : Input.ask registry (.struct name (shapes.map Prod.fst)) .wire =
      Decoder.offer (.struct name (shapes.map Prod.fst)) := Input.ask_wire hfree
  rw [Shape.read, hask, Decoder.offer, bind_assoc]
  refine .of_container (.map fields.length) (Data.encodeFields config registry fields) rfl
    hsame.size hlen ?_ ?_ hheight
  · dsimp only
    rw [bind_assoc]
    exact .fieldsOf fun table => (hagree table).follow rfl
  · intro header body hheader hbody
    simp only [Data.encode, hfree]
    exact hheader.bind hbody

end Shape

/-- A variant without contents is its name alone. -/
theorem Decoder.offerVariant_name_agree {variant : String} {take : VariantOffer → Decoding Item}
    {item : Item} (hagree : Agree (Encoder.text config variant) (take (.variant .wire none))
      [.node (.raw (Text.utf8 variant).length) []] item) :
    Agree (Encoder.text config variant) (offerVariant >>= take)
      [.node (.raw (Text.utf8 variant).length) []] item := by
  rw [offerVariant, bind_assoc]
  apply hagree.peek (by simp)
  intro tag tail hwrites hstreams
  obtain ⟨field, hfield⟩ := hstreams.exists_field
  obtain ⟨hraw, hmap⟩ := Element.isRaw_of_ofField hfield
  rw [hmap, hraw]
  rfl

/-- A variant with contents is a map of one entry around them. -/
theorem Decoder.offerVariant_agree {variant : String} {encoding : Encoding Unit}
    {take : VariantOffer → Decoding Item} {f : Forest} {item : Item} (hlen : 2 ≤ f.length)
    (hagree : Agree (Encoder.text config variant >>= fun _ => encoding)
      (take (.variant .wire (some .wire))) f item) :
    Agree (Encoder.variant config variant >>= fun _ => encoding) (offerVariant >>= take)
      [.node (.map 1) f] item := by
  have hmapped : Agree (Encoder.mapLen config 1 >>= fun _ =>
      (Encoder.text config variant >>= fun _ => encoding))
      (mapLen >>= fun len => (if len ≠ 1 then throw (.rejected (.variantEntries len)) else
        pure (.variant .wire (some .wire))) >>= take) [.node (.map 1) f] item := by
    rw [mapLen, bind_assoc]
    exact .container rfl (by decide) hlen hagree
  have hassoc : (Encoder.variant config variant >>= fun _ => encoding) =
      Encoder.mapLen config 1 >>= fun _ => (Encoder.text config variant >>= fun _ => encoding) := by
    rw [Encoder.variant, bind_assoc]
  rw [hassoc, offerVariant, bind_assoc]
  apply hmapped.peek (by simp)
  intro tag tail hwrites hstreams
  obtain ⟨field, hfield⟩ := hstreams.exists_field
  rw [Element.isMap_of_ofField hfield, if_pos rfl, bind_assoc]
  rfl

namespace Shape

variable {type variant : String} {variants : List (String × Content)} {content : Content}

theorem contentReaders_eq_map (type : String) (variants : List (String × Content)) :
    Shape.contentReaders registry type variants = variants.map fun variant =>
      (variant.1, variant.2.read registry type variant.1) := by
  induction variants with
  | nil => rfl
  | cons variant rest ih => rw [Shape.contentReaders, ih, List.map_cons]

/-- The name of a variant selects the reader of its contents. -/
theorem variant_name_agree (h : VariantOf variants variant content) :
    Agree (Encoder.text config variant)
      ((ContentReader.keys (Shape.contentReaders registry type variants)).read .wire)
      [.node (.raw (Text.utf8 variant).length) []] (content.read registry type variant) := by
  apply Choices.read_text_agree h.size
  apply lookup_of_mem
  · rw [ContentReader.keys, Shape.contentReaders_eq_map, List.map_map]
    exact h.distinct
  · rw [ContentReader.keys, Shape.contentReaders_eq_map]
    exact List.mem_map.mpr ⟨_, h.mem, rfl⟩

theorem unitVariant_agrees (h : VariantOf variants variant .unit) :
    (Data.unitVariant type variant).Agrees config registry
      ((Shape.enumeration type variants).read registry .wire) := by
  have hread : Agree (Encoder.text config variant)
      ((Shape.enumeration type variants).read registry .wire)
      [.node (.raw (Text.utf8 variant).length) []] (.unitVariant type variant) :=
    Decoder.offerVariant_name_agree ((variant_name_agree h).follow rfl)
  exact .of_leaf hread rfl rfl

/-- The contents of a variant, inside the map that they are written in. -/
theorem variant_agrees {d : Data} {encoding : Encoding Unit} {f : Forest} {height : Nat}
    (h : VariantOf variants variant content)
    (hcontent : Agree encoding (content.read registry type variant (some .wire)) f d.item)
    (hf : f ≠ [])
    (hwrite : d.encode config registry = Encoder.variant config variant >>= fun _ => encoding)
    (hheight : f.height = height) :
    d.AgreesAt (height + 1) config registry
      ((Shape.enumeration type variants).read registry .wire) := by
  have hpos := List.length_pos_iff.mpr hf
  have hlen : 2 ≤ (Wire.ElementTree.node (.raw (Text.utf8 variant).length) [] :: f).length := by
    rw [List.length_cons]
    omega
  have hread : Agree (Encoder.variant config variant >>= fun _ => encoding)
      ((Shape.enumeration type variants).read registry .wire)
      [.node (.map 1) (.node (.raw (Text.utf8 variant).length) [] :: f)] d.item :=
    Decoder.offerVariant_agree hlen ((variant_name_agree h).bind hcontent)
  refine ⟨_, hwrite ▸ hread, by simp, ?_⟩
  simp [Forest.height, Wire.ElementTree.height, Element.isContainer, hheight]

theorem newtypeVariant_agrees {d : Data} {content : Shape} {height : Nat}
    (h : VariantOf variants variant (.newtype content))
    (hcontent : d.AgreesAt height config registry (content.read registry .wire)) :
    (Data.newtypeVariant type variant d).AgreesAt (height + 1) config registry
      ((Shape.enumeration type variants).read registry .wire) := by
  obtain ⟨f, hagree, hf, hheight⟩ := hcontent
  have hread : Agree (d.encode config registry)
      ((Content.newtype content).read registry type variant (some .wire)) f
      (.newtypeVariant type variant d.item) := hagree.follow rfl
  exact variant_agrees h hread hf rfl hheight

theorem tupleVariant_agrees {list : List Data} {shapes : List Shape}
    (h : VariantOf variants variant (.tuple shapes)) (hsize : list.length ≤ maxLength)
    (hitems : List.Forall₂ (fun d one => d.AgreesAt (height d) config registry (one .wire)) list
      (Shape.readers registry shapes)) :
    (Data.tupleVariant type variant list).AgreesAt (tallest height list + 2) config registry
      ((Shape.enumeration type variants).read registry .wire) := by
  obtain ⟨f, hagree, hlen, hheight⟩ := Offer.takeTuple_agree hsize hitems
    s!"tuple variant {type}::{variant}"
    (withElements s!"tuple variant {type}::{variant}" shapes.length)
  have hread := hagree.follow (k := fun list => pure (Item.tupleVariant type variant list)) rfl
  rw [bind_assoc] at hread
  exact variant_agrees h hread (List.ne_nil_of_length_eq_add_one hlen) rfl hheight

theorem structVariant_agrees {fields : List (String × Data)} {shapes : List (String × Shape)}
    (h : VariantOf variants variant (.struct shapes)) (hsame : FieldsMatch fields shapes)
    (hfields : ∀ field shape, (field, shape) ∈ fields.zip shapes →
      field.2.AgreesAt (height field.2) config registry (shape.2.read registry .wire)) :
    (Data.structVariant type variant fields).AgreesAt
      (tallest (fun field => height field.2) fields + 2) config registry
      ((Shape.enumeration type variants).read registry .wire) := by
  obtain ⟨f, hagree, hlen, hheight⟩ := FieldReader.readEntries_agree false
    (fieldReaders_match hsame hfields) hsame.sizes (fieldReaders_distinct hsame)
  have hread : Agree (Encoder.mapLen config fields.length >>= fun _ =>
        Data.encodeFields config registry fields)
      ((Content.struct shapes).read registry type variant (some .wire))
      [.node (.map fields.length) f] (.structVariant type variant (Data.itemFields fields)) := by
    rw [Content.read, Input.askStruct_wire, Decoder.offer, bind_assoc]
    exact .container rfl hsame.size hlen ((hagree none).follow rfl)
  refine variant_agrees h hread (by simp) rfl ?_
  simp [Forest.height, Wire.ElementTree.height, Element.isContainer, hheight]

end Shape

end MessagePack
