import MessagePack.Codec.Samples
import MessagePack.Proofs.Registry.Register
import MessagePack.Proofs.RoundTrip.InMemory

namespace MessagePack

open Decoding Decoder
open Wire (Element Forest maxLength)

/-- The ways to write any value for a type of some name: as it is, or behind a tag. -/
inductive GenericForm where
  | bare
  | tagged

namespace GenericForm

def codec : GenericForm → Codec
  | bare => .bare
  | tagged => .tagged

/-- How deep the form nests around a value that nests so deep by itself. -/
def nest : GenericForm → Nat → Nat
  | bare, height => height
  | tagged, height => height + 1

theorem le_nest (form : GenericForm) (height : Nat) : height ≤ form.nest height := by
  cases form
  · exact Nat.le_refl height
  · exact Nat.le_succ height

end GenericForm

/-- Some names have a codec of a generic form. Of the others only timestamps have one, their own. -/
def Registry.Generic (registry : Registry) (forms : String → Option GenericForm) : Prop :=
  ∀ name, registry.get? name = match forms name with
    | some form => some form.codec
    | none => if name = Timestamp.typeName then some .timestamp else none

variable {config : Config} {registry : Registry} {forms : String → Option GenericForm}

theorem Registry.Generic.of_form (h : registry.Generic forms) {name : String} {form : GenericForm}
    (hform : forms name = some form) : registry.get? name = some form.codec := by
  rw [h name, hform]

theorem Registry.Generic.free (h : registry.Generic forms) {name : String}
    (hfree : registry.get? name = none) : forms name = none := by
  cases hform : forms name with
  | none => rfl
  | some form => rw [h.of_form hform] at hfree; cases hfree

theorem Registry.Generic.timestamp (h : registry.Generic forms)
    (hnone : forms Timestamp.typeName = none) :
    registry.get? Timestamp.typeName = some .timestamp := by
  rw [h, hnone]
  exact if_pos rfl

namespace Data

/-- The type name that a registry may have a codec for. -/
def typeName? : Data → Option String
  | unitStruct name | newtype name _ | tupleStruct name _ | struct name _ => some name
  | timestamp _ => some Timestamp.typeName
  | _ => none

/-- There is no other data inside, nor a codec involved. -/
def IsLeaf : Data → Prop
  | bool _ | int _ _ | f32 _ | f64 _ | char _ | text _ | bytes _ | unit | absent | value _
  | integer _ | unitStruct _ | unitVariant _ _ => True
  | _ => False

/-- How deep data nests that is captured for a codec if its type's name has a form, and written
directly otherwise. -/
def nestAs (forms : String → Option GenericForm) (name : String) (captured direct : Nat) : Nat :=
  match forms name with
  | some form => form.nest captured
  | none => direct

variable (forms : String → Option GenericForm)

mutual

/-- How deep arrays and maps nest in what is written for data through codecs of generic forms. What
is captured for one of them is written without any. -/
def depthThrough : Data → Nat
  | present content => content.depthThrough
  | value v => v.height
  | timestamp _ => nestAs forms Timestamp.typeName 1 0
  | seq _ list | collectSeq _ list | tuple list => depthsThrough list + 1
  | map _ entries | collectMap _ entries => depthPairsThrough entries + 1
  | tupleStruct name list => nestAs forms name (depths .empty list + 1) (depthsThrough list + 1)
  | unitStruct name => nestAs forms name 0 0
  | newtype name content => nestAs forms name (content.depth .empty) content.depthThrough
  | struct name fields =>
    nestAs forms name (depthFields .empty fields + 1) (depthFieldsThrough fields + 1)
  | newtypeVariant _ _ content => content.depthThrough + 1
  | tupleVariant _ _ list => depthsThrough list + 2
  | structVariant _ _ fields => depthFieldsThrough fields + 2
  | _ => 0

def depthsThrough : List Data → Nat
  | [] => 0
  | d :: rest => max d.depthThrough (depthsThrough rest)

def depthPairsThrough : List (Data × Data) → Nat
  | [] => 0
  | (k, v) :: rest => max (max k.depthThrough v.depthThrough) (depthPairsThrough rest)

def depthFieldsThrough : List (String × Data) → Nat
  | [] => 0
  | (_, d) :: rest => max d.depthThrough (depthFieldsThrough rest)

end

theorem depthsThrough_eq_tallest (list : List Data) :
    depthsThrough forms list = tallest (depthThrough forms) list := by
  induction list with
  | nil => rfl
  | cons d list ih => rw [depthsThrough, tallest, ih]

theorem depthPairsThrough_eq_tallest (entries : List (Data × Data)) :
    depthPairsThrough forms entries =
      tallest (fun entry => max (entry.1.depthThrough forms) (entry.2.depthThrough forms))
        entries := by
  induction entries with
  | nil => rfl
  | cons entry entries ih => rw [depthPairsThrough, tallest, ih]

theorem depthFieldsThrough_eq_tallest (fields : List (String × Data)) :
    depthFieldsThrough forms fields = tallest (fun field => field.2.depthThrough forms) fields := by
  induction fields with
  | nil => rfl
  | cons field fields ih => rw [depthFieldsThrough, tallest, ih]

variable {forms} {name : String} {form : GenericForm}

theorem nestAs_of_form (h : forms name = some form) (captured direct : Nat) :
    nestAs forms name captured direct = form.nest captured := by
  rw [nestAs, h]

theorem nestAs_of_none (h : forms name = none) (captured direct : Nat) :
    nestAs forms name captured direct = direct := by
  rw [nestAs, h]

/-- Data whose type has a form is captured. -/
theorem depthThrough_of_form {d : Data} (hname : d.typeName? = some name)
    (hform : forms name = some form) : d.depthThrough forms = form.nest (d.depth .empty) := by
  cases d <;> cases hname <;> exact nestAs_of_form hform _ _

end Data

/-- The data is a value of the type, in the way that the type's own values are written. Any part of
it whose type's name has a form is a value of its type as it would be written without codecs; the
rest is as it is for types without them. -/
inductive Suits (config : Config) (registry : Registry) (forms : String → Option GenericForm) :
    Data → Shape → Prop where
  | leaf {d : Data} {shape : Shape} (single : d.IsLeaf) (fits : Fits config registry d shape) :
      Suits config registry forms d shape
  | captured {d : Data} {shape : Shape} {name : String} {form : GenericForm}
      (named : d.typeName? = some name) (known : forms name = some form)
      (fits : Fits config .empty d shape) : Suits config registry forms d shape
  | timestamp (t : Timestamp) (own : forms Timestamp.typeName = none) :
      Suits config registry forms (.timestamp t) .timestamp
  | present {d : Data} {content : Shape} (suits : Suits config registry forms d content)
      (notNil : ∀ tail, Encoder.buffered (d.encode config registry) ≠ .ok (0xc0 :: tail)) :
      Suits config registry forms (.present d) (.option content)
  | seq {len : Option Nat} {items : List Data} {item : Shape}
      (announced : ∀ n, len = some n → n = items.length) (size : items.length ≤ maxLength)
      (suits : ∀ d ∈ items, Suits config registry forms d item) :
      Suits config registry forms (.seq len items) (.seq item)
  | collectSeq {hint : Option Nat} {items : List Data} {item : Shape}
      (announced : ∀ n, hint = some n → n = items.length) (size : items.length ≤ maxLength)
      (suits : ∀ d ∈ items, Suits config registry forms d item) :
      Suits config registry forms (.collectSeq hint items) (.seq item)
  | map {len : Option Nat} {entries : List (Data × Data)} {key item : Shape}
      (announced : ∀ n, len = some n → n = entries.length) (size : entries.length ≤ maxLength)
      (keys : ∀ entry ∈ entries, Suits config registry forms entry.1 key)
      (suits : ∀ entry ∈ entries, Suits config registry forms entry.2 item) :
      Suits config registry forms (.map len entries) (.map key item)
  | collectMap {hint : Option Nat} {entries : List (Data × Data)} {key item : Shape}
      (announced : ∀ n, hint = some n → n = entries.length) (size : entries.length ≤ maxLength)
      (keys : ∀ entry ∈ entries, Suits config registry forms entry.1 key)
      (suits : ∀ entry ∈ entries, Suits config registry forms entry.2 item) :
      Suits config registry forms (.collectMap hint entries) (.map key item)
  | tuple {items : List Data} {shapes : List Shape} (size : items.length ≤ maxLength)
      (length : items.length = shapes.length)
      (suits : ∀ d shape, (d, shape) ∈ items.zip shapes → Suits config registry forms d shape) :
      Suits config registry forms (.tuple items) (.tuple shapes)
  | tupleStruct {name : String} {items : List Data} {shapes : List Shape}
      (free : registry.get? name = none) (size : items.length ≤ maxLength)
      (length : items.length = shapes.length)
      (suits : ∀ d shape, (d, shape) ∈ items.zip shapes → Suits config registry forms d shape) :
      Suits config registry forms (.tupleStruct name items) (.tupleStruct name shapes)
  | newtype {name : String} {d : Data} {content : Shape} (free : registry.get? name = none)
      (ordinary : name ≠ Encoder.coderName) (suits : Suits config registry forms d content) :
      Suits config registry forms (.newtype name d) (.newtype name content)
  | struct {name : String} {fields : List (String × Data)} {shapes : List (String × Shape)}
      {strict : Bool} (free : registry.get? name = none) (same : FieldsMatch fields shapes)
      (suits : ∀ field shape, (field, shape) ∈ fields.zip shapes →
        Suits config registry forms field.2 shape.2) :
      Suits config registry forms (.struct name fields) (.struct name shapes strict)
  | newtypeVariant {type variant : String} {variants : List (String × Content)} {d : Data}
      {content : Shape} (known : VariantOf variants variant (.newtype content))
      (suits : Suits config registry forms d content) :
      Suits config registry forms (.newtypeVariant type variant d) (.enumeration type variants)
  | tupleVariant {type variant : String} {variants : List (String × Content)} {items : List Data}
      {shapes : List Shape} (known : VariantOf variants variant (.tuple shapes))
      (size : items.length ≤ maxLength) (length : items.length = shapes.length)
      (suits : ∀ d shape, (d, shape) ∈ items.zip shapes → Suits config registry forms d shape) :
      Suits config registry forms (.tupleVariant type variant items) (.enumeration type variants)
  | structVariant {type variant : String} {variants : List (String × Content)}
      {fields : List (String × Data)} {shapes : List (String × Shape)}
      (known : VariantOf variants variant (.struct shapes)) (same : FieldsMatch fields shapes)
      (suits : ∀ field shape, (field, shape) ∈ fields.zip shapes →
        Suits config registry forms field.2 shape.2) :
      Suits config registry forms (.structVariant type variant fields)
        (.enumeration type variants)

/-- Either form is read back as the value that is written in it. -/
theorem GenericForm.exists_agree (form : GenericForm) (config : Config) {v : Value}
    {bytes : List UInt8} (h : v.SpelledBy bytes) :
    ∃ t, Agree (form.codec.encode config v) form.codec.decode [t] v ∧
      t.height = form.nest v.height := by
  obtain ⟨short, hspelled, hwrites, -⟩ := h.exists_shortest config
  obtain ⟨t, hvalue, hheight⟩ := hspelled.exists_agree hwrites
  cases form with
  | bare => exact ⟨t, hvalue, hheight⟩
  | tagged =>
    have htag : Agree (Encoder.text config "tag") Decoder.string [.node (.raw 3) []] "tag" :=
      Decoder.string_agree (by decide)
    have hbody : Agree (Encoder.text config "tag" >>= fun _ => Encoder.value config v)
        (Decoder.string >>= fun tag =>
          if tag ≠ "tag" then (throw (.custom "not tagged") : Decoding Unit) >>= fun _ =>
            Decoder.value
          else Decoder.value)
        [.node (.raw 3) [], t] v := htag.bind hvalue
    refine ⟨.node (.array 2) [.node (.raw 3) [], t], ?_, ?_⟩
    · rw [codec, Codec.tagged, Decoder.arrayLen, bind_assoc]
      exact .container rfl (by decide) (Nat.le_refl 2) hbody
    · simp [Forest.height, Wire.ElementTree.height, Element.isContainer, hheight, nest]

namespace Data

/-- A codec is given the value that the data stands for. -/
theorem encode_named {codec : Codec} {name : String} {d : Data}
    (hget : registry.get? name = some codec) (hname : d.typeName? = some name) (h : d.Encodable)
    (hroom : d.depth .empty ≤ unlimitedDepth) :
    d.encode config registry = codec.encode config d.meaning := by
  cases d with
  | unitStruct name =>
    cases hname
    simp only [encode, hget, meaning]
  | timestamp t =>
    cases hname
    have hcapture : Encoder.capture (Encoder.timePair config t) = .ok t.meaning :=
      (Value.WrittenAs.timePair t).capture hroom
    simp only [encode, hget, hcapture, Encoder.through, meaning]
  | newtype name content =>
    cases hname
    have hcapture : Encoder.capture (content.encode config .empty) = .ok content.meaning :=
      (content.writtenAs h.2 (Registry.bareTo_empty _)).capture
        (content.height_meaning.symm ▸ hroom)
    simp only [encode, if_neg h.1, hget, hcapture, Encoder.through, meaning]
  | tupleStruct name items =>
    cases hname
    have hcaptured : captureItems config items = .ok (meanings items) :=
      items_captured items h.2 ((Nat.le_succ _).trans hroom)
    simp only [encode, hget, hcaptured, meaning]
    rfl
  | struct name fields =>
    cases hname
    have hcaptured : captureFields config fields = .ok (fieldMeanings fields) :=
      fields_captured fields h.2 ((Nat.le_succ _).trans hroom)
    simp only [encode, hget, hcaptured, meaning]
    rfl
  | _ => cases hname

end Data

/-- A type is read from the session as its codec's value is read from memory. -/
theorem Fits.read_named {codec : Codec} {name : String} {d : Data} {shape : Shape}
    (hget : registry.get? name = some codec) (hname : d.typeName? = some name)
    (h : Fits config .empty d shape) :
    shape.read registry .wire = codec.decode >>= fun v => shape.read registry (.tree v) := by
  cases h <;> cases hname <;>
    simp only [Shape.read, Input.ask, Request.typeName?, Option.bind_some, hget, bind_assoc]

/-- Data that is captured comes back as the value that its codec was given, and from memory as
itself. -/
theorem Fits.agrees_of_form (hregistry : registry.Generic forms) {d : Data} {shape : Shape}
    {name : String} {form : GenericForm} (h : Fits config .empty d shape)
    (hname : d.typeName? = some name) (hform : forms name = some form)
    (hroom : d.depthThrough forms ≤ unlimitedDepth) :
    d.AgreesAt (d.depthThrough forms) config registry (shape.read registry .wire) := by
  have hget := hregistry.of_form hform
  rw [Data.depthThrough_of_form hname hform] at hroom ⊢
  have hwritten : d.meaning.WrittenBy (d.encode config .empty) := d.written h.encodable
  obtain ⟨bytes, hspelled, -⟩ := hwritten
  obtain ⟨t, hagree, hheight⟩ := form.exists_agree config hspelled
  refine ⟨[t], ?_, by simp, ?_⟩
  · rw [Data.encode_named hget hname h.encodable ((form.le_nest _).trans hroom),
      Fits.read_named hget hname h]
    exact hagree.follow h.readsBack
  · simp [Forest.height, hheight, Data.height_meaning]

/-- Data with nothing inside is read back as without codecs: no name of its type has one. -/
theorem Fits.agrees_of_leaf (hregistry : registry.Generic forms) {d : Data} {shape : Shape}
    (h : Fits config registry d shape) (hleaf : d.IsLeaf) :
    d.AgreesAt (d.depthThrough forms) config registry (shape.read registry .wire) := by
  cases h with
  | bool b => exact Shape.bool_agrees b
  | int narrow range => exact Shape.int_agrees narrow range
  | f32 bits => exact Shape.f32_agrees bits
  | f64 bits => exact Shape.f64_agrees bits
  | char c => exact Shape.char_agrees c
  | text size => exact Shape.text_agrees size
  | bytes size => exact Shape.bytes_agrees size
  | unit => exact Shape.unit_agrees
  | value sizes => exact Shape.value_agrees sizes
  | integer n => exact Shape.integer_agrees n
  | absent content => exact Shape.absent_agrees content
  | unitStruct free =>
    rw [Data.depthThrough, Data.nestAs_of_none (hregistry.free free)]
    exact Shape.unitStruct_agrees free
  | unitVariant known => exact Shape.unitVariant_agrees known
  | _ => exact hleaf.elim

theorem Timestamp.agrees_of_own (hregistry : registry.Generic forms)
    (hnone : forms typeName = none) (t : Timestamp) :
    (Data.timestamp t).AgreesAt ((Data.timestamp t).depthThrough forms) config registry
      (Shape.timestamp.read registry .wire) := by
  have hcodec := hregistry.timestamp hnone
  have hagrees : (Data.timestamp t).Agrees config registry (Shape.timestamp.read registry .wire) :=
    agrees_of_codec hcodec t
  obtain ⟨f, hagree, hf, hheight⟩ := hagrees
  refine ⟨f, hagree, hf, hheight.trans ?_⟩
  simp [Data.depth, Data.depthThrough, Data.nestAs_of_none hnone, Registry.contains, hcodec]

open Data in
/-- Data of types with codecs of generic forms is read back as those types, by induction on how it
suits them. What has a codec is read from memory, as deep as it goes. -/
theorem Suits.agrees (hregistry : registry.Generic forms) {d : Data} {shape : Shape}
    (h : Suits config registry forms d shape) (hroom : d.depthThrough forms ≤ unlimitedDepth) :
    d.AgreesAt (d.depthThrough forms) config registry (shape.read registry .wire) := by
  induction h with
  | leaf single fits => exact fits.agrees_of_leaf hregistry single
  | captured named known fits => exact fits.agrees_of_form hregistry named known hroom
  | timestamp t own => exact Timestamp.agrees_of_own hregistry own t
  | present _ notNil ih => exact Shape.present_agrees (ih hroom) notNil
  | seq announced size _ ih =>
    rw [depthThrough, depthsThrough_eq_tallest] at hroom ⊢
    have hrooms := tallest_le_iff.mp (Nat.le_of_succ_le hroom)
    refine Shape.seq_agrees size (fun d hd => ih d hd (hrooms d hd)) ?_ rfl
    exact fun header body => seq_writes announced
  | collectSeq announced size _ ih =>
    rw [depthThrough, depthsThrough_eq_tallest] at hroom ⊢
    have hrooms := tallest_le_iff.mp (Nat.le_of_succ_le hroom)
    refine Shape.seq_agrees size (fun d hd => ih d hd (hrooms d hd)) ?_ rfl
    exact fun header body => collectSeq_writes announced
  | map announced size _ _ ihkeys ih =>
    rw [depthThrough, depthPairsThrough_eq_tallest] at hroom ⊢
    have hrooms := tallest_le_iff.mp (Nat.le_of_succ_le hroom)
    refine Shape.map_agrees size
      (fun entry h => ihkeys entry h ((Nat.le_max_left _ _).trans (hrooms entry h)))
      (fun entry h => ih entry h ((Nat.le_max_right _ _).trans (hrooms entry h))) ?_ rfl
    exact fun header body => map_writes announced
  | collectMap announced size _ _ ihkeys ih =>
    rw [depthThrough, depthPairsThrough_eq_tallest] at hroom ⊢
    have hrooms := tallest_le_iff.mp (Nat.le_of_succ_le hroom)
    refine Shape.map_agrees size
      (fun entry h => ihkeys entry h ((Nat.le_max_left _ _).trans (hrooms entry h)))
      (fun entry h => ih entry h ((Nat.le_max_right _ _).trans (hrooms entry h))) ?_ rfl
    exact fun header body => collectMap_writes announced
  | tuple size length _ ih =>
    rw [depthThrough, depthsThrough_eq_tallest] at hroom ⊢
    have hrooms := tallest_le_iff.mp (Nat.le_of_succ_le hroom)
    exact Shape.tuple_agrees size (Shape.readers_match length fun d shape hmem =>
      ih d shape hmem (hrooms d (List.of_mem_zip hmem).1))
  | tupleStruct free size length _ ih =>
    rw [depthThrough, nestAs_of_none (hregistry.free free), depthsThrough_eq_tallest] at hroom ⊢
    have hrooms := tallest_le_iff.mp (Nat.le_of_succ_le hroom)
    exact Shape.tupleStruct_agrees free size (Shape.readers_match length fun d shape hmem =>
      ih d shape hmem (hrooms d (List.of_mem_zip hmem).1))
  | newtype free ordinary _ ih =>
    rw [depthThrough, nestAs_of_none (hregistry.free free)] at hroom ⊢
    exact Shape.newtype_agrees free ordinary (ih hroom)
  | struct free same _ ih =>
    rw [depthThrough, nestAs_of_none (hregistry.free free), depthFieldsThrough_eq_tallest]
      at hroom ⊢
    have hrooms := tallest_le_iff.mp (Nat.le_of_succ_le hroom)
    exact Shape.struct_agrees free same fun field shape hmem =>
      ih field shape hmem (hrooms field (List.of_mem_zip hmem).1)
  | newtypeVariant known _ ih =>
    exact Shape.newtypeVariant_agrees known (ih (Nat.le_of_succ_le hroom))
  | tupleVariant known size length _ ih =>
    rw [depthThrough, depthsThrough_eq_tallest] at hroom ⊢
    have hrooms := tallest_le_iff.mp ((Nat.le_add_right _ 2).trans hroom)
    exact Shape.tupleVariant_agrees known size (Shape.readers_match length fun d shape hmem =>
      ih d shape hmem (hrooms d (List.of_mem_zip hmem).1))
  | structVariant known same _ ih =>
    rw [depthThrough, depthFieldsThrough_eq_tallest] at hroom ⊢
    have hrooms := tallest_le_iff.mp ((Nat.le_add_right _ 2).trans hroom)
    exact Shape.structVariant_agrees known same fun field shape hmem =>
      ih field shape hmem (hrooms field (List.of_mem_zip hmem).1)

/-- Values of types with codecs of generic forms, inside one another as may be, are written and read
back as what they were, to the last byte. -/
theorem Shape.read_encode_generic (hregistry : registry.Generic forms) (config config' : Config)
    {d : Data} {shape : Shape} (hsuits : Suits config registry forms d shape)
    (hdepth : d.depthThrough forms ≤ config'.maxDepth)
    (hlimit : config'.maxDepth ≤ unlimitedDepth) :
    ∃ bytes s, Encoder.buffered (d.encode config registry) = .ok bytes ∧
      shape.read registry .wire (new (.ofBytes bytes) config') = .ok d.item s ∧
      s.source.position = bytes.length ∧ s.source.rest = [] ∧ s.peeked = none := by
  obtain ⟨f, hagree, -, hheight⟩ := hsuits.agrees hregistry (hdepth.trans hlimit)
  exact hagree.exists_run (hheight.symm ▸ hdepth)

/-- A structure behind a tag, and in it a number of a type with a codec and an option, next to a
timestamp. -/
theorem Shape.read_encode_generic_struct :
    let registry := Registry.default.register "P" .tagged |>.register "N" .bare
    let forms (name : String) : Option GenericForm :=
      if name = "N" then some .bare else if name = "P" then some .tagged else none
    let point : Data := .struct "P" [("n", .newtype "N" (.int .i16 300)), ("to", .absent)]
    let pointShape : Shape :=
      .struct "P" [("n", .newtype "N" (.int .i16)), ("to", .option .bool)] false
    let d : Data := .tuple [point, .newtype "N" (.int .i8 (-1)), .timestamp (.new 5 7)]
    let shape : Shape := .tuple [pointShape, .newtype "N" (.int .i8), .timestamp]
    registry.Generic forms ∧ Suits {} registry forms d shape ∧
      d.depthThrough forms ≤ ({ maxDepth := 3 } : Config).maxDepth ∧
      ({ maxDepth := 3 } : Config).maxDepth ≤ unlimitedDepth ∧
      (∃ bytes s, Encoder.buffered (d.encode {} registry) = .ok bytes ∧
        shape.read registry .wire (new (.ofBytes bytes) { maxDepth := 3 }) = .ok d.item s ∧
        s.source.position = bytes.length ∧ s.source.rest = [] ∧ s.peeked = none) ∧
      Encoder.buffered (d.encode {} registry) = .ok [0x93, 0x92, 0xa3, 0x74, 0x61, 0x67, 0x82, 0xa1,
        0x6e, 0xcd, 0x01, 0x2c, 0xa2, 0x74, 0x6f, 0xc0, 0xff, 0x05, 0x07] := by
  intro registry forms point pointShape d shape
  have hregistry : registry.Generic forms := by
    intro name
    simp only [registry, forms, Registry.default, Registry.get?_register]
    split_ifs <;> rfl
  have hsame : FieldsMatch [("n", .newtype "N" (.int .i16 300)), ("to", .absent)]
      [("n", .newtype "N" (.int .i16)), ("to", .option .bool)] :=
    ⟨by decide, rfl, by decide, by decide⟩
  have hpoint : Fits {} .empty point pointShape := by
    refine .struct rfl hsame ?_
    intro field shape hmem
    simp only [List.zip_cons_cons, List.zip_nil_left, List.mem_cons, List.not_mem_nil, or_false,
      Prod.mk.injEq] at hmem
    rcases hmem with ⟨rfl, rfl⟩ | ⟨rfl, rfl⟩
    · exact .newtype rfl (by decide) (.int rfl rfl)
    · exact .absent .bool
  have hsuits : Suits {} registry forms d shape := by
    refine .tuple (by decide) rfl ?_
    intro d shape hmem
    simp only [List.zip_cons_cons, List.zip_nil_left, List.mem_cons, List.not_mem_nil, or_false,
      Prod.mk.injEq] at hmem
    rcases hmem with ⟨rfl, rfl⟩ | ⟨rfl, rfl⟩ | ⟨rfl, rfl⟩
    · exact .captured rfl rfl hpoint
    · exact .captured rfl rfl (.newtype rfl (by decide) (.int rfl rfl))
    · exact .timestamp _ rfl
  have hdepth : d.depthThrough forms ≤ ({ maxDepth := 3 } : Config).maxDepth := by decide
  exact ⟨hregistry, hsuits, hdepth, by decide,
    read_encode_generic hregistry {} { maxDepth := 3 } hsuits hdepth (by decide), by decide +kernel⟩

end MessagePack
