import MessagePack.Proofs.RoundTrip.Scalar

namespace MessagePack

open Decoding Decoder
open Encoding (Writes)
open Wire (Element Forest Streams maxLength)

variable {config : Config} {registry : Registry} {height : Data → Nat}

theorem Shape.absent_agrees (content : Shape) :
    Data.absent.Agrees config registry ((Shape.option content).read registry .wire) := by
  have hnil : Agree (Encoder.nil config) (nextElement >>= fun _ => pure Offer.absent)
      [.node .nil []] .absent := .scalar rfl rfl
  have hoffer : Agree (Encoder.nil config) (Decoder.offer .option) [.node .nil []] .absent := by
    apply hnil.peek (by simp)
    intro tag tail hwrites hstreams
    obtain ⟨field, hfield⟩ := hstreams.exists_field
    rw [Element.eq_nil_of_ofField hfield]
  exact .of_leaf (hoffer.follow rfl) rfl rfl

/-- What is present is read with the tag that was looked at. -/
theorem Shape.present_agrees {d : Data} {content : Shape} {height : Nat}
    (h : d.AgreesAt height config registry (content.read registry .wire))
    (hnil : ∀ tail, Encoder.buffered (d.encode config registry) ≠ .ok (0xc0 :: tail)) :
    (Data.present d).AgreesAt height config registry
      ((Shape.option content).read registry .wire) := by
  obtain ⟨f, hagree, hf, hheight⟩ := h
  have hcontent : Agree (d.encode config registry)
      (content.read registry .wire >>= fun item => pure (Item.present item)) f (.present d.item) :=
    hagree.follow rfl
  refine ⟨f, ?_, hf, hheight⟩
  have hask : Input.ask registry .option .wire = Decoder.offer .option := rfl
  rw [Shape.read, hask, Decoder.offer, bind_assoc]
  apply hcontent.peek hf
  intro tag tail hwrites hstreams
  cases hmarker : Wire.Marker.ofByte tag with
  | nil =>
    have htag := Wire.Marker.toByte_ofByte tag
    rw [hmarker] at htag
    have hbytes := hwrites.buffered
    rw [← htag] at hbytes
    exact absurd hbytes (hnil tail)
  | _ => rfl

theorem Shape.newtype_agrees {name : String} {d : Data} {content : Shape} {height : Nat}
    (hfree : registry.get? name = none) (hordinary : name ≠ Encoder.coderName)
    (h : d.AgreesAt height config registry (content.read registry .wire)) :
    (Data.newtype name d).AgreesAt height config registry
      ((Shape.newtype name content).read registry .wire) := by
  obtain ⟨f, hagree, hf, hheight⟩ := h
  have hwrite : (Data.newtype name d).encode config registry = d.encode config registry := by
    simp only [Data.encode, hfree, if_neg hordinary]
  have hask : Input.ask registry (.newtype name) .wire = pure (.newtype .wire) :=
    Input.ask_wire hfree
  refine ⟨f, ?_, hf, hheight⟩
  rw [hwrite, Shape.read, hask, pure_bind]
  exact hagree.follow rfl

/-- Items written one after the other are read one after the other. -/
theorem Data.encodeItems_agree {X : Type} {one : X → Decoding Item} {list : List Data}
    {places : List X}
    (h : List.Forall₂ (fun d place => d.AgreesAt (height d) config registry (one place)) list
      places) :
    ∃ f, Agree (encodeItems config registry list) (places.mapM one) f (items list) ∧
      list.length ≤ f.length ∧ f.height = tallest height list := by
  induction h with
  | nil => exact ⟨[], .nothing _, Nat.le_refl _, rfl⟩
  | @cons d place list places hone _ ih =>
    obtain ⟨f, hagree, hf, hheight⟩ := hone
    obtain ⟨g, hagree', hlen, hheights⟩ := ih
    have hpos := List.length_pos_iff.mpr hf
    refine ⟨f ++ g, ?_, ?_, ?_⟩
    · rw [List.mapM_cons]
      exact hagree.bind (hagree'.follow rfl)
    · rw [List.length_append, List.length_cons]
      omega
    · rw [Forest.height_append, hheight, hheights]
      rfl

theorem Items.readAll_agree {one : Reader Item} {list : List Data}
    (h : ∀ d ∈ list, d.AgreesAt (height d) config registry (one .wire)) :
    ∃ f, Agree (Data.encodeItems config registry list)
        (readAll one (.wire list.length list.length)) f (Data.items list) ∧
      list.length ≤ f.length ∧ f.height = tallest height list := by
  rw [readAll_eq, inputs, ← List.map_const']
  refine Data.encodeItems_agree (List.forall₂_map_right_iff.mpr ?_)
  exact List.forall₂_same.mpr h

theorem Shape.seq_agrees {list : List Data} {d : Data} {item : Shape}
    (hsize : list.length ≤ maxLength)
    (h : ∀ d ∈ list, d.AgreesAt (height d) config registry (item.read registry .wire))
    (hwrites : ∀ header body, Writes (Encoder.arrayLen config list.length) header →
      Writes (Data.encodeItems config registry list) body →
      Writes (d.encode config registry) (header ++ body))
    (hitem : d.item = .seq (Data.items list)) :
    d.AgreesAt (tallest height list + 1) config registry
      ((Shape.seq item).read registry .wire) := by
  obtain ⟨f, hagree, hlen, hheight⟩ := Items.readAll_agree h
  have hask : Input.ask registry .seq .wire = offerSeq := rfl
  rw [Shape.read, hask, offerSeq, bind_assoc]
  refine .of_container (.array list.length) (Data.encodeItems config registry list) rfl hsize hlen
    ?_ hwrites hheight
  rw [hitem]
  exact hagree.follow rfl

/-- The length of a sequence comes first, even where it is only known at the end. -/
theorem Data.seq_writes {len : Option Nat} {list : List Data}
    (hlen : ∀ n, len = some n → n = list.length) {header body : List UInt8}
    (h : Writes (Encoder.arrayLen config list.length) header)
    (h' : Writes (encodeItems config registry list) body) :
    Writes ((seq len list).encode config registry) (header ++ body) := by
  cases len with
  | none => exact h.afterwards h'
  | some n =>
    obtain rfl := hlen n rfl
    exact h.bind h'

private theorem getD_of_announced {hint : Option Nat} {len : Nat}
    (h : ∀ n, hint = some n → n = len) : hint.getD len = len := by
  cases hint with
  | none => rfl
  | some n => exact h n rfl

theorem Data.collectSeq_writes {hint : Option Nat} {list : List Data}
    (hlen : ∀ n, hint = some n → n = list.length) {header body : List UInt8}
    (h : Writes (Encoder.arrayLen config list.length) header)
    (h' : Writes (encodeItems config registry list) body) :
    Writes ((collectSeq hint list).encode config registry) (header ++ body) := by
  have hannounced := getD_of_announced hlen
  have hall := h.bind (h'.bind .nothing)
  rw [List.append_nil] at hall
  simpa [Data.encode, hannounced] using hall

theorem Shape.readers_eq_map (shapes : List Shape) :
    Shape.readers registry shapes = shapes.map (Shape.read registry) := by
  induction shapes with
  | nil => rfl
  | cons shape rest ih => rw [Shape.readers, ih, List.map_cons]

/-- Items that fit the types one by one are read by them. -/
theorem Shape.readers_match {reads : Data → Reader Item → Prop} {list : List Data}
    {shapes : List Shape} (hlen : list.length = shapes.length)
    (h : ∀ d shape, (d, shape) ∈ list.zip shapes → reads d (shape.read registry)) :
    List.Forall₂ reads list (Shape.readers registry shapes) := by
  rw [Shape.readers_eq_map, List.forall₂_map_right_iff]
  exact List.forall₂_iff_zip.mpr ⟨hlen, fun {d shape} hmem => h d shape hmem⟩

/-- A tuple is read from the array it is written as. -/
theorem Offer.takeTuple_agree {list : List Data} {readers : List (Reader Item)}
    (hsize : list.length ≤ maxLength)
    (h : List.Forall₂ (fun d one => d.AgreesAt (height d) config registry (one .wire)) list readers)
    (expected short : String) :
    ∃ f, Agree (Encoder.arrayLen config list.length >>= fun _ =>
          Data.encodeItems config registry list)
        (offerSeq >>= fun o => o.takeTuple expected short readers) f (Data.items list) ∧
      f.length = 1 ∧ f.height = tallest height list + 1 := by
  obtain ⟨f, hagree, hlen, hheight⟩ := Data.encodeItems_agree h
  refine ⟨[.node (.array list.length) f], ?_, rfl, ?_⟩
  · rw [offerSeq, bind_assoc]
    refine .container rfl hsize hlen ?_
    change Agree _ ((Items.wire list.length list.length).readTuple short readers) f _
    rwa [Items.readTuple_wire h.length_eq]
  · simp [Forest.height, Wire.ElementTree.height, Element.isContainer, hheight]

theorem Shape.tuple_agrees {list : List Data} {shapes : List Shape}
    (hsize : list.length ≤ maxLength)
    (h : List.Forall₂ (fun d one => d.AgreesAt (height d) config registry (one .wire)) list
      (Shape.readers registry shapes)) :
    (Data.tuple list).AgreesAt (tallest height list + 1) config registry
      ((Shape.tuple shapes).read registry .wire) := by
  obtain ⟨f, hagree, hlen, hheight⟩ := Offer.takeTuple_agree hsize h
    s!"a tuple of size {shapes.length}" s!"a tuple of size {shapes.length}"
  refine ⟨f, ?_, List.ne_nil_of_length_eq_add_one hlen, hheight⟩
  have hread := hagree.follow (k := fun list => pure (Item.tuple list)) rfl
  rw [bind_assoc] at hread
  exact hread

theorem Shape.tupleStruct_agrees {name : String} {list : List Data} {shapes : List Shape}
    (hfree : registry.get? name = none) (hsize : list.length ≤ maxLength)
    (h : List.Forall₂ (fun d one => d.AgreesAt (height d) config registry (one .wire)) list
      (Shape.readers registry shapes)) :
    (Data.tupleStruct name list).AgreesAt (tallest height list + 1) config registry
      ((Shape.tupleStruct name shapes).read registry .wire) := by
  obtain ⟨f, hagree, hlen, hheight⟩ := Offer.takeTuple_agree hsize h ("tuple struct " ++ name)
    (withElements ("tuple struct " ++ name) shapes.length)
  refine ⟨f, ?_, List.ne_nil_of_length_eq_add_one hlen, hheight⟩
  have hread := hagree.follow (k := fun list => pure (Item.tupleStruct name list)) rfl
  have hask : Input.ask registry (.tupleStruct name) .wire = offerSeq := Input.ask_wire hfree
  rw [bind_assoc, ← hask] at hread
  simp only [Data.encode, hfree]
  exact hread

theorem Entries.readAll_agree {key item : Reader Item} {entries : List (Data × Data)}
    (hkeys : ∀ entry ∈ entries, entry.1.AgreesAt (height entry.1) config registry (key .wire))
    (hitems : ∀ entry ∈ entries, entry.2.AgreesAt (height entry.2) config registry (item .wire))
    (total : Nat) :
    ∃ f, Agree (Data.encodeEntries config registry entries)
        (readAll key item (.wire entries.length total none)) f (Data.itemPairs entries) ∧
      2 * entries.length ≤ f.length ∧
      f.height = tallest (fun entry => max (height entry.1) (height entry.2)) entries := by
  rw [readAll_eq, pairs]
  induction entries with
  | nil => exact ⟨[], .nothing _, Nat.le_refl _, rfl⟩
  | cons entry entries ih =>
    obtain ⟨k, v⟩ := entry
    obtain ⟨f, hkey, hf, hheight⟩ := hkeys (k, v) (by simp)
    obtain ⟨g, hitem, hg, hheight'⟩ := hitems (k, v) (by simp)
    obtain ⟨rest, hrest, hlen, hheights⟩ := ih (fun entry h => hkeys entry (by simp [h]))
      (fun entry h => hitems entry (by simp [h]))
    have hfpos := List.length_pos_iff.mpr hf
    have hgpos := List.length_pos_iff.mpr hg
    refine ⟨f ++ (g ++ rest), ?_, ?_, ?_⟩
    · rw [List.length_cons, List.replicate_succ, List.mapM_cons]
      simp only [readEntry, Entries.key, pure_bind, bind_assoc]
      exact hkey.bind (hitem.bind (hrest.follow rfl))
    · simp only [List.length_append, List.length_cons]
      omega
    · simp only [Forest.height_append, hheight, hheight', hheights, tallest, Nat.max_assoc]

theorem Shape.map_agrees {entries : List (Data × Data)} {d : Data} {key item : Shape}
    (hsize : entries.length ≤ maxLength)
    (hkeys : ∀ entry ∈ entries,
      entry.1.AgreesAt (height entry.1) config registry (key.read registry .wire))
    (hitems : ∀ entry ∈ entries,
      entry.2.AgreesAt (height entry.2) config registry (item.read registry .wire))
    (hwrites : ∀ header body, Writes (Encoder.mapLen config entries.length) header →
      Writes (Data.encodeEntries config registry entries) body →
      Writes (d.encode config registry) (header ++ body))
    (hitem : d.item = .map (Data.itemPairs entries)) :
    d.AgreesAt (tallest (fun entry => max (height entry.1) (height entry.2)) entries + 1)
      config registry ((Shape.map key item).read registry .wire) := by
  obtain ⟨f, hagree, hlen, hheight⟩ := Entries.readAll_agree hkeys hitems entries.length
  have hask : Input.ask registry .map .wire = Decoder.offer .map := rfl
  rw [Shape.read, hask, Decoder.offer, bind_assoc]
  refine .of_container (.map entries.length) (Data.encodeEntries config registry entries) rfl hsize
    hlen ?_ hwrites hheight
  rw [hitem]
  exact hagree.follow rfl

theorem Data.map_writes {len : Option Nat} {entries : List (Data × Data)}
    (hlen : ∀ n, len = some n → n = entries.length) {header body : List UInt8}
    (h : Writes (Encoder.mapLen config entries.length) header)
    (h' : Writes (encodeEntries config registry entries) body) :
    Writes ((map len entries).encode config registry) (header ++ body) := by
  cases len with
  | none => exact h.afterwards h'
  | some n =>
    obtain rfl := hlen n rfl
    exact h.bind h'

theorem Data.collectMap_writes {hint : Option Nat} {entries : List (Data × Data)}
    (hlen : ∀ n, hint = some n → n = entries.length) {header body : List UInt8}
    (h : Writes (Encoder.mapLen config entries.length) header)
    (h' : Writes (encodeEntries config registry entries) body) :
    Writes ((collectMap hint entries).encode config registry) (header ++ body) := by
  have hannounced := getD_of_announced hlen
  have hall := h.bind (h'.bind .nothing)
  rw [List.append_nil] at hall
  simpa [Data.encode, hannounced] using hall

end MessagePack
