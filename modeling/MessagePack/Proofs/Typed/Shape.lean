import MessagePack.Proofs.Typed.Destinations

namespace MessagePack

open Decoding Decoder

/-- Every run of the codec goes over a number of complete elements, and what it has read once it
reads again wherever the same bytes come next and the nesting has room for their elements. -/
structure Codec.Framed (codec : Codec) : Prop where
  whole : ∀ ⦃d : Decoder⦄ ⦃v : Value⦄ ⦃d' : Decoder⦄, d.Sound → codec.decode d = .ok v d' →
    ∃ f bytes, Wire.Forest.Whole f ∧ d.Passed f.elements bytes d'
  again : ∀ ⦃d : Decoder⦄ ⦃v : Value⦄ ⦃d' : Decoder⦄ ⦃elements : List Wire.Element⦄
    ⦃bytes : List UInt8⦄, d.Sound → codec.decode d = .ok v d' → d.Passed elements bytes d' →
    ∀ ⦃e : Decoder⦄ ⦃rest : List UInt8⦄ ⦃next : Nesting⦄, e.Sound → e.ahead = bytes ++ rest →
      e.nesting.enterAll elements = .ok next →
      ∃ w e', codec.decode e = .ok w e' ∧ e.Passed elements bytes e'

def Registry.Framed (registry : Registry) : Prop :=
  ∀ name codec, registry.get? name = some codec → codec.Framed

variable {registry : Registry} {settled : Prop}

/-- A type with a codec is read by it, and otherwise as it is without one. -/
theorem Input.ask_reads {α : Type} {request : Request} {take : Offer → Decoding α}
    {layout : Layout} {name : String} (hframed : registry.Framed)
    (hbare : settled → ∀ name, registry.get? name = none)
    (hname : request.typeName? = some name)
    (hmemory : Reader.Parallel .memory fun input => ask registry request input >>= take)
    (hoffer : Decoding.Reads settled layout true (fun _ => True) (Decoder.offer request >>= take)) :
    Decoding.Reads settled (registry.layout name layout) true (fun _ => True)
      (ask registry request .wire >>= take) := by
  unfold Registry.layout
  cases hcodec : registry.get? name with
  | none =>
    rw [ask_wire (by rw [hname]; exact hcodec)]
    exact hoffer
  | some codec =>
    intro d a d' hs hok
    simp only [ask, hname, Option.bind_some, hcodec] at hok
    rw [bind_assoc] at hok
    obtain ⟨v, mid, hdecode, hvalue⟩ := bind_eq_ok_iff.mp hok
    have hin : (tree v).InMemory := trivial
    obtain ⟨rfl, -⟩ := hmemory.keeps hin hvalue
    obtain ⟨f, bytes, hwhole, hpassed⟩ := (hframed name codec hcodec).whole hs hdecode
    refine ⟨trivial, f, bytes, ⟨d, _, v, bytes, hs, hdecode, hwhole, hpassed⟩, hpassed, fun h => ?_⟩
    rw [hbare h name] at hcodec
    cases hcodec

theorem Input.ask_reads_scalar {α : Type} {request : Request} {take : Offer → Decoding α}
    (htake : Offer.TakesScalar take) {make : α → Item} (hname : request.typeName? = none) :
    Decoding.Reads settled .leaf true (fun _ => True)
      (ask registry request .wire >>= fun o => take o >>= fun a => pure (make a)) := by
  rw [ask_wire (by rw [hname]; rfl)]
  exact offer_reads_scalar _ fun o => (htake.keeps o).bind fun _ ho => .pure ⟨ho, trivial⟩

theorem Timestamp.take_reads :
    Decoding.Reads settled (.items [.leaf, .leaf]) true (fun _ => True)
      (Decoder.offer (.newtype Timestamp.typeName) >>= Timestamp.take) :=
  Timestamp.readTuple_reads.wire

/-- A destination that takes a map without a table of fields. -/
private theorem offer_reads_map {α : Type} {key item : Layout} {take : Entries → Decoding α}
    {expected : String} (h : ∀ n, Decoding.Reads settled
      (.concat (List.replicate n (.append key item))) false (fun _ => True)
      (take (.wire n n none))) :
    Decoding.Reads settled (.map key item) true (fun _ => True)
      (Decoder.offer .map >>= fun
        | .map entries => take entries
        | offer => offer.refuse expected) := by
  refine offer_reads .map (fun hfalse => nomatch hfalse) (fun _ => .throw)
    (fun n fields hnamed => ?_) nofun nofun
  cases fields with
  | none => exact (h n).mono (fun _ f _ hf => ⟨n, f, hf, rfl⟩) fun _ h => h
  | some fields =>
    obtain ⟨name, names, heq⟩ := hnamed rfl
    cases heq

mutual

/-- Whatever a type is read from on the wire is laid out as the type says. -/
theorem Shape.read_reads (hframed : registry.Framed)
    (hbare : settled → ∀ name, registry.get? name = none) :
    (shape : Shape) → (settled → shape.Plain) →
      Decoding.Reads settled (shape.layout registry) true (fun _ => True)
        (shape.read registry .wire)
  | .bool, _ => Input.ask_reads_scalar Offer.takeBool_scalar rfl
  | .int kind, _ => kind.read_reads.wire.map
  | .f32, _ => Input.ask_reads_scalar Offer.takeF32_scalar rfl
  | .f64, _ => Input.ask_reads_scalar Offer.takeF64_scalar rfl
  | .char, _ => Input.ask_reads_scalar Offer.takeChar_scalar rfl
  | .text, _ => Input.ask_reads_scalar Offer.takeText_scalar rfl
  | .bytes, _ => Offer.takeBytes_reads.make
  | .unit, _ => Input.ask_reads_scalar (Offer.takeUnit_scalar _) rfl
  | .ignored, _ => (Decoder.fold_reads .ignored).map
  | .human, h => fun d _ d' hs hok => by
    obtain ⟨rfl, rfl⟩ := pure_eq_ok_iff.mp hok
    exact ⟨trivial, [], [], rfl, .refl hs, fun hsettled => (h hsettled).elim⟩
  | .value, _ => (Decoder.fold_reads .value).map
  | .integer, _ => Input.ask_reads_scalar Offer.takeInteger_scalar rfl
  | .timestamp, _ =>
    Input.ask_reads hframed hbare rfl (Shape.timestamp.read_memory registry)
      Timestamp.take_reads.make
  | .option content, h => by
    have hcontent := content.read_reads hframed hbare h
    refine offer_reads .option (fun _ o ho f hf => ?_) (fun _ => .throw)
      (fun _ _ _ => .throw) (fun _ => hcontent.map.mono (fun _ f _ => .inr) fun _ h => h) nofun
    cases o with
    | absent => exact .pure ⟨trivial, .inl hf⟩
    | unit => exact .pure ⟨trivial, .inl hf⟩
    | present inner => exact ho.elim
    | _ => exact .throw
  | .seq item, h => by
    have hitem : Reader.Reads settled (item.layout registry) (item.read registry) :=
      ⟨item.read_reads hframed hbare h, item.read_memory registry⟩
    refine offer_reads .seq (fun _ o ho f hf => ?_) (fun n => ?_)
      (fun _ _ _ => .throw) nofun nofun
    · cases o with
      | seq items =>
        have hkeeps := (Items.readAll_parallel hitem.memory (.inr ho.inMemory)).keeps rfl
        exact hkeeps.map.mono fun _ _ => ⟨trivial, 0, .inl hf⟩
      | _ => exact .throw
    · exact (Items.readAll_reads hitem n).map.mono (fun _ f _ => Layout.seq_of_concat)
        fun _ h => h
  | .map key item, h => by
    have hkey := key.read_reads hframed hbare fun hs => (h hs).1
    have hitem := item.read_reads hframed hbare fun hs => (h hs).2
    refine offer_reads_map fun n => ?_
    exact (Entries.readPart_reads ⟨hkey, key.read_memory registry⟩
      ⟨hitem, item.read_memory registry⟩ none nofun n n).map
  | .mapPart count key item, h => by
    have hkey := key.read_reads hframed hbare fun hs => (h hs).1
    have hitem := item.read_reads hframed hbare fun hs => (h hs).2
    refine offer_reads_map fun n => ?_
    exact (Entries.readPart_reads ⟨hkey, key.read_memory registry⟩
      ⟨hitem, item.read_memory registry⟩ none nofun count n).map
  | .tuple items, h =>
    (Offer.takeTuple_reads .tuple (Shape.readers_read hframed hbare items h) nofun nofun _ _).make
  | .tupleStruct name items, h =>
    Input.ask_reads hframed hbare rfl ((Shape.tupleStruct name items).read_memory registry)
      (Offer.takeTuple_reads (.tupleStruct name) (Shape.readers_read hframed hbare items h)
        nofun nofun _ _).make
  | .unitStruct name, _ =>
    Input.ask_reads hframed hbare rfl ((Shape.unitStruct name).read_memory registry) <|
      offer_reads_scalar _ fun o =>
        ((Offer.takeUnit_scalar _).keeps o).bind fun _ ho => .pure ⟨ho, trivial⟩
  | .newtype name content, h =>
    Input.ask_reads hframed hbare rfl ((Shape.newtype name content).read_memory registry)
      (content.read_reads hframed hbare h).map
  | .struct name fields strict, h =>
    Input.ask_reads hframed hbare rfl ((Shape.struct name fields strict).read_memory registry)
      (FieldReader.readOffer_reads (Shape.fieldReaders_read hframed hbare fields h) strict _
        (.struct name (fields.map Prod.fst)) rfl).make
  | .enumeration name variants, h =>
    ContentReader.readVariant_reads (Shape.contentReaders_read hframed hbare name variants h) _
  | .probe request, _ => by
    have hread : Decoding.Reads settled .whole true (fun _ => True)
        (Decoder.offer request >>= fun o => o.token >>= fun t => pure (Item.offered t)) :=
      (Offer.token_reads request).make
    rw [Shape.layout]
    cases hname : request.typeName? with
    | none =>
      have hask : Input.ask registry request .wire = Decoder.offer request :=
        Input.ask_wire (by rw [hname]; rfl)
      rwa [← hask] at hread
    | some name =>
      exact Input.ask_reads hframed hbare hname ((Shape.probe request).read_memory registry) hread
  | .probeVariant kind, _ => VariantOffer.probe_reads kind

theorem Shape.readers_read (hframed : registry.Framed)
    (hbare : settled → ∀ name, registry.get? name = none) :
    (shapes : List Shape) → (settled → Shape.PlainAll shapes) →
      List.Forall₂ (Reader.Reads settled) (Shape.layouts registry shapes)
        (Shape.readers registry shapes)
  | [], _ => .nil
  | shape :: rest, h =>
    .cons ⟨shape.read_reads hframed hbare fun hs => (h hs).1, shape.read_memory registry⟩
      (Shape.readers_read hframed hbare rest fun hs => (h hs).2)

theorem Shape.fieldReaders_read (hframed : registry.Framed)
    (hbare : settled → ∀ name, registry.get? name = none) :
    (fields : List (String × Shape)) → (settled → Shape.PlainFields fields) →
      List.Forall₂ (fun layout field => Reader.Reads settled layout field.read)
        (Shape.fieldLayouts registry fields) (Shape.fieldReaders registry fields)
  | [], _ => .nil
  | (_, shape) :: rest, h =>
    .cons ⟨shape.read_reads hframed hbare fun hs => (h hs).1, shape.read_memory registry⟩
      (Shape.fieldReaders_read hframed hbare rest fun hs => (h hs).2)

theorem Content.read_reads (hframed : registry.Framed)
    (hbare : settled → ∀ name, registry.get? name = none) (type variant : String) :
    (content : Content) → (settled → content.Plain) →
      Decoding.Reads settled (content.layout registry) true (fun _ => True)
        (content.read registry type variant (some .wire))
  | .unit, _ => Input.noContent_reads.map
  | .newtype content, h => (content.read_reads hframed hbare h).map
  | .tuple items, h => by
    rw [Content.read, Input.askTuple_wire]
    exact (Offer.takeTuple_reads .seq (Shape.readers_read hframed hbare items h)
      nofun nofun _ _).make
  | .struct fields, h => by
    rw [Content.read, Input.askStruct_wire]
    exact (FieldReader.readOffer_reads (Shape.fieldReaders_read hframed hbare fields h)
      false _ .map rfl).make

theorem Shape.contentReaders_read (hframed : registry.Framed)
    (hbare : settled → ∀ name, registry.get? name = none) (type : String) :
    (variants : List (String × Content)) → (settled → Content.PlainAll variants) →
      List.Forall₂ (fun layout variant => ContentReader.Reads settled layout variant.2)
        (Content.layouts registry variants) (Shape.contentReaders registry type variants)
  | [], _ => .nil
  | (variant, content) :: rest, h =>
    .cons ⟨content.read_reads hframed hbare type variant fun hs => (h hs).1,
        content.read_memory registry type variant⟩
      (Shape.contentReaders_read hframed hbare type rest fun hs => (h hs).2)

end

end MessagePack
