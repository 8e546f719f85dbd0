import MessagePack.Proofs.Mirror.Readers
import MessagePack.Proofs.Typed.Layout
import MessagePack.Stream

namespace MessagePack

open Decoding Decoder
open Wire (Element IsHeader)

variable {α β γ δ : Type} {bytes : List UInt8} {request : Request} {o o' : Offer}
  {input input' : Input} {trips : List (Value → Prop)}

/-- What is taken of one thing only is the same, if a double may be narrowed before or after. -/
theorem Offer.TakesScalar.mirrors {take : Offer → Decoding α} (h : TakesScalar take)
    (ho : o.Mirrored request o' bytes)
    (hnarrow : request = .f32 → ∀ bits, take (.f32 (Float.narrow bits)) = take (.f64 bits))
    (hwiden : request = .f64 → ∀ bits, take (.f64 (Float.widen bits)) = take (.f32 bits)) :
    MirrorsUnless False Same (take o) (take o') bytes := by
  have hsame (o : Offer) : MirrorsUnless False Same (take o) (take o) [] := by
    rcases h.immediate o with ⟨-, ⟨a, hpure⟩ | ⟨e, -, hthrow⟩⟩ | ⟨expected, hrefuse⟩
    · rw [hpure]
      exact .pure ⟨rfl, rfl⟩
    · rw [hthrow]
      exact .throw_right
    · rw [hrefuse]
      exact .throw_right
  have hrefused {o' : Offer} (hscalar : ¬o'.IsScalar) :
      MirrorsUnless False Same (take o) (take o') bytes := by
    obtain ⟨expected, hrefuse⟩ := (h.immediate o').resolve_left fun htaken => hscalar htaken.1
    rw [hrefuse]
    exact .throw_right
  cases ho with
  | scalar _ => exact hsame o
  | number hvn => exact h.number hvn ▸ hsame _
  | narrowed bits hrequest => exact hnarrow hrequest bits ▸ hsame _
  | widened bits hrequest => exact hwiden hrequest bits ▸ hsame _
  | present _ | newtype _ | seq _ | map _ _ _ _ => exact hrefused id

namespace Input

/-- What is made of an offer goes along with it and with what it tells of the input. -/
theorem asked_mirrors {trips : Prop} {R : γ → δ → List UInt8 → Prop} {use : Offer → Decoding γ}
    {use' : Offer → Decoding δ} (h : input.Mirrored input' bytes)
    (htuple : request.isTuple = false)
    (huse : ∀ o o' left, o.Tells input → o.Mirrored request o' left →
      MirrorsUnless trips R (use o) (use' o') left) :
    MirrorsUnless trips R (input.ask .empty request >>= use) (input'.ask .empty request >>= use')
      bytes :=
  (ask_mirrors h request htuple).after fun o o' left hpure ho =>
    huse o o' left (ask_tells h hpure) ho

theorem scalar_mirrors {take : Offer → Decoding α} {f : α → β} (h : Offer.TakesScalar take)
    (hnarrow : request = .f32 → ∀ bits, take (.f32 (Float.narrow bits)) = take (.f64 bits))
    (hwiden : request = .f64 → ∀ bits, take (.f64 (Float.widen bits)) = take (.f32 bits))
    (htuple : request.isTuple = false) :
    Reader.MirrorsUnless (fun _ => False)
      fun input => input.ask .empty request >>= fun o => take o >>= fun a => pure (f a) :=
  .never fun _ _ _ hin => asked_mirrors hin htuple fun _ _ _ _ ho =>
    (h.mirrors ho hnarrow hwiden).map

end Input

theorem IntKind.read_mirrors (kind : IntKind) :
    Reader.MirrorsUnless (fun _ => False) kind.read := by
  refine .never fun input input' bytes h => ?_
  have htuple : (Request.int kind).isTuple = false := rfl
  exact Input.asked_mirrors h htuple fun _ _ _ _ ho => kind.take_scalar.mirrors ho nofun nofun

namespace Offer.Mirrored

theorem takeBytes_mirrors (h : o.Mirrored .bytes o' bytes) :
    MirrorsUnless False Same o.takeBytes o'.takeBytes bytes := by
  cases h with
  | scalar h => cases o <;> first | exact .pure ⟨rfl, rfl⟩ | exact .throw_right | exact h.elim
  | seq h =>
    have hbyte : Reader.MirrorsUnless (fun _ => False)
        fun input => IntKind.u8.read input >>= fun n => pure (UInt8.ofNat n.toNat) :=
      fun _ _ _ h => (IntKind.u8.read_mirrors h).map
    exact (Items.readAll_mirrors hbyte h).of_iff (by simp)
  | _ => exact .throw_right

/-- Where a sequence is offered its items come in order. -/
theorem takeTuple_mirrors {readers : List (Reader α)}
    (hreaders : List.Forall₂ Reader.MirrorsUnless trips readers) (htold : o.Tells input)
    (h : o.Mirrored request o' bytes) (expected short : String) :
    MirrorsUnless (input.Trips fun v => v.ItemTrips trips) Same
      (o.takeTuple expected short readers) (o'.takeTuple expected short readers) bytes := by
  have hparts := input.trips_iff (P := fun items _ =>
    ∃ pair ∈ trips.zip items, pair.1 pair.2) (by simp)
  refine .of_iff ?_ hparts
  cases h with
  | seq h => exact (Items.readTuple_mirrors hreaders h short).of_iff (by rw [htold.1])
  | scalar h => cases o <;> first | exact .throw_right | exact h.elim
  | _ => exact .throw_right

/-- Where a map is offered its entries come in order, without a table. -/
theorem takeEntries_mirrors {key : Reader α} {keyTrips : Value → Prop}
    {after : Value × Value → Prop}
    (hkey : key.MirrorsUnless keyTrips) {use : Entries → Decoding γ}
    (huse : ∀ entries entries' left, Entries.Mirrored keyTrips key entries entries' left →
      MirrorsUnless (entries.Trips keyTrips after) Same (use entries) (use entries') left) :
    o.Tells input → o.Mirrored .map o' bytes →
    MirrorsUnless (input.Trips fun v => ∃ entry ∈ v.entries, keyTrips entry.1 ∨ after entry) Same
      (match o with | .map entries => use entries | offer => offer.refuse "a map")
      (match o' with | .map entries => use entries | offer => offer.refuse "a map") bytes := by
  intro htold h
  have hparts := input.trips_iff (P := fun _ entries =>
    ∃ entry ∈ entries, keyTrips entry.1 ∨ after entry) (by simp)
  refine .of_iff ?_ hparts
  cases h with
  | map taken total h htable =>
    rcases htable with rfl | hstruct
    · have hentries := Entries.mirrored_of_spelled hkey h taken total
      exact (huse _ _ _ hentries).of_iff (by rw [htold.2]; rfl)
    · cases hstruct
  | scalar h => cases o <;> first | exact .throw_right | exact h.elim
  | _ => exact .throw_right

end Offer.Mirrored

theorem Value.takeTuple_raw (data : List UInt8) (expected short : String)
    (readers : List (Reader α)) :
    (raw data).offerAny.takeTuple expected short readers =
      throw (.invalidType (raw data).offerAny.found expected) := by
  simp only [offerAny]
  cases Text.ofUtf8? data <;> rfl

namespace Input

/-- A raw is a tuple for the session only. -/
theorem tuple_mirrors {readers : List (Reader α)}
    (hreaders : List.Forall₂ Reader.MirrorsUnless trips readers) (h : input.Mirrored input' bytes)
    (htuple : request.isTuple = true) (expected short : String) :
    MirrorsUnless (input.Trips fun v => v.isRaw = true ∨ v.ItemTrips trips) Same
      (input.ask .empty request >>= fun o => o.takeTuple expected short readers)
      (input'.ask .empty request >>= fun o => o.takeTuple expected short readers) bytes := by
  cases h with
  | byte n => exact .throw_right
  | @spelled v _ h =>
    have hwire : ask .empty request .wire = offerSeq := by
      cases request <;> first | rfl | cases htuple
    have htree : ask .empty request (.tree v) = pure v.offerAny := by
      cases request <;> first | rfl | cases htuple
    rw [hwire, htree, pure_bind, offerSeq, bind_assoc]
    cases h with
    | raw h =>
      rw [Value.takeTuple_raw]
      exact .trip (Or.inl rfl) ⟨_, expected, rfl⟩
    | array h items =>
      exact .element h ((Items.readTuple_mirrors hreaders (.spelled 0 _ items) short).of_iff
        (or_iff_right Bool.false_ne_true))
    | nil h | bool h | uint h | int h | f32 h | f64 h => exact .scalar h .throw_right
    | map h _ => exact .element h .throw_right

end Input

namespace Timestamp

private theorem pair_mirrors :
    List.Forall₂ Reader.MirrorsUnless [fun _ => False, fun _ => False]
      [IntKind.i64.read, IntKind.i64.read] :=
  .cons IntKind.i64.read_mirrors (.cons IntKind.i64.read_mirrors .nil)

theorem readTuple_eq (input : Input) :
    readTuple input = (input.ask .empty .tuple >>= fun o =>
      o.takeTuple "a tuple of size 2" "a tuple of size 2" [IntKind.i64.read, IntKind.i64.read])
        >>= fun list => pure (ofPair list) := by
  rw [readTuple, bind_assoc]
  congr 1
  funext o
  cases o <;> rfl

theorem readTuple_mirrors : Reader.MirrorsUnless (fun v => v.isRaw = true) readTuple := by
  intro input input' bytes h
  rw [readTuple_eq, readTuple_eq]
  have htuple : Request.tuple.isTuple = true := rfl
  have hall := Input.tuple_mirrors pair_mirrors h htuple "a tuple of size 2" "a tuple of size 2"
  refine (hall.of_iff ?_).map
  cases input with
  | tree v => exact (or_iff_left (Value.not_itemTrips (by simp))).symm
  | _ => exact Iff.rfl

theorem take_mirrors (h : input.Mirrored input' bytes) :
    MirrorsUnless (input.Trips fun v => v.isRaw = true) Same
      (input.ask .empty (.newtype typeName) >>= take)
      (input'.ask .empty (.newtype typeName) >>= take) bytes := by
  cases h with
  | byte n => exact .throw_right
  | spelled h => exact readTuple_mirrors (.spelled h)

end Timestamp

/-- What a variant is offered as in memory and by the session: its name alone, or the one entry of a
map. -/
inductive VariantOffer.Mirrored (input : Input) : VariantOffer → VariantOffer → List UInt8 → Prop
  | name {v : Value} {bytes : List UInt8} (h : v.SpelledBy bytes) (hentries : input.entries = []) :
      Mirrored input (.variant (.tree v) none) (.variant .wire none) bytes
  | entry {name content : Value} {first second : List UInt8} (h : name.SpelledBy first)
      (h' : content.SpelledBy second) (hentries : input.entries = [(name, content)]) :
      Mirrored input (.variant (.tree name) (some (.tree content))) (.variant .wire (some .wire))
        (first ++ second)
  | other (o : Offer) : Mirrored input (.other o) (.other o) []

/-- The session makes no variant of anything but a raw and a map. -/
theorem Decoder.offerVariant_mirrors {trips : Prop} {R : γ → VariantOffer → List UInt8 → Prop}
    {reading : Decoding γ} {e : Element} {header body : List UInt8} (h : IsHeader e header)
    (hraw : ∀ len, e ≠ .raw len) (hmap : ∀ len, e ≠ .map len) (hbytes : bytes = header ++ body) :
    MirrorsUnless trips R reading offerVariant bytes := by
  refine .peek fun marker hmarker => ?_
  obtain ⟨n, hfield⟩ := hmarker h hbytes
  subst hbytes
  split
  · rw [mapLen, bind_assoc]
    refine .element h ?_
    cases e with
    | map len => exact absurd rfl (hmap len)
    | _ => exact .throw_right
  · split
    · rename_i hmarked
      obtain ⟨len, he⟩ := Element.eq_raw_of_ofField hmarked hfield
      exact absurd he (hraw len)
    · exact .element h .throw_right

namespace Input

/-- A variant is a raw with its name or a map of one entry; by its position only from memory. -/
theorem askVariant_mirrors (h : input.Mirrored input' bytes) :
    MirrorsUnless False (VariantOffer.Mirrored input) input.askVariant input'.askVariant bytes := by
  cases h with
  | byte n => exact .pure (.other _)
  | @spelled v _ h =>
    have hspelled := h
    cases h with
    | nil h | bool h | uint h | int h | f32 h | f64 h =>
      exact offerVariant_mirrors h nofun nofun (List.append_nil _).symm
    | array h items => exact offerVariant_mirrors h nofun nofun rfl
    | raw h =>
      refine .peek fun marker hmarker => ?_
      obtain ⟨n, hfield⟩ := hmarker h rfl
      obtain ⟨hraw, hmap⟩ := Element.isRaw_of_ofField hfield
      rw [hmap, hraw]
      exact .pure (.name hspelled rfl)
    | map h contents =>
      refine .peek fun marker hmarker => ?_
      obtain ⟨n, hfield⟩ := hmarker h rfl
      rw [Element.isMap_of_ofField hfield, if_pos rfl, mapLen, bind_assoc]
      refine .element h ?_
      cases contents with
      | nil => exact .throw_right
      | cons key item tail =>
        cases tail with
        | nil =>
          rw [List.append_nil]
          exact .pure (.entry key item rfl)
        | cons _ _ _ => exact .throw_right

/-- The contents of a variant in memory and in the session, if it has any. -/
inductive ContentMirrored : Option Input → Option Input → List UInt8 → Prop
  | none : ContentMirrored none none []
  | some {v : Value} {bytes : List UInt8} (h : v.SpelledBy bytes) :
      ContentMirrored (some (.tree v)) (some .wire) bytes

variable {content? content?' : Option Input}

theorem noContent_mirrors (h : ContentMirrored content? content?' bytes) :
    MirrorsUnless False Same (noContent content?) (noContent content?') bytes := by
  cases h with
  | none => exact .pure ⟨rfl, rfl⟩
  | some h =>
    cases h with
    | nil h => exact .scalar h (.pure ⟨rfl, rfl⟩)
    | bool h | uint h | int h | f32 h | f64 h => exact .scalar h .throw_right
    | raw h | array h _ | map h _ => exact .element h .throw_right

end Input

/-- The contents in memory trip, if there are any. -/
def Input.ContentTrips (trips : Value → Prop) : Option Input → Prop
  | some input => input.Trips trips
  | none => False

/-- From the same contents in memory and in the session, the reader makes the same unless those in
memory trip. -/
def ContentReader.MirrorsUnless (trips : Value → Prop) (read : ContentReader) : Prop :=
  ∀ ⦃content? content?' : Option Input⦄ ⦃bytes : List UInt8⦄,
    Input.ContentMirrored content? content?' bytes →
    Decoding.MirrorsUnless (Input.ContentTrips trips content?) Same (read content?)
      (read content?') bytes

/-- What trips the contents of each variant, under the variant's name. -/
def ContentReader.MirrorUnless (trips : List (String × (Value → Prop)))
    (variants : List (String × ContentReader)) : Prop :=
  List.Forall₂ (fun trip variant => trip.1 = variant.1 ∧ variant.2.MirrorsUnless trip.2) trips
    variants

/-- The one entry of a map trips the contents of the variant that its key picks. -/
theorem ContentReader.readVariant_mirrors {trips : List (String × (Value → Prop))}
    {variants : List (String × ContentReader)} (hvariants : MirrorUnless trips variants)
    (expected : String) :
    Reader.MirrorsUnless (fun v => v.EntryTrips trips) (readVariant expected variants) := by
  intro input input' bytes h
  have hparts := input.trips_iff (P := fun _ entries =>
    ∃ entry ∈ entries, ∃ picked, entry.1.pick trips = some picked ∧ picked entry.2) (by simp)
  have hcontent {k : Value} {first second : List UInt8} {content? content?' : Option Input}
      (hk : k.SpelledBy first) (hsecond : Input.ContentMirrored content? content?' second) :
      Decoding.MirrorsUnless
        (∃ picked, k.pick trips = some picked ∧ Input.ContentTrips picked content?) Same
        ((keys variants).read (.tree k) >>= fun read => read content?)
        ((keys variants).read .wire >>= fun read => read content?') (first ++ second) := by
    refine (((keys variants).read_mirrors (.spelled hk)).seq fun read hread => ?_).of_iff
      (false_or _).to_iff.symm
    rcases @Choices.picked_of_read _ _ (keys variants) MirrorsUnless trips hvariants k read
      hread with ⟨picked, hpick, hmirrors⟩ | ⟨-, hother⟩
    · exact (hmirrors hsecond).of_iff (by simp [hpick])
    · cases hother
  refine .of_iff ((Input.askVariant_mirrors h).after fun o o' left _ ho => ?_) hparts
  cases ho with
  | name hname hentries =>
    have hall := hcontent hname .none
    rw [List.append_nil] at hall
    exact hall.of_iff (by simp [hentries, Input.ContentTrips])
  | entry hname hsecond hentries =>
    exact (hcontent hname (.some hsecond)).of_iff
      (by simp [hentries, Input.ContentTrips, Input.Trips])
  | other => exact .throw_right

mutual

/-- Every plain type is read alike from a value in memory and from the session it is spelled in,
unless the value trips the type. -/
theorem Shape.read_mirrorsUnless :
    (shape : Shape) → shape.Plain → Reader.MirrorsUnless shape.Trips (shape.read .empty)
  | .bool, _ => Input.scalar_mirrors Offer.takeBool_scalar nofun nofun rfl
  | .int kind, _ => fun _ _ _ h => (kind.read_mirrors h).map
  | .f32, _ => Input.scalar_mirrors Offer.takeF32_scalar (fun _ _ => rfl) nofun rfl
  | .f64, _ => Input.scalar_mirrors Offer.takeF64_scalar nofun (fun _ _ => rfl) rfl
  | .char, _ => Input.scalar_mirrors Offer.takeChar_scalar nofun nofun rfl
  | .text, _ => Input.scalar_mirrors Offer.takeText_scalar nofun nofun rfl
  | .bytes, _ => .never fun _ _ _ h => Input.asked_mirrors h rfl fun _ _ _ _ ho =>
    ho.takeBytes_mirrors.map
  | .unit, _ => Input.scalar_mirrors (Offer.takeUnit_scalar _) nofun nofun rfl
  | .ignored, _ => fun _ _ _ h => (Input.fold_mirrors Fold.signBlind_ignored h).map
  | .value, _ => fun _ _ _ h => (Input.fold_mirrors Fold.signBlind_value h).map
  | .integer, _ => Input.scalar_mirrors Offer.takeInteger_scalar nofun nofun rfl
  | .timestamp, _ => fun _ _ _ h => by
    have hall := (Timestamp.take_mirrors h).map (f := Item.timestamp)
    rw [bind_assoc, bind_assoc] at hall
    exact hall
  | .option content, hplain =>
    fun input _ _ h => Input.asked_mirrors h rfl fun o o' _ htold ho => by
    cases ho with
    | scalar h =>
      cases o with
      | unit | absent =>
        have hend : MirrorsUnless False Same (pure Item.absent) (pure Item.absent) [] :=
          .pure ⟨rfl, rfl⟩
        refine hend.of_iff (iff_false_intro ?_)
        cases input with
        | tree v => exact fun htrips => htold htrips.1
        | _ => exact id
      | _ => first | exact .throw_right | exact h.elim
    | @present input _ _ hinner =>
      obtain ⟨rfl, hnil⟩ := htold
      have hiff : input.Trips (Shape.option content).Trips ↔ input.Trips content.Trips := by
        cases input with
        | tree v => exact and_iff_right hnil
        | _ => exact Iff.rfl
      exact ((content.read_mirrorsUnless hplain hinner).of_iff hiff).map
    | _ => exact .throw_right
  | .seq item, hplain => fun input _ _ h => Input.asked_mirrors h rfl fun o o' _ htold ho => by
    have hparts := input.trips_iff (P := fun items _ =>
      ∃ w ∈ items, item.Trips w) (by simp)
    refine .of_iff ?_ hparts
    cases ho with
    | seq h =>
      exact ((Items.readAll_mirrors (item.read_mirrorsUnless hplain) h).of_iff
        (by rw [htold.1])).map
    | scalar h => cases o <;> first | exact .throw_right | exact h.elim
    | _ => exact .throw_right
  | .map key item, hplain => fun _ _ _ h => Input.asked_mirrors h rfl fun _ _ _ =>
    Offer.Mirrored.takeEntries_mirrors (key.read_mirrorsUnless hplain.1) fun _ _ _ hentries =>
      (Entries.readAll_mirrors (item.read_mirrorsUnless hplain.2) hentries).map
  | .mapPart count key item, hplain => fun _ _ _ h => Input.asked_mirrors h rfl fun _ _ _ =>
    Offer.Mirrored.takeEntries_mirrors (key.read_mirrorsUnless hplain.1) fun _ _ _ hentries =>
      (Entries.readPart_mirrors (item.read_mirrorsUnless hplain.2) hentries count).map
  | .tuple items, hplain => fun _ _ _ h => by
    have htuple : Request.tuple.isTuple = true := rfl
    have hall := (Input.tuple_mirrors (Shape.readers_mirrorUnless items hplain) h htuple
      s!"a tuple of size {items.length}" s!"a tuple of size {items.length}").map (f := Item.tuple)
    rw [bind_assoc, bind_assoc] at hall
    exact hall
  | .tupleStruct name items, hplain => fun _ _ _ h => by
    have htuple : (Request.tupleStruct name).isTuple = true := rfl
    have hall := (Input.tuple_mirrors (Shape.readers_mirrorUnless items hplain) h htuple
      ("tuple struct " ++ name) (withElements ("tuple struct " ++ name) items.length)).map
        (f := Item.tupleStruct name)
    rw [bind_assoc, bind_assoc] at hall
    exact hall
  | .unitStruct name, _ => Input.scalar_mirrors (Offer.takeUnit_scalar _) nofun nofun rfl
  | .newtype name content, hplain => fun _ _ _ h => by
    cases h with
    | byte n => exact .throw_right
    | spelled h => exact (content.read_mirrorsUnless hplain (.spelled h)).map
  | .struct name fields strict, hplain => fun _ _ _ h =>
    Input.asked_mirrors h rfl fun _ _ _ htold ho =>
      (FieldReader.readOffer_mirrors (Shape.fieldReaders_mirrorUnless fields hplain) strict _ htold
        ho).map
  | .enumeration name variants, hplain =>
    ContentReader.readVariant_mirrors (Shape.contentReaders_mirrorUnless name variants hplain) _

theorem Shape.readers_mirrorUnless : (shapes : List Shape) → Shape.PlainAll shapes →
    List.Forall₂ Reader.MirrorsUnless (Shape.allTrips shapes) (Shape.readers .empty shapes)
  | [], _ => .nil
  | shape :: rest, hplain =>
    .cons (shape.read_mirrorsUnless hplain.1) (Shape.readers_mirrorUnless rest hplain.2)

theorem Shape.fieldReaders_mirrorUnless : (fields : List (String × Shape)) →
    Shape.PlainFields fields →
    FieldReader.MirrorUnless (Shape.fieldTrips fields) (Shape.fieldReaders .empty fields)
  | [], _ => .nil
  | (_, shape) :: rest, hplain =>
    .cons ⟨rfl, shape.read_mirrorsUnless hplain.1⟩ (Shape.fieldReaders_mirrorUnless rest hplain.2)

theorem Content.read_mirrorsUnless (type variant : String) : (content : Content) → content.Plain →
    ContentReader.MirrorsUnless content.Trips (content.read .empty type variant)
  | .unit, _ => fun content? _ _ h => by
    have hnever : ¬Input.ContentTrips Content.unit.Trips content? := by
      cases content? with
      | none => exact id
      | some input => exact Input.not_trips
    exact ((Input.noContent_mirrors h).of_iff (iff_false_intro hnever)).map
  | .newtype content, hplain => fun _ _ _ h => by
    cases h with
    | none => exact .throw_right
    | some h => exact (content.read_mirrorsUnless hplain (.spelled h)).map
  | .tuple items, hplain => fun _ _ _ h => by
    cases h with
    | none => exact .throw_right
    | some h =>
      exact Input.asked_mirrors (.spelled h) rfl fun _ _ _ htold ho =>
        (ho.takeTuple_mirrors (Shape.readers_mirrorUnless items hplain) htold _ _).map
  | .struct fields, hplain => fun _ _ left h => by
    cases h with
    | none => exact .throw_right
    | @some v _ h =>
      have hmap : MirrorsUnless False (Offer.Mirrored .map) (pure v.offerAny) (Decoder.offer .map)
          left := Input.map_mirrors h
      refine hmap.after fun o _ _ hpure ho => ?_
      obtain rfl := pure_inj hpure
      exact (FieldReader.readOffer_mirrors (Shape.fieldReaders_mirrorUnless fields hplain) false _
        v.offerAny_tells ho).map

theorem Shape.contentReaders_mirrorUnless (type : String) : (variants : List (String × Content)) →
    Content.PlainAll variants →
    ContentReader.MirrorUnless (Shape.variantTrips variants)
      (Shape.contentReaders .empty type variants)
  | [], _ => .nil
  | (name, content) :: rest, hplain =>
    .cons ⟨rfl, content.read_mirrorsUnless type name hplain.1⟩
      (Shape.contentReaders_mirrorUnless type rest hplain.2)

end

theorem Shape.read_mirrors (shape : Shape) (hplain : shape.Plain) :
    Reader.Mirrors (shape.read .empty) :=
  (shape.read_mirrorsUnless hplain).mirrors

/-- A plain type that is read both from a value in memory and where the value is spelled is read as
the same thing, and the session has the bytes behind it left then. -/
theorem Value.eq_decode_of_spelledBy {config : Config} {v : Value} {shape : Shape}
    (hplain : shape.Plain) {bytes rest : List UInt8} (hspelled : v.SpelledBy bytes)
    {item item' : Item} {d : Decoder} (hvalue : v.decode shape = .ok item)
    (hwire : shape.read .empty .wire (new (.ofBytes (bytes ++ rest)) config) = .ok item' d) :
    item' = item ∧ d.ahead = rest := by
  obtain ⟨d', hread⟩ := result_eq_ok_iff.mp hvalue
  obtain ⟨left, ⟨hsame, rfl⟩, -, hrest⟩ := shape.read_mirrors hplain (.spelled hspelled) hread
    (sound_new (bytes ++ rest) config) (ahead_new (bytes ++ rest) config) hwire
  exact ⟨hsame, hrest⟩

/-- A plain type that is read both from a value in memory and from what is written of the value is
read as the same thing, and the session has no bytes left then. -/
theorem Value.read_eq_decode (config config' : Config) {v : Value} {shape : Shape}
    (hplain : shape.Plain) {bytes : List UInt8} (hbytes : v.encode config = .ok bytes)
    {item item' : Item} {d : Decoder} (hvalue : v.decode shape = .ok item)
    (hwire : shape.read .empty .wire (new (.ofBytes bytes) config') = .ok item' d) :
    item' = item ∧ d.ahead = [] := by
  have hspelled : v.SpelledBy bytes := Value.spelledBy_of_buffered hbytes
  rw [← List.append_nil bytes] at hwire
  exact Value.eq_decode_of_spelledBy hplain hspelled hvalue hwire

/-- A structure of an infinite double where a single is wanted and of a raw where a sequence is,
with its fields the other way round. -/
theorem Value.read_eq_decode_struct :
    let v : Value := .map [(.text "b", .map [(.text "B", .raw [1, 2])]),
      (.text "a", .f64 0x7ff0000000000000)]
    let shape : Shape := .struct "P" [("a", .f32),
      ("b", .option (.enumeration "E" [("A", .unit), ("B", .newtype (.seq (.int .u8)))]))] true
    let bytes : List UInt8 := [0x82, 0xa1, 0x62, 0x81, 0xa1, 0x42, 0xa2, 0x01, 0x02, 0xa1, 0x61,
      0xcb, 0x7f, 0xf0, 0x00, 0x00, 0x00, 0x00, 0x00, 0x00]
    let item : Item := .struct "P" [("a", .f32 0x7f800000),
      ("b", .present (.newtypeVariant "E" "B" (.seq [.int .u8 1, .int .u8 2])))]
    shape.Plain ∧ v.encode {} = .ok bytes ∧ v.decode shape = .ok item ∧
      ∃ item' d, shape.read .empty .wire (new (.ofBytes bytes) {}) = .ok item' d ∧
        item' = item ∧ d.ahead = [] := by
  intro v shape bytes item
  have hplain : shape.Plain := by
    simp [shape, Shape.Plain, Shape.PlainFields, Content.PlainAll, Content.Plain]
  have hbytes : v.encode {} = .ok bytes := by
    decide +kernel
  have hvalue : v.decode shape = .ok item := by
    subst v shape item
    rfl
  have hall : result ((shape.read .empty .wire).seen fun _ _ => ())
      (new (.ofBytes bytes) {}) = .ok () := by decide +kernel
  obtain ⟨item', d, hwire, -⟩ := exists_of_seen hall
  exact ⟨hplain, hbytes, hvalue, item', d, hwire,
    Value.read_eq_decode {} {} hplain hbytes hvalue hwire⟩

end MessagePack
