import MessagePack.Codec.Samples
import MessagePack.Proofs.Typed.Human
import MessagePack.Proofs.Writing.Frame

namespace MessagePack

open Decoding (Gives exists_of_seen)
open Item (Told)

/-- What has nothing inside it asks nothing. -/
theorem Decoding.Gives.leaf {α : Type} {b : Bool} {reading : Decoding α} {make : α → Item}
    (h : ∀ a, (make a).humans = []) :
    Gives (Told b) (reading >>= fun a => Pure.pure (make a)) := by
  refine .after fun a => .pure ?_
  intro answer hmem
  rw [h a] at hmem
  exact nomatch hmem

theorem VariantOffer.probe_told {b : Bool} (kind : ContentKind) (o : VariantOffer) :
    Gives (Told b) (o.probe kind) := by
  cases o with
  | variant name content? => exact .after fun name => .leaf fun _ => rfl
  | other offer => exact .leaf fun _ => rfl

namespace Shape

variable (registry : Registry) {b : Bool}

/-- A byte answers no question but the one whether it is meant for people. -/
theorem read_byte_told (shape : Shape) (h : shape ≠ .human) (n : UInt64) :
    Gives (Told b) (shape.read registry (.token (.unsigned n))) := by
  cases shape with
  | human => exact absurd rfl h
  | int kind => exact .leaf fun _ => rfl
  | ignored | value => exact .leaf fun _ => rfl
  | enumeration name variants => exact .throw
  | probe request => exact .after fun o => .leaf fun _ => rfl
  | probeVariant kind => exact .after fun o => o.probe_told kind
  | option content => exact .throw
  | seq item => exact .throw
  | map key item => exact .throw
  | mapPart count key item => exact .throw
  | tuple items => exact .throw
  | tupleStruct name items => exact .throw
  | struct name fields strict => exact .throw
  | newtype name content => exact .throw
  | _ => exact .after fun _ => .leaf fun _ => rfl

end Shape

variable {registry : Registry} {b memory : Bool}

/-- The items of a sequence are read alike from wherever they are. -/
theorem Reader.Gives.item {shape : Shape} (hasks : memory = false → shape ≠ .human)
    (h : Reader.Gives (Input.From memory) (Told b) (shape.read registry)) :
    Reader.Gives (Input.ItemFrom memory) (Told b) (shape.read registry) := by
  intro input hinput
  cases memory with
  | true => exact h input hinput
  | false =>
    rcases hinput with rfl | ⟨n, rfl⟩
    · exact h .wire rfl
    · exact shape.read_byte_told registry (hasks rfl) n

/-- The contents of a variant are where the variant is. -/
def ContentFrom (memory : Bool) (content? : Option Input) : Prop :=
  ∀ content, content? = some content → content.From memory

/-- From contents in such a place, everyone who asks is told the same. -/
def ContentReader.Tells (memory b : Bool) (read : ContentReader) : Prop :=
  ∀ content?, ContentFrom memory content? → Decoding.Gives (Told b) (read content?)

namespace Input

theorem askVariant_gives {input : Input} (h : input.From memory) :
    Gives (fun o => ∀ name content?, o = .variant name content? → ContentFrom memory content?)
      input.askVariant := by
  cases memory with
  | true =>
    refine .of_keeps ((askVariant_keeps h).mono fun o ho name content? hsame => ?_)
    subst hsame
    exact ho.2
  | false =>
    obtain rfl : input = .wire := h
    refine .after fun marker => ?_
    split
    · refine .after fun len => ?_
      split
      · exact (Gives.throw (P := fun _ => False)).bind fun _ h => h.elim
      · refine .pure fun name content? hsame content hcontent => ?_
        cases hsame
        cases hcontent
        rfl
    · split
      · refine .pure fun name content? hsame => ?_
        cases hsame
        exact nofun
      · exact .after fun e => .throw

theorem content_gives (expected : String) {content? : Option Input}
    (h : ContentFrom memory content?) : Gives (From memory) (content expected content?) := by
  cases content? with
  | none => exact .throw
  | some input => exact .pure (h input rfl)

/-- What the contents of a variant offer is where they are. -/
theorem askTuple_gives {content? : Option Input} (h : ContentFrom memory content?) :
    Gives (Offer.From memory) (askTuple content?) :=
  (content_gives _ h).bind fun _ hinput => (ask_gives hinput rfl).mono fun _ ho => ho.1

theorem askStruct_gives {content? : Option Input} (h : ContentFrom memory content?) :
    Gives (Offer.Of (From memory)) (askStruct content?) := by
  refine (content_gives _ h).bind fun input hinput => ?_
  cases memory with
  | true => exact .of_keeps ((ask_keeps hinput _ _).mono fun _ => Offer.InMemory.of)
  | false =>
    obtain rfl : input = .wire := hinput
    exact Decoder.offer_fields_gives (.inl rfl)

end Input

theorem ContentReader.readVariant_told {variants : List (String × ContentReader)}
    (hvariants : ∀ variant ∈ variants, variant.2.Tells memory b) (expected : String) :
    Reader.Gives (Input.From memory) (Told b) (readVariant expected variants) := by
  intro input h
  refine (Input.askVariant_gives h).bind fun o ho => ?_
  cases o with
  | other o => exact .throw
  | variant name content? =>
    refine ((keys variants).read_gives name).bind fun read hread => ?_
    obtain ⟨variant, hmem, rfl⟩ := mem_of_offers hread
    exact hvariants variant hmem content? (ho name content? rfl)

theorem Offer.tuple_told {readers : List (Reader Item)} {o : Offer} (h : o.From memory)
    (hreaders : ∀ one ∈ readers, Reader.Gives (Input.ItemFrom memory) (Told b) one)
    (expected short : String) :
    Gives (fun list => ∀ item ∈ list, item.Told b) (o.takeTuple expected short readers) := by
  cases o with
  | seq items => exact Items.readTuple_gives hreaders h short
  | _ => exact .throw

mutual

/-- Everyone in a type who asks whether the format is meant for people is told the same, if the type
says so. -/
theorem Shape.read_told : {memory : Bool} → (shape : Shape) → shape.Asks registry b memory →
    Reader.Gives (Input.From memory) (Told b) (shape.read registry)
  | memory, .human, h, input, hinput => by
    refine .pure fun answer hmem => ?_
    obtain rfl := List.mem_singleton.mp hmem
    rw [← h]
    cases memory with
    | true =>
      cases input with
      | wire => exact hinput.elim
      | _ => rfl
    | false =>
      obtain rfl : input = .wire := hinput
      rfl
  | _, .int kind, _, _, _ => .leaf fun _ => rfl
  | _, .ignored, _, _, _ | _, .value, _, _, _ => .leaf fun _ => rfl
  | _, .bool, _, _, _ | _, .f32, _, _, _ | _, .f64, _, _, _ | _, .char, _, _, _
  | _, .text, _, _, _ | _, .bytes, _, _, _ | _, .unit, _, _, _ | _, .integer, _, _, _
  | _, .timestamp, _, _, _ | _, .unitStruct _, _, _, _ | _, .probe _, _, _, _ =>
    .after fun _ => .leaf fun _ => rfl
  | _, .probeVariant kind, _, _, _ => .after fun o => o.probe_told kind
  | _, .option content, h, _, hinput => by
    refine (Input.ask_gives hinput rfl).bind fun o ho => ?_
    cases o with
    | absent | unit => exact .pure nofun
    | present inner => exact (content.read_told h inner ho.1).map fun _ hitem => hitem
    | _ => exact .throw
  | _, .seq item, h, _, hinput => by
    refine (Input.ask_gives hinput rfl).bind fun o ho => ?_
    cases o with
    | seq items =>
      exact (Items.readAll_gives (.item h.1 (item.read_told h.2)) ho.1).map
        fun _ => Item.told_list
    | _ => exact .throw
  | _, .map key item, h, _, hinput => by
    refine (Input.ask_gives hinput rfl).bind fun o ho => ?_
    cases o with
    | map entries =>
      exact (Entries.readPart_gives (key.read_told h.1) (item.read_told h.2) ho.1 ho.2 _).map
        fun _ => Item.told_entries
    | _ => exact .throw
  | _, .mapPart count key item, h, _, hinput => by
    refine (Input.ask_gives hinput rfl).bind fun o ho => ?_
    cases o with
    | map entries =>
      exact (Entries.readPart_gives (key.read_told h.1) (item.read_told h.2) ho.1 ho.2 count).map
        fun _ => Item.told_entries
    | _ => exact .throw
  | _, .tuple items, h, _, hinput =>
    (Input.ask_gives hinput rfl).bind fun _ ho =>
      (Offer.tuple_told ho.1 (Shape.readers_told items h) _ _).map fun _ => Item.told_list
  | _, .tupleStruct name items, h, _, hinput =>
    (Input.ask_named_gives hinput rfl).bind fun _ ho =>
      (Offer.tuple_told ho (Shape.readers_told items h) _ _).map fun _ => Item.told_list
  | _, .newtype name content, h, _, hinput => by
    refine (Input.ask_newtype_gives hinput name).bind fun o ho => ?_
    rcases ho with ⟨inner, rfl, hinner⟩ | ⟨hinside, ho⟩
    · exact (content.read_told h inner hinner).map fun _ hitem => hitem
    · rw [Shape.Asks, hinside] at h
      cases o with
      | newtype inner => exact (content.read_told h inner ho).map fun _ hitem => hitem
      | _ =>
        have hreaders : ∀ one ∈ [content.read registry],
            Reader.Gives (Input.ItemFrom true) (Told b) one :=
          List.forall_mem_singleton.mpr (content.read_told h)
        refine (Offer.tuple_told ho hreaders _ _).map fun list hlist => ?_
        cases list with
        | nil => exact nofun
        | cons item rest => exact hlist item List.mem_cons_self
  | _, .struct name fields strict, h, _, hinput =>
    (Input.ask_struct_gives hinput name _).bind fun _ ho =>
      (FieldReader.readOffer_gives (Shape.fieldReaders_told fields h) nofun strict _ ho).map
        fun _ => Item.told_fields
  | _, .enumeration name variants, h, input, hinput =>
    ContentReader.readVariant_told (Shape.contentReaders_told name variants h) _ input hinput

theorem Shape.readers_told : {memory : Bool} → (items : List Shape) →
    Shape.ItemsAsk registry b memory items →
    ∀ one ∈ Shape.readers registry items, Reader.Gives (Input.ItemFrom memory) (Told b) one
  | _, [], _, _, hone => nomatch hone
  | _, item :: rest, h, one, hone => by
    rcases List.mem_cons.mp hone with rfl | hrest
    · exact .item h.1 (item.read_told h.2.1)
    · exact Shape.readers_told rest h.2.2 one hrest

theorem Shape.fieldReaders_told : {memory : Bool} → (fields : List (String × Shape)) →
    Shape.FieldsAsk registry b memory fields →
    ∀ field ∈ Shape.fieldReaders registry fields,
      Reader.Gives (Input.From memory) (Told b) field.read
  | _, [], _, _, hfield => nomatch hfield
  | _, (_, shape) :: rest, h, field, hfield => by
    rcases List.mem_cons.mp hfield with rfl | hrest
    · exact shape.read_told h.1
    · exact Shape.fieldReaders_told rest h.2 field hrest

theorem Shape.contentReaders_told (type : String) : {memory : Bool} →
    (variants : List (String × Content)) → Content.AllAsk registry b memory variants →
    ∀ variant ∈ Shape.contentReaders registry type variants, variant.2.Tells memory b
  | _, [], _, _, hvariant => nomatch hvariant
  | _, (variant, content) :: rest, h, one, hone => by
    rcases List.mem_cons.mp hone with rfl | hrest
    · exact content.read_told type variant h.1
    · exact Shape.contentReaders_told type rest h.2 one hrest

theorem Content.read_told (type variant : String) : {memory : Bool} → (content : Content) →
    content.Asks registry b memory → (content.read registry type variant).Tells memory b
  | _, .unit, _, _, _ => .leaf fun _ => rfl
  | _, .newtype content, h, _, hcontent =>
    (Input.content_gives _ hcontent).bind fun input hinput =>
      (content.read_told h input hinput).map fun _ hitem => hitem
  | _, .tuple items, h, _, hcontent =>
    (Input.askTuple_gives hcontent).bind fun _ ho =>
      (Offer.tuple_told ho (Shape.readers_told items h) _ _).map fun _ => Item.told_list
  | _, .struct fields, h, _, hcontent =>
    (Input.askStruct_gives hcontent).bind fun _ ho =>
      (FieldReader.readOffer_gives (Shape.fieldReaders_told fields h) nofun false _ ho).map
        fun _ => Item.told_fields

end

mutual

/-- In memory everyone is told that the format is meant for people. -/
theorem Shape.asks_memory : (shape : Shape) → shape.Asks registry true true
  | .human => rfl
  | .option content => content.asks_memory
  | .seq item => ⟨nofun, item.asks_memory⟩
  | .map key item => ⟨key.asks_memory, item.asks_memory⟩
  | .mapPart _ key item => ⟨key.asks_memory, item.asks_memory⟩
  | .tuple items => Shape.itemsAsk_memory items
  | .tupleStruct _ items => Shape.itemsAsk_memory items
  | .newtype _ content => content.asks_memory
  | .struct _ fields _ => Shape.fieldsAsk_memory fields
  | .enumeration _ variants => Content.allAsk_memory variants
  | .bool | .int _ | .f32 | .f64 | .char | .text | .bytes | .unit | .ignored | .value | .integer
  | .timestamp | .unitStruct _ | .probe _ | .probeVariant _ => trivial

theorem Shape.itemsAsk_memory : (items : List Shape) → Shape.ItemsAsk registry true true items
  | [] => trivial
  | item :: rest => ⟨nofun, item.asks_memory, Shape.itemsAsk_memory rest⟩

theorem Shape.fieldsAsk_memory : (fields : List (String × Shape)) →
    Shape.FieldsAsk registry true true fields
  | [] => trivial
  | (_, field) :: rest => ⟨field.asks_memory, Shape.fieldsAsk_memory rest⟩

theorem Content.asks_memory : (content : Content) → content.Asks registry true true
  | .unit => trivial
  | .newtype content => content.asks_memory
  | .tuple items => Shape.itemsAsk_memory items
  | .struct fields => Shape.fieldsAsk_memory fields

theorem Content.allAsk_memory : (variants : List (String × Content)) →
    Content.AllAsk registry true true variants
  | [] => trivial
  | (_, content) :: rest => ⟨content.asks_memory, Content.allAsk_memory rest⟩

end

/-- A type with a codec that asks is told one thing when it is written and another when that is
read. -/
theorem Shape.told_otherwise :
    let registry := Registry.empty.register "N" .bare
    Encoder.buffered ((Data.newtype "N" .human).encode {} registry) = .ok [0xc2] ∧
      ∃ item d, (Shape.newtype "N" .human).read registry .wire
          (Decoder.new (.ofBytes [0xc2]) {}) = .ok item d ∧
        d.source.position = 1 ∧ ¬item.Told false := by
  intro registry
  have hall : Decoder.result (((Shape.newtype "N" .human).read registry .wire).seen
      fun item d => (d.source.position, item.humans)) (Decoder.new (.ofBytes [0xc2]) {}) =
        .ok (1, [true]) := by decide +kernel
  obtain ⟨item, d, hread, hlook⟩ := exists_of_seen hall
  obtain ⟨hposition, hhumans⟩ := Prod.mk.inj hlook
  refine ⟨by decide +kernel, item, d, hread, hposition, ?_⟩
  intro htold
  exact absurd (htold true (by rw [hhumans]; exact List.mem_singleton.mpr rfl)) (by decide)

/-- Whatever is written is told that the format is not meant for people, in every place. Whatever is
read is told so where it is read on the wire, and the contrary where it is read from a value in
memory, as the contents of every type that has a codec are. -/
theorem Shape.told_of_read (registry : Registry) :
    (∀ config frames, (Data.inside frames .human).encode config registry =
      (Data.inside frames (.bool false)).encode config registry) ∧
    (∀ b (shape : Shape), shape.Asks registry b false → ∀ d item d',
      shape.read registry .wire d = .ok item d' → item.Told b) ∧
    (∀ (shape : Shape) v d item d', shape.read registry (.tree v) d = .ok item d' →
      item.Told true) ∧
    ∀ name (content : Shape), registry.contains name = true → ∀ d item d',
      (Shape.newtype name content).read registry .wire d = .ok item d' → item.Told true := by
  refine ⟨?_, ?_, ?_, ?_⟩
  · intro config frames
    have hsame (config : Config) (registry : Registry) :
        Data.human.encode config registry = (Data.bool false).encode config registry := rfl
    exact Data.inside_congr hsame config registry frames
  · intro b shape hasks d item d' hread
    exact shape.read_told hasks .wire rfl hread
  · intro shape v d item d' hread
    exact Shape.read_told shape shape.asks_memory (.tree v) trivial hread
  · intro name content hcodec d item d' hread
    have hasks : (Shape.newtype name content).Asks registry true false := by
      rw [Shape.Asks, Bool.false_or, hcodec]
      exact content.asks_memory
    exact (Shape.newtype name content).read_told hasks .wire rfl hread

/-- An option on the wire asks, and the items of an array that a codec has read. -/
theorem Shape.told_of_read_struct :
    let registry := Registry.empty.register "N" .bare
    let shape : Shape := .struct "S" [("a", .option .human)] false
    let named : Shape := .newtype "N" (.seq .human)
    shape.Asks registry false false ∧ registry.contains "N" = true ∧
      (∃ item d, shape.read registry .wire
          (Decoder.new (.ofBytes [0x81, 0xa1, 0x61, 0xc3]) {}) = .ok item d ∧
        item.humans = [false] ∧ item.Told false) ∧
      ∃ item d, named.read registry .wire (Decoder.new (.ofBytes [0x92, 0x01, 0x02]) {}) =
          .ok item d ∧ item.humans = [true, true] ∧ item.Told true := by
  intro registry shape named
  have hasks : shape.Asks registry false false := ⟨rfl, trivial⟩
  have hcodec : registry.contains "N" = true := by decide +kernel
  obtain ⟨-, hwire, -, hnamed⟩ := Shape.told_of_read registry
  have hfirst : Decoder.result ((shape.read registry .wire).seen fun item _ => item.humans)
      (Decoder.new (.ofBytes [0x81, 0xa1, 0x61, 0xc3]) {}) = .ok [false] := by decide +kernel
  have hsecond : Decoder.result ((named.read registry .wire).seen fun item _ => item.humans)
      (Decoder.new (.ofBytes [0x92, 0x01, 0x02]) {}) = .ok [true, true] := by decide +kernel
  obtain ⟨item, d, hread, hhumans⟩ := exists_of_seen hfirst
  obtain ⟨item', d', hread', hhumans'⟩ := exists_of_seen hsecond
  refine ⟨hasks, hcodec, ⟨item, d, hread, hhumans, hwire false shape hasks _ _ _ hread⟩,
    ⟨item', d', hread', hhumans', hnamed "N" (.seq .human) hcodec _ _ _ hread'⟩⟩

end MessagePack
