import MessagePack.Proofs.Nesting.Height
import MessagePack.Proofs.Session.Yields
import MessagePack.Proofs.Writing.Writes

namespace MessagePack

open Encoding (Writes)
open Decoding (Yields)
open Wire (Element Forest IsHeader Streams ElementTree maxLength)

/-- A byte string that begins with an element begins with a tag of it. -/
theorem Wire.Streams.exists_field {e : Element} {elements : List Element} {tag : UInt8}
    {tail : List UInt8} (h : Streams (e :: elements) (tag :: tail)) :
    ∃ field, Element.ofField field (.ofByte tag) = some e := by
  generalize hbytes : tag :: tail = bytes at h
  cases h with
  | cons head _ _ =>
    obtain ⟨tag', field, rfl⟩ := head.exists_cons
    obtain ⟨-, he⟩ := Wire.isHeader_cons_iff.mp head
    rw [List.cons_append, List.cons.injEq] at hbytes
    exact ⟨_, hbytes.1 ▸ he⟩

/-- What the encoding writes are the elements of `f`, and the reading takes just these for `a`.
A container holds no less than it announces; it may hold more, where a codec writes several
elements for one item. -/
def Agree {α : Type} (encoding : Encoding Unit) (reading : Decoding α) (f : Forest) (a : α) :
    Prop :=
  f.Lavish ∧ ∃ bytes, Streams f.elements bytes ∧ Writes encoding bytes ∧
    Yields reading f.elements bytes a

namespace Agree

variable {α β : Type} {encoding first second whole : Encoding Unit} {reading : Decoding α}
  {k : α → Decoding β} {f g : Forest} {a : α} {b : β} {e : Element}

theorem nothing (a : α) : Agree (pure ()) (pure a) [] a :=
  ⟨trivial, [], .nil, .nothing, .pure a⟩

theorem bind (h : Agree first reading f a) (h' : Agree second (k a) g b) :
    Agree (first >>= fun _ => second) (reading >>= k) (f ++ g) b := by
  obtain ⟨hlavish, bytes, hstreams, hwrites, hyields⟩ := h
  obtain ⟨hlavish', bytes', hstreams', hwrites', hyields'⟩ := h'
  refine ⟨Wire.Forest.sized_append hlavish hlavish', bytes ++ bytes', ?_, hwrites.bind hwrites', ?_⟩
  · rw [Wire.Forest.elements_append]
    exact hstreams.append hstreams'
  · rw [Wire.Forest.elements_append]
    exact hyields.bind hyields'

/-- What only makes something of the result. -/
theorem follow (h : Agree encoding reading f a) (hk : k a = pure b) :
    Agree encoding (reading >>= k) f b := by
  obtain ⟨hlavish, bytes, hstreams, hwrites, hyields⟩ := h
  exact ⟨hlavish, bytes, hstreams, hwrites, hyields.follow hk⟩

/-- The reading may look at the tag first. -/
theorem peek {k : Wire.Marker → Decoding α} (h : Agree encoding reading f a) (hf : f ≠ [])
    (hk : ∀ tag tail, Writes encoding (tag :: tail) → Streams f.elements (tag :: tail) →
      k (.ofByte tag) = reading) :
    Agree encoding (Decoder.peekMarker >>= k) f a := by
  obtain ⟨hlavish, bytes, hstreams, hwrites, hyields⟩ := h
  have helements : f.elements ≠ [] := by
    cases f with
    | nil => exact absurd rfl hf
    | cons t rest =>
      cases t
      simp [Wire.ElementTree.elements]
  obtain ⟨tag, tail, hbytes⟩ := List.exists_cons_of_ne_nil (hstreams.ne_nil helements)
  refine ⟨hlavish, bytes, hstreams, hwrites, .peekMarker hbytes ?_⟩
  rw [hk tag tail (hbytes ▸ hwrites) (hbytes ▸ hstreams)]
  exact hyields

/-- What is looked up in the tables makes no difference. -/
theorem fieldsOf {name : String} {names : List String} {k : Option Fields → Decoding α}
    (h : ∀ table, Agree encoding (k table) f a) :
    Agree encoding (Decoder.fieldsOf name names >>= k) f a := by
  obtain ⟨hlavish, bytes, hstreams, hwrites, -⟩ := h none
  refine ⟨hlavish, bytes, hstreams, hwrites, .fieldsOf fun table => ?_⟩
  obtain ⟨-, bytes', -, hwrites', hyields⟩ := h table
  rwa [hwrites.unique hwrites']

variable {config : Config} {k : Element → Decoding β}

/-- An element without a length. -/
theorem scalar (he : e.length = 0) (hk : k (e.announced config.intPolicy) = pure b) :
    Agree (Encoder.element config e) (Decoder.nextElement >>= k)
      [.node (e.announced config.intPolicy) []] b := by
  obtain ⟨header, hheader, hwrites⟩ := Writes.exists_element config (he ▸ Nat.zero_le maxLength)
  have hnone : (e.announced config.intPolicy).items = 0 ∧
      (e.announced config.intPolicy).payload = 0 := by
    cases e with
    | raw len | array len | map len =>
      obtain rfl : len = 0 := he
      exact ⟨rfl, rfl⟩
    | int v =>
      simp only [Element.announced]
      split_ifs <;> exact ⟨rfl, rfl⟩
    | _ => exact ⟨rfl, rfl⟩
  exact ⟨⟨⟨Nat.le_of_eq hnone.1, trivial⟩, trivial⟩, header, .header hheader hnone.2, hwrites,
    .scalar hheader hk⟩

/-- A container with its contents, which may be written apart. -/
theorem container_of_writes (he : e.isContainer = true) (hlen : e.length ≤ maxLength)
    (hcount : e.items ≤ f.length) (h : Agree encoding (k e) f b)
    (hwhole : ∀ header body, Writes (Encoder.element config e) header → Writes encoding body →
      Writes whole (header ++ body)) :
    Agree whole (Decoder.nextElement >>= k) [.node e f] b := by
  obtain ⟨hlavish, body, hstreams, hwrites, hyields⟩ := h
  obtain ⟨header, hheader, hwrites'⟩ := Writes.exists_element config hlen
  have hsame : e.announced config.intPolicy = e := by
    cases e <;> first | rfl | cases he
  have hpayload : e.payload = 0 := by
    cases e <;> first | rfl | cases he
  rw [hsame] at hheader
  refine ⟨⟨⟨hcount, hlavish⟩, trivial⟩, header ++ body, ?_, hwhole header body hwrites' hwrites, ?_⟩
  · simpa [Wire.ElementTree.elements] using (Streams.header hheader hpayload).append hstreams
  · simpa [Wire.ElementTree.elements] using Yields.element hheader hyields

theorem container (he : e.isContainer = true) (hlen : e.length ≤ maxLength)
    (hcount : e.items ≤ f.length) (h : Agree encoding (k e) f b) :
    Agree (Encoder.element config e >>= fun _ => encoding) (Decoder.nextElement >>= k)
      [.node e f] b :=
  h.container_of_writes he hlen hcount fun _ _ hheader hbody => hheader.bind hbody

/-- A raw with its payload. -/
theorem raw {data : List UInt8} (hlen : data.length ≤ maxLength)
    (hk : ∀ {d d' : Decoder}, Decoder.payload data.length d = .ok data d' →
      k (.raw data.length) d = .ok b d') :
    Agree (Encoder.bytes config data) (Decoder.nextElement >>= k)
      [.node (.raw data.length) []] b := by
  obtain ⟨header, hheader, hwrites⟩ := Writes.exists_bytes config hlen
  exact ⟨⟨⟨Nat.zero_le _, trivial⟩, trivial⟩, header ++ data, .raw hheader, hwrites,
    .raw hheader hk⟩

open Decoder in
/-- A session over what was written reads it to the last byte, if its limit has room for all that
nests in there. -/
theorem exists_run (h : Agree encoding reading f a) {config : Config}
    (hroom : f.height ≤ config.maxDepth) :
    ∃ bytes d, Encoder.buffered encoding = .ok bytes ∧
      reading (new (.ofBytes bytes) config) = .ok a d ∧ d.source.position = bytes.length ∧
      d.source.rest = [] ∧ d.peeked = none := by
  obtain ⟨hlavish, bytes, hstreams, hwrites, hyields⟩ := h
  have hnesting := Nesting.enterAll_forest_of_lavish hlavish
    (Nesting.sound_empty config.maxDepth) ((Nat.zero_add _).symm ▸ hroom)
  have hahead : (new (.ofBytes bytes) config).ahead = bytes ++ [] := by simp
  obtain ⟨tables, hread⟩ := hyields (sound_new bytes config) hahead hnesting
  rw [past_of_peeked_none rfl] at hread
  refine ⟨bytes, _, hwrites.buffered, hread, ?_, ?_, rfl⟩
  · simp [new, Source.advance, Source.ofBytes]
  · simp [new, Source.advance, Source.ofBytes]

end Agree

end MessagePack
