import MessagePack.Proofs.RoundTrip.Named
import MessagePack.Proofs.RoundTrip.Timestamp

namespace MessagePack

open Wire (Forest)

variable {config : Config} {registry : Registry}

/-- There is no codec at all, or one for timestamps that writes their parts bare. -/
theorem Timestamp.agrees (hregistry : registry = .empty ∨ registry = .default) (t : Timestamp) :
    (Data.timestamp t).Agrees config registry (Shape.timestamp.read registry .wire) := by
  rcases hregistry with rfl | rfl
  · exact Timestamp.agrees_of_free rfl t
  · exact Timestamp.agrees_of_codec get?_default t

/-- Data that fits a type is read back as that type, by induction on how it fits. -/
theorem Fits.agrees (hregistry : registry = .empty ∨ registry = .default) {d : Data} {shape : Shape}
    (h : Fits config registry d shape) : d.Agrees config registry (shape.read registry .wire) := by
  induction h with
  | bool b => exact Shape.bool_agrees b
  | int narrow range => exact Shape.int_agrees narrow range
  | f32 bits => exact Shape.f32_agrees bits
  | f64 bits => exact Shape.f64_agrees bits
  | char c => exact Shape.char_agrees c
  | text size => exact Shape.text_agrees size
  | bytes size => exact Shape.bytes_agrees size
  | unit => exact Shape.unit_agrees
  | value sizes => exact Shape.value_agrees sizes
  | integer n => exact Shape.integer_agrees n
  | timestamp t => exact Timestamp.agrees hregistry t
  | absent content => exact Shape.absent_agrees content
  | present _ notNil ih => exact Shape.present_agrees ih notNil
  | seq announced size _ ih =>
    refine (Shape.seq_agrees size ih ?_ rfl).agrees (by rw [Data.depth, Data.depths_eq_tallest])
    intro header body hheader hbody
    exact Data.seq_writes announced hheader hbody
  | collectSeq announced size _ ih =>
    refine (Shape.seq_agrees size ih ?_ rfl).agrees (by rw [Data.depth, Data.depths_eq_tallest])
    intro header body hheader hbody
    exact Data.collectSeq_writes announced hheader hbody
  | map announced size _ _ ihkeys ih =>
    refine (Shape.map_agrees size ihkeys ih ?_ rfl).agrees
      (by rw [Data.depth, Data.depthPairs_eq_tallest])
    intro header body hheader hbody
    exact Data.map_writes announced hheader hbody
  | collectMap announced size _ _ ihkeys ih =>
    refine (Shape.map_agrees size ihkeys ih ?_ rfl).agrees
      (by rw [Data.depth, Data.depthPairs_eq_tallest])
    intro header body hheader hbody
    exact Data.collectMap_writes announced hheader hbody
  | tuple size length _ ih =>
    exact (Shape.tuple_agrees size (Shape.readers_match length ih)).agrees
      (by rw [Data.depth, Data.depths_eq_tallest])
  | tupleStruct free size length _ ih =>
    exact (Shape.tupleStruct_agrees free size (Shape.readers_match length ih)).agrees
      (by rw [Data.depth, Data.depths_eq_tallest])
  | unitStruct free => exact Shape.unitStruct_agrees free
  | newtype free ordinary _ ih => exact Shape.newtype_agrees free ordinary ih
  | struct free same _ ih =>
    exact (Shape.struct_agrees free same ih).agrees
      (by rw [Data.depth, Data.depthFields_eq_tallest])
  | unitVariant known => exact Shape.unitVariant_agrees known
  | newtypeVariant known _ ih => exact Shape.newtypeVariant_agrees known ih
  | tupleVariant known size length _ ih =>
    exact (Shape.tupleVariant_agrees known size (Shape.readers_match length ih)).agrees
      (by rw [Data.depth, Data.depths_eq_tallest])
  | structVariant known same _ ih =>
    exact (Shape.structVariant_agrees known same ih).agrees
      (by rw [Data.depth, Data.depthFields_eq_tallest])

/-- Reads things of several types, one after another. -/
def Shape.readAll (registry : Registry) (shapes : List Shape) : Decoding (List Item) :=
  shapes.mapM fun shape => shape.read registry .wire

/-- Each thing of a stream is read right after the one before it. -/
theorem Shape.readAll_agree {stream : List (Data × Shape)}
    (h : ∀ entry ∈ stream, entry.1.Agrees config registry (entry.2.read registry .wire)) :
    ∃ f, Agree (Data.encodeAll config registry (stream.map Prod.fst))
        (Shape.readAll registry (stream.map Prod.snd)) f (stream.map fun entry => entry.1.item) ∧
      f.height = Data.depths registry (stream.map Prod.fst) := by
  induction stream with
  | nil => exact ⟨[], .nothing _, rfl⟩
  | cons entry stream ih =>
    obtain ⟨f, hagree, -, hheight⟩ := h entry (by simp)
    obtain ⟨g, hagree', hheight'⟩ := ih fun entry hentry => h entry (by simp [hentry])
    refine ⟨f ++ g, ?_, ?_⟩
    · simp only [List.map_cons, Shape.readAll, List.mapM_cons]
      exact hagree.bind (hagree'.follow rfl)
    · rw [Forest.height_append, hheight, hheight']
      rfl

open Decoder

/-- Whatever is written of the types' own values, one after another, is read back by the types one
after another, to the last byte: no header is taken for one that nests too deep, even where a
timestamp counts for two items of the array or map around it. -/
theorem Shape.readAll_encodeAll (hregistry : registry = .empty ∨ registry = .default)
    (config config' : Config) {stream : List (Data × Shape)}
    (hfits : ∀ entry ∈ stream, Fits config registry entry.1 entry.2)
    (hdepth : ∀ entry ∈ stream, entry.1.depth registry ≤ config'.maxDepth) :
    ∃ bytes d, Encoder.buffered (Data.encodeAll config registry (stream.map Prod.fst)) = .ok bytes ∧
      Shape.readAll registry (stream.map Prod.snd) (new (.ofBytes bytes) config') =
        .ok (stream.map fun entry => entry.1.item) d ∧
      d.source.position = bytes.length ∧ d.source.rest = [] ∧ d.peeked = none := by
  obtain ⟨f, hagree, hheight⟩ :=
    Shape.readAll_agree fun entry h => (hfits entry h).agrees hregistry
  have hroom : f.height ≤ config'.maxDepth := by
    rw [hheight, Data.depths_eq_tallest, tallest_le_iff]
    intro d hd
    obtain ⟨entry, hentry, rfl⟩ := List.mem_map.mp hd
    exact hdepth entry hentry
  exact hagree.exists_run hroom

/-- A structure with a timestamp and a variant in an option, and after it an option without
anything, where no more than three arrays and maps may nest. -/
theorem Shape.readAll_encodeAll_struct :
    let data : Data := .struct "P" [("at", .timestamp (.new 5 7)),
      ("to", .present (.newtypeVariant "E" "B" (.seq none [.int .i8 (-1)])))]
    let shape : Shape := .struct "P" [("at", .timestamp),
      ("to", .option (.enumeration "E" [("A", .unit), ("B", .newtype (.seq (.int .i8)))]))] false
    let stream : List (Data × Shape) := [(data, shape), (.absent, .option .bool)]
    (Registry.default = .empty ∨ Registry.default = .default) ∧
      (∀ entry ∈ stream, Fits {} .default entry.1 entry.2) ∧
      (∀ entry ∈ stream, entry.1.depth .default ≤ ({ maxDepth := 3 } : Config).maxDepth) ∧
      ∃ bytes d, Encoder.buffered (Data.encodeAll {} .default (stream.map Prod.fst)) = .ok bytes ∧
        Shape.readAll .default (stream.map Prod.snd) (new (.ofBytes bytes) { maxDepth := 3 }) =
          .ok (stream.map fun entry => entry.1.item) d ∧
        d.source.position = bytes.length ∧ d.source.rest = [] ∧ d.peeked = none := by
  intro data shape stream
  have hseq : Fits {} .default (.seq none [.int .i8 (-1)]) (.seq (.int .i8)) := by
    refine .seq nofun (by decide) ?_
    intro d hd
    obtain rfl := List.mem_singleton.mp hd
    exact .int rfl rfl
  have hknown : VariantOf [("A", .unit), ("B", .newtype (.seq (.int .i8)))] "B"
      (.newtype (.seq (.int .i8))) := ⟨by simp, by simp, by decide⟩
  have hoption : Fits {} .default (.present (.newtypeVariant "E" "B" (.seq none [.int .i8 (-1)])))
      (.option (.enumeration "E" [("A", .unit), ("B", .newtype (.seq (.int .i8)))])) := by
    refine .present (.newtypeVariant hknown hseq) fun tail h => ?_
    have hbytes : Encoder.buffered ((Data.newtypeVariant "E" "B" (.seq none [.int .i8 (-1)])).encode
        {} .default) = .ok [0x81, 0xa1, 0x42, 0x91, 0xff] := by decide +kernel
    rw [hbytes] at h
    cases h
  have hsame : FieldsMatch [("at", .timestamp (.new 5 7)),
      ("to", .present (.newtypeVariant "E" "B" (.seq none [.int .i8 (-1)])))]
      [("at", .timestamp),
        ("to", .option (.enumeration "E" [("A", .unit), ("B", .newtype (.seq (.int .i8)))]))] :=
    ⟨by decide, rfl, by decide, by decide⟩
  have hfits : ∀ entry ∈ stream, Fits {} .default entry.1 entry.2 := by
    intro entry hentry
    simp only [stream, List.mem_cons, List.not_mem_nil, or_false] at hentry
    rcases hentry with rfl | rfl
    · refine .struct (by decide) hsame ?_
      intro field shape hmem
      simp only [List.zip_cons_cons, List.zip_nil_left, List.mem_cons, List.not_mem_nil, or_false,
        Prod.mk.injEq] at hmem
      rcases hmem with ⟨rfl, rfl⟩ | ⟨rfl, rfl⟩
      · exact .timestamp _
      · exact hoption
    · exact .absent .bool
  have hdepth : ∀ entry ∈ stream,
      entry.1.depth .default ≤ ({ maxDepth := 3 } : Config).maxDepth := by
    intro entry hentry
    simp only [stream, List.mem_cons, List.not_mem_nil, or_false] at hentry
    rcases hentry with rfl | rfl
    · decide
    · decide
  exact ⟨.inr rfl, hfits, hdepth,
    Shape.readAll_encodeAll (.inr rfl) {} { maxDepth := 3 } hfits hdepth⟩

end MessagePack
