import MessagePack.Proofs.Typed.Shape

namespace MessagePack

open Decoder
open Wire (Forest Streams ElementTree)

theorem Registry.framed_empty : Registry.empty.Framed := fun _ _ h => nomatch h

theorem Registry.sized_empty (r : Nat → Nat → Prop) : Registry.empty.Sized r :=
  fun _ _ h => nomatch h

/-- A fresh session that reads a type without codecs goes over one complete element, and stops
right after it. -/
theorem Shape.exists_spelledBy_of_read {shape : Shape} (hplain : shape.Plain) {bytes : List UInt8}
    {config : Config} {item : Item} {d : Decoder}
    (h : shape.read .empty .wire (new (.ofBytes bytes) config) = .ok item d) :
    d.peeked = none ∧ ∃ (v : Value) (spelling : List UInt8), v.SpelledBy spelling ∧
      v.height ≤ config.maxDepth ∧ bytes = spelling ++ d.source.rest ∧
      d.source.position = spelling.length := by
  have hs := sound_new bytes config
  have hreads : Decoding.Reads True (shape.layout .empty) true (fun _ => True)
      (shape.read .empty .wire) :=
    shape.read_reads Registry.framed_empty (fun _ _ => rfl) fun _ => hplain
  obtain ⟨-, f, spelling, hf, hpassed, hp⟩ := hreads hs h
  have hpeeked : d.peeked = none := hp trivial (.inl rfl)
  obtain ⟨hwhole, hlen⟩ :=
    shape.sized_layout .eq (Registry.sized_empty _) (.inl hplain) f hf
  obtain ⟨t, rfl⟩ := List.length_eq_one_iff.mp hlen
  rw [Forest.elements_cons, Forest.elements_nil, List.append_nil] at hpassed
  obtain ⟨v, hv, hheight⟩ := Value.exists_spelledBy hwhole.1 hpassed.streams
  obtain ⟨hroom, -⟩ :=
    (Nesting.enterAll_whole_eq_ok_iff hwhole.1 hs.nesting).mp hpassed.nesting
  obtain ⟨hposition, hall⟩ := hpassed.position_eq hpeeked
  refine ⟨hpeeked, v, spelling, hv, ?_, hall, hposition⟩
  simpa [new, Nesting.depth, hheight] using hroom

/-- Whatever type is read without codecs, what it took from the session is what reading anything
would have taken, and no tag is left looked at. -/
theorem Shape.read_framed {shape : Shape} (hplain : shape.Plain) (bytes : List UInt8)
    (config : Config) {item : Item} {d : Decoder}
    (h : shape.read .empty .wire (new (.ofBytes bytes) config) = .ok item d) :
    d.peeked = none ∧ ∃ v d', Decoder.value (new (.ofBytes bytes) config) = .ok v d' ∧
      d'.source.position = d.source.position ∧ d'.peeked = none := by
  obtain ⟨hpeeked, v, spelling, hv, hroom, hall, hposition⟩ :=
    Shape.exists_spelledBy_of_read hplain h
  obtain ⟨d', hread, hposition'⟩ := value_of_spelledBy d.source.rest hv hroom
  rw [← hall] at hread
  obtain ⟨-, -, -, -, -, -, -, hp, -, -⟩ :=
    (folded_of_foldLevels (sound_new bytes config) hread).exists_tree (sound_new bytes config)
  exact ⟨hpeeked, v, d', hread, hposition'.trans hposition.symm, hp⟩

/-- A structure with an unknown field, a missing option and items that are read over. -/
theorem Shape.read_framed_struct :
    let shape : Shape := .struct "P" [("a", .option (.int .u8)), ("b", .tuple [.bool, .ignored])]
      false
    let bytes : List UInt8 := [0x82, 0xa1, 0x62, 0x92, 0xc3, 0x91, 0xc0, 0xa1, 0x7a, 0x05, 0xff]
    shape.Plain ∧ ∃ item d, shape.read .empty .wire (new (.ofBytes bytes) {}) = .ok item d ∧
      d.source.position = 10 ∧ d.peeked = none ∧ ∃ v d',
        Decoder.value (new (.ofBytes bytes) {}) = .ok v d' ∧
        d'.source.position = d.source.position ∧ d'.peeked = none := by
  intro shape bytes
  have hplain : shape.Plain := by simp [shape, Plain, PlainFields, PlainAll]
  have hall : result ((shape.read .empty .wire).seen fun _ d => d.source.position)
      (new (.ofBytes bytes) {}) = .ok 10 := by decide +kernel
  obtain ⟨item, d, hread, hposition⟩ := Decoding.exists_of_seen hall
  exact ⟨hplain, item, d, hread, hposition, Shape.read_framed hplain bytes {} hread⟩

end MessagePack
