import MessagePack.Codec.Samples
import MessagePack.Proofs.Registry.Register
import MessagePack.Proofs.Writing.Meaning

namespace MessagePack

open Decoder (new)

namespace Data

/-- Codecs that write the values they are given as they are make little difference. Data is written
with them as without them, in the same bytes if integers are compact. Otherwise the bytes are still
read as one value, to the last of them: what went through a codec may have lost its signs. -/
theorem encode_bare (config : Config) {registry : Registry} {d : Data} (h : d.Encodable)
    (hbare : ∀ name codec, registry.get? name = some codec → codec.encode = Codec.bare.encode)
    (hroom : d.depth .empty ≤ unlimitedDepth) :
    let limits : Config := { maxDepth := unlimitedDepth }
    ∃ bytes plain, Encoder.buffered (d.encode config registry) = .ok bytes ∧
      Encoder.buffered (d.encode config .empty) = .ok plain ∧
      (config.compactInts = true → bytes = plain) ∧
      (∃ s, Decoder.value (new (.ofBytes bytes) limits) = .ok d.meaning s ∧
        s.source.position = bytes.length) ∧
      ∃ s, Decoder.value (new (.ofBytes plain) limits) = .ok d.meaning s ∧
        s.source.position = plain.length := by
  intro limits
  have hreads {bytes : List UInt8} (hspelled : d.meaning.SpelledBy bytes) :
      ∃ s, Decoder.value (new (.ofBytes bytes) limits) = .ok d.meaning s ∧
        s.source.position = bytes.length := by
    have hheight : d.meaning.height ≤ limits.maxDepth := d.height_meaning.symm ▸ hroom
    obtain ⟨s, hread, hposition⟩ := Decoder.value_of_spelledBy [] hspelled hheight
    rw [List.append_nil] at hread
    exact ⟨s, hread, hposition⟩
  have hwritten : d.meaning.WrittenAs config (d.encode config registry) :=
    d.writtenAs h fun name codec hget => ⟨hbare name codec hget, hroom⟩
  have hwritten' : d.meaning.WrittenAs config (d.encode config .empty) :=
    d.writtenAs h (Registry.bareTo_empty _)
  obtain ⟨bytes, hspelled, hwrites, hcompact⟩ := hwritten
  obtain ⟨plain, hspelled', hwrites', hcompact'⟩ := hwritten'
  exact ⟨bytes, plain, hwrites.buffered, hwrites'.buffered,
    fun hc => (hcompact hc).unique (hcompact' hc), hreads hspelled, hreads hspelled'⟩

/-- A struct with a codec, and in it a timestamp in an array of unknown length. -/
theorem encode_bare_struct :
    let d : Data := .struct "P" [("a", .seq none [.int .i16 300, .timestamp (.ofSeconds 5)])]
    let registry := Registry.empty.register "P" .bare |>.register Timestamp.typeName .bare
    let limits : Config := { maxDepth := unlimitedDepth }
    d.Encodable ∧
      (∀ name codec, registry.get? name = some codec → codec.encode = Codec.bare.encode) ∧
      d.depth .empty ≤ unlimitedDepth ∧
      (∃ bytes plain, Encoder.buffered (d.encode {} registry) = .ok bytes ∧
        Encoder.buffered (d.encode {} .empty) = .ok plain ∧
        (∃ s, Decoder.value (new (.ofBytes bytes) limits) = .ok d.meaning s ∧
          s.source.position = bytes.length) ∧
        ∃ s, Decoder.value (new (.ofBytes plain) limits) = .ok d.meaning s ∧
          s.source.position = plain.length) ∧
      Encoder.buffered (d.encode {} registry) =
        .ok [0x81, 0xa1, 0x61, 0x92, 0xcd, 0x01, 0x2c, 0x92, 0x05, 0x00] ∧
      Encoder.buffered (d.encode {} .empty) =
        .ok [0x81, 0xa1, 0x61, 0x92, 0xd1, 0x01, 0x2c, 0x92, 0x05, 0x00] := by
  have hencodable : Encodable (.struct "P"
      [("a", .seq none [.int .i16 300, .timestamp (.ofSeconds 5)])]) :=
    ⟨by decide, by decide, ⟨nofun, by decide, ⟨rfl, by decide⟩, trivial, trivial⟩, trivial⟩
  have hbare (name : String) (codec : Codec) (hget : (Registry.empty.register "P" .bare |>.register
      Timestamp.typeName .bare).get? name = some codec) : codec.encode = Codec.bare.encode := by
    rw [Registry.get?_register, Registry.get?_register] at hget
    split_ifs at hget
    · cases hget
      rfl
    · cases hget
      rfl
    · cases hget
  refine ⟨hencodable, hbare, by decide, ?_, by decide +kernel, by decide +kernel⟩
  obtain ⟨bytes, plain, hbytes, hplain, -, hreads, hreads'⟩ :=
    encode_bare {} hencodable hbare (by decide)
  exact ⟨bytes, plain, hbytes, hplain, hreads, hreads'⟩

end Data

end MessagePack
