import MessagePack.Codec.Samples
import MessagePack.Proofs.Writing.WellFormed

namespace MessagePack

open Encoder (buffered capture)

/-- Whatever is captured of the encoding is all that it wrote: one complete element, which a session
over it reads to the last byte. -/
def Encoding.CapturedWhole (encoding : Encoding Unit) : Prop :=
  ∀ v, capture encoding = .ok v → ∃ bytes d, buffered encoding = .ok bytes ∧ v.SpelledBy bytes ∧
    Decoder.value (.new (.ofBytes bytes) { maxDepth := unlimitedDepth }) = .ok v d ∧
      d.source.position = bytes.length

namespace Encoding

variable {encoding : Encoding Unit}

/-- Nothing is dropped exactly where nothing comes after a first element. -/
theorem capturedWhole_iff : encoding.CapturedWhole ↔
    ∀ (v : Value) (whole dropped : List UInt8), buffered encoding = .ok (whole ++ dropped) →
      v.SpelledBy whole → v.height ≤ unlimitedDepth → dropped = [] := by
  constructor
  · intro hwhole v whole dropped hbytes hspelled hheight
    have hcapture := Encoder.capture_eq_ok_iff.mpr ⟨whole, dropped, hbytes, hspelled, hheight⟩
    obtain ⟨bytes, -, hbytes', hspelled', -, -⟩ := hwhole v hcapture
    obtain rfl : whole ++ dropped = bytes := Except.ok.inj (hbytes.symm.trans hbytes')
    have hsame : whole ++ dropped = (whole ++ dropped) ++ [] := (List.append_nil _).symm
    exact (hspelled.append_inj hspelled' hsame).2.2
  · intro hnone v hcapture
    obtain ⟨whole, dropped, hbytes, hspelled, hheight⟩ := Encoder.capture_eq_ok_iff.mp hcapture
    obtain rfl := hnone v whole dropped hbytes hspelled hheight
    have hroom : v.height ≤ ({ maxDepth := unlimitedDepth } : Config).maxDepth := hheight
    obtain ⟨d, hread, hposition⟩ := Decoder.value_of_spelledBy [] hspelled hroom
    rw [List.append_nil] at hbytes hread
    exact ⟨whole, d, hbytes, hspelled, hread, hposition⟩

/-- Where the bytes are one complete element there is no room for a second one. -/
theorem LeavesElement.capturedWhole (h : encoding.LeavesElement) : encoding.CapturedWhole := by
  rw [capturedWhole_iff]
  intro v whole dropped hbytes hspelled _
  obtain ⟨w, hall⟩ := h _ hbytes
  have hsame : whole ++ dropped = (whole ++ dropped) ++ [] := (List.append_nil _).symm
  exact (hspelled.append_inj hall hsame).2.2

end Encoding

namespace Data

/-- Two bare numbers where one element is due, as a timestamp is by default: the second number is
dropped, and a codec writes the first alone as if that were all. -/
theorem capture_drops :
    let d : Data := .coder ((Data.timestamp (.new 1 2)).encode {} .default)
    buffered (d.encode {} .empty) = .ok [0x01, 0x02] ∧
      capture (d.encode {} .empty) = .ok (.ofUInt64 1) ∧
      buffered ((Data.newtype "N" d).encode {} (Registry.empty.register "N" .bare)) = .ok [0x01] ∧
      ¬(d.encode {} .empty).CapturedWhole := by
  intro d
  have hbytes : buffered (d.encode {} .empty) = .ok ([0x01] ++ [0x02]) := by decide +kernel
  have hone : (Value.ofUInt64 1).SpelledBy [0x01] := .uint (@Wire.IsHeader.posInt 1 (by decide))
  have hcapture : capture (d.encode {} .empty) = .ok (.ofUInt64 1) :=
    Encoder.capture_eq_ok_iff.mpr ⟨_, _, hbytes, hone, by decide⟩
  refine ⟨hbytes, hcapture, by decide +kernel, fun hwhole => ?_⟩
  rw [Encoding.capturedWhole_iff] at hwhole
  have hnone : ([0x02] : List UInt8) = [] := hwhole _ _ _ hbytes hone (by decide)
  exact absurd hnone (by decide)

/-- What is captured of any data is what the first element of its bytes spells, and all of the bytes
exactly where nothing comes after that element; so it is for data that announces true lengths and in
which whatever writes its own bytes writes one complete element. -/
theorem capture_first (config : Config) (d : Data) :
    (∀ v, capture (d.encode config .empty) = .ok v ↔
      ∃ whole dropped, buffered (d.encode config .empty) = .ok (whole ++ dropped) ∧
        v.SpelledBy whole ∧ v.height ≤ unlimitedDepth) ∧
    ((d.encode config .empty).CapturedWhole ↔
      ∀ (v : Value) (whole dropped : List UInt8),
        buffered (d.encode config .empty) = .ok (whole ++ dropped) → v.SpelledBy whole →
          v.height ≤ unlimitedDepth → dropped = []) ∧
    (d.Sincere config → (d.encode config .empty).CapturedWhole) := by
  refine ⟨fun v => Encoder.capture_eq_ok_iff, Encoding.capturedWhole_iff, fun hsincere => ?_⟩
  have hone : (d.encode config .empty).LeavesElement := by
    intro bytes hbytes
    have hwhole := d.encode_sincere config hsincere
    exact Wire.exists_spelledBy_iff.mpr (hwhole.exists_height (hwhole.blind.writes hbytes))
  exact hone.capturedWhole

/-- A sequence that is as long as it says, with something in it that writes an array of its own. -/
theorem capture_first_array :
    let own : Encoding Unit := (Data.tuple [.int .u8 7]).encode {} .default
    let d : Data := .seq (some 2) [.coder own, .bool true]
    d.Sincere {} ∧ capture (d.encode {} .empty) =
        .ok (.array [.array [.ofUInt64 7], .bool true]) ∧ (d.encode {} .empty).CapturedWhole := by
  intro own d
  have hseven : (Value.ofUInt64 7).SpelledBy [0x07] := .uint (@Wire.IsHeader.posInt 7 (by decide))
  have hone : Wire.IsHeader (.array [Value.ofUInt64 7].length) [0x91] :=
    @Wire.IsHeader.fixArray 1 (by decide)
  have htwo : Wire.IsHeader (.array [Value.array [.ofUInt64 7], .bool true].length) [0x92] :=
    @Wire.IsHeader.fixArray 2 (by decide)
  have hsingle : Value.ItemsSpelledBy [.ofUInt64 7] [0x07] := .cons hseven .nil
  have hinner : (Value.array [.ofUInt64 7]).SpelledBy [0x91, 0x07] := .array hone hsingle
  have hitems : Value.ItemsSpelledBy [.array [.ofUInt64 7], .bool true] [0x91, 0x07, 0xc3] :=
    .cons hinner (.cons (.bool (.bool true)) .nil)
  have hspelled : (Value.array [.array [.ofUInt64 7], .bool true]).SpelledBy
      [0x92, 0x91, 0x07, 0xc3] := .array htwo hitems
  have hown : own.LeavesElement := by
    intro bytes hbytes
    have hbytes' : buffered own = .ok [0x91, 0x07] := by decide +kernel
    obtain rfl : [0x91, 0x07] = bytes := Except.ok.inj (hbytes'.symm.trans hbytes)
    exact ⟨_, hinner⟩
  have hannounced : Announced (some 2) 2 := by
    intro n hn
    exact (Option.some.inj hn).symm
  have hsincere : d.Sincere {} := ⟨hannounced, hown, trivial, trivial⟩
  have hbytes : buffered (d.encode {} .empty) = .ok ([0x92, 0x91, 0x07, 0xc3] ++ []) := by
    decide +kernel
  obtain ⟨hcapture, -, hwhole⟩ := capture_first {} d
  exact ⟨hsincere, (hcapture _).mpr ⟨_, [], hbytes, hspelled, by decide⟩, hwhole hsincere⟩

end Data

end MessagePack
