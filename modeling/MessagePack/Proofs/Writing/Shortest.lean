import MessagePack.Proofs.Value.Reading
import MessagePack.Proofs.Wire.Shortest
import MessagePack.Proofs.Writing.Value
import MessagePack.Stream

namespace MessagePack

open Encoding (Writes)
open Wire (Element IsHeader)

/-- An element that has a header at all is written with one that is no longer. -/
theorem Encoding.Writes.exists_shortest (config : Config) {e : Element} {header : List UInt8}
    (h : IsHeader e header) (hsame : e.announced config.intPolicy = e) :
    ∃ short, IsHeader e short ∧ Writes (Encoder.element config e) short ∧
      short.length ≤ header.length := by
  obtain ⟨short, hshort⟩ := Wire.exists_header config.intPolicy h.length_le_maxLength
  refine ⟨short, hsame ▸ Wire.isHeader_header? hshort, ?_, h.length_le hshort⟩
  simp only [Encoder.element, hshort]
  exact write short

namespace Integer

variable (config : Config)

/-- A number that came without a sign is written in no more bytes than it came in. -/
theorem exists_shortest_of_uint {n : UInt64} {header : List UInt8} (h : IsHeader (.uint n) header) :
    ∃ short, Writes (Encoder.integer config (ofUInt64 n)) short ∧
      short.length ≤ header.length := by
  obtain ⟨short, -, hwrites, hle⟩ := Writes.exists_shortest config h rfl
  rw [integer_eq_element, form_ofUInt64]
  exact ⟨short, hwrites, hle⟩

/-- A number that came with a sign is written in no more bytes than it came in. The sign is only
kept where the number is negative. -/
theorem exists_shortest_of_int {n : Int64} {header : List UInt8} (h : IsHeader (.int n) header) :
    ∃ short, Writes (Encoder.integer config (ofInt64 n)) short ∧
      short.length ≤ header.length := by
  rw [integer_eq_element]
  by_cases hneg : n.toInt < 0
  · have hsame := (ofInt64 n).announced_element config.intPolicy
    rw [form_ofInt64_of_neg hneg] at hsame ⊢
    obtain ⟨short, -, hwrites, hle⟩ := Writes.exists_shortest config h hsame
    exact ⟨short, hwrites, hle⟩
  · have hheader : (Element.int n).header? .compact = some (Wire.uintHeader n.toUInt64) := by
      simp [Element.header?, Wire.intHeader, Int.not_lt.mp hneg]
    rw [form_ofInt64_of_nonneg (Int.not_lt.mp hneg)]
    exact ⟨_, Writes.write _, h.length_le hheader⟩

/-- Compact integers are written alike from signed numbers and from integers of no kind. -/
theorem int_eq_integer {config : Config} (hcompact : config.compactInts = true) (n : Int64) :
    Encoder.int config n = Encoder.integer config (ofInt64 n) := by
  rw [integer_eq_element]
  by_cases hneg : n.toInt < 0
  · rw [form_ofInt64_of_neg hneg]
    rfl
  · have hheader : (Element.int n).header? config.intPolicy =
        (Element.uint n.toUInt64).header? config.intPolicy := by
      simp [Element.header?, Wire.intHeader, Config.intPolicy, hcompact, Int.not_lt.mp hneg]
    rw [form_ofInt64_of_nonneg (Int.not_lt.mp hneg)]
    simp only [Encoder.int, Encoder.element, hheader]
    rfl

end Integer

namespace Value

variable (config : Config)

mutual

/-- What is written for a value is as short as any of its spellings. -/
theorem SpelledBy.exists_shortest : {v : Value} → {bytes : List UInt8} → v.SpelledBy bytes →
    ∃ short, v.SpelledBy short ∧ Writes (Encoder.value config v) short ∧
      short.length ≤ bytes.length
  | _, _, .nil h => by
    obtain ⟨short, hshort, hwrites, hle⟩ := Writes.exists_shortest config h rfl
    exact ⟨short, .nil hshort, hwrites, hle⟩
  | _, _, .bool h => by
    obtain ⟨short, hshort, hwrites, hle⟩ := Writes.exists_shortest config h rfl
    exact ⟨short, .bool hshort, hwrites, hle⟩
  | _, _, .uint (n := n) h => by
    obtain ⟨short, hshort, hwrites⟩ := exists_spelling config (.ofUInt64 n) trivial
    obtain ⟨_, hwrites', hle⟩ := Integer.exists_shortest_of_uint config h
    exact ⟨short, hshort, hwrites, hwrites.unique hwrites' ▸ hle⟩
  | _, _, .int (n := n) h => by
    obtain ⟨short, hshort, hwrites⟩ := exists_spelling config (.ofInt64 n) trivial
    obtain ⟨_, hwrites', hle⟩ := Integer.exists_shortest_of_int config h
    exact ⟨short, hshort, hwrites, hwrites.unique hwrites' ▸ hle⟩
  | _, _, .f32 h => by
    obtain ⟨short, hshort, hwrites, hle⟩ := Writes.exists_shortest config h rfl
    exact ⟨short, .f32 hshort, hwrites, hle⟩
  | _, _, .f64 h => by
    obtain ⟨short, hshort, hwrites, hle⟩ := Writes.exists_shortest config h rfl
    exact ⟨short, .f64 hshort, hwrites, hle⟩
  | _, _, .raw h => by
    obtain ⟨short, hshort, hwrites, hle⟩ := Writes.exists_shortest config h rfl
    refine ⟨short ++ _, .raw hshort, hwrites.payload, ?_⟩
    simpa using hle
  | _, _, .array h contents => by
    obtain ⟨short, hshort, hwrites, hle⟩ := Writes.exists_shortest config h rfl
    obtain ⟨body, hitems, hwrites', hle'⟩ := contents.exists_shortest
    refine ⟨short ++ body, .array hshort hitems, hwrites.bind hwrites', ?_⟩
    simpa using Nat.add_le_add hle hle'
  | _, _, .map h contents => by
    obtain ⟨short, hshort, hwrites, hle⟩ := Writes.exists_shortest config h rfl
    obtain ⟨body, hentries, hwrites', hle'⟩ := contents.exists_shortest
    refine ⟨short ++ body, .map hshort hentries, hwrites.bind hwrites', ?_⟩
    simpa using Nat.add_le_add hle hle'

theorem ItemsSpelledBy.exists_shortest : {items : List Value} → {bytes : List UInt8} →
    ItemsSpelledBy items bytes → ∃ short, ItemsSpelledBy items short ∧
      Writes (Encoder.values config items) short ∧ short.length ≤ bytes.length
  | _, _, .nil => ⟨[], .nil, .nothing, Nat.le_refl _⟩
  | _, _, .cons head tail => by
    obtain ⟨first, hv, hwrites, hle⟩ := head.exists_shortest
    obtain ⟨body, hrest, hwrites', hle'⟩ := tail.exists_shortest
    refine ⟨first ++ body, .cons hv hrest, hwrites.bind hwrites', ?_⟩
    simpa using Nat.add_le_add hle hle'

theorem EntriesSpelledBy.exists_shortest : {entries : List (Value × Value)} →
    {bytes : List UInt8} → EntriesSpelledBy entries bytes →
    ∃ short, EntriesSpelledBy entries short ∧ Writes (Encoder.valuePairs config entries) short ∧
      short.length ≤ bytes.length
  | _, _, .nil => ⟨[], .nil, .nothing, Nat.le_refl _⟩
  | _, _, .cons key item tail => by
    obtain ⟨first, hk, hwrites, hle⟩ := key.exists_shortest
    obtain ⟨second, hv, hwrites', hle'⟩ := item.exists_shortest
    obtain ⟨body, hrest, hwrites'', hle''⟩ := tail.exists_shortest
    refine ⟨first ++ (second ++ body), .cons hk hv hrest,
      hwrites.bind (hwrites'.bind hwrites''), ?_⟩
    simpa using Nat.add_le_add hle (Nat.add_le_add hle' hle'')

end

end Value

open Decoder (new value_of_spelledBy)

/-- What has been consumed for a value spells it. -/
theorem Decoder.exists_spelling_of_value {bytes : List UInt8} {config : Config} {v : Value}
    {d : Decoder} (h : Decoder.value (new (.ofBytes bytes) config) = .ok v d) :
    ∃ first, v.SpelledBy first ∧ first.length = d.source.position ∧ first.length ≤ bytes.length ∧
      v.height ≤ config.maxDepth := by
  obtain ⟨hle, hspelled, hroom⟩ := Decoder.spelledBy_of_value_new h
  have hlen : (bytes.take d.source.position).length = d.source.position := by
    rw [List.length_take, Nat.min_eq_left hle]
  exact ⟨_, hspelled, hlen, List.length_take_le' _ _, hroom⟩

namespace Value

/-- The bytes that the first value of some bytes is written as. -/
def transcode (limits config : Config) (bytes : List UInt8) : Except Error (List UInt8) := do
  (← Decoder.result Decoder.value (new (.ofBytes bytes) limits)).encode config

theorem transcode_eq {limits config : Config} {bytes : List UInt8} {v : Value} {d : Decoder}
    (h : Decoder.value (new (.ofBytes bytes) limits) = .ok v d) :
    transcode limits config bytes = v.encode config := by
  have hresult : Decoder.result Decoder.value (new (.ofBytes bytes) limits) = .ok v :=
    Decoding.result_eq_ok_iff.mpr ⟨d, h⟩
  rw [transcode, hresult]
  rfl

/-- Values that are written alike, under whatever policies, are the same. -/
theorem eq_of_encode_eq {config config' : Config} {v w : Value} {bytes : List UInt8}
    (h : v.encode config = .ok bytes) (h' : w.encode config' = .ok bytes) : v = w := by
  have hspelled : v.SpelledBy bytes := spelledBy_of_buffered h
  have hspelled' : w.SpelledBy bytes := spelledBy_of_buffered h'
  exact (hspelled.append_inj hspelled' (Eq.refl (bytes ++ []))).1

/-- A value that has been read is written under either policy, in no more bytes than it was read
from or could be read from at all. Within the same limit these are read as that value, to the last
byte, and so they are written as themselves. -/
theorem transcode_shortest (limits config : Config) {bytes : List UInt8} {v : Value} {d : Decoder}
    (h : Decoder.value (new (.ofBytes bytes) limits) = .ok v d) :
    ∃ c, v.encode config = .ok c ∧ c.length ≤ d.source.position ∧
      (∃ d', Decoder.value (new (.ofBytes c) limits) = .ok v d' ∧ d'.source.position = c.length) ∧
      transcode limits config bytes = .ok c ∧ transcode limits config c = .ok c ∧
      ∀ other limits' d', Decoder.value (new (.ofBytes other) limits') = .ok v d' →
        c.length ≤ other.length := by
  obtain ⟨first, hspelled, hlen, -, hroom⟩ := Decoder.exists_spelling_of_value h
  obtain ⟨c, hc, hwrites, hle⟩ := hspelled.exists_shortest config
  have hencode : v.encode config = .ok c := hwrites.buffered
  obtain ⟨d', hread, hposition⟩ := value_of_spelledBy [] hc hroom
  rw [List.append_nil] at hread
  refine ⟨c, hencode, hlen ▸ hle, ⟨d', hread, hposition⟩, (transcode_eq h).trans hencode,
    (transcode_eq hread).trans hencode, fun other limits' d' hother => ?_⟩
  obtain ⟨first', hspelled', -, hle', -⟩ := Decoder.exists_spelling_of_value hother
  obtain ⟨c', -, hwrites', hshorter⟩ := hspelled'.exists_shortest config
  rw [hwrites.unique hwrites']
  exact Nat.le_trans hshorter hle'

/-- An array with a number and a text, each in a form far too wide. -/
theorem transcode_shortest_wide :
    let bytes : List UInt8 := [0xdd, 0x00, 0x00, 0x00, 0x02, 0xd2, 0x00, 0x00, 0x00, 0x05,
      0xda, 0x00, 0x01, 0x61, 0xff]
    let v : Value := .array [.ofUInt64 5, .text "a"]
    ∃ d, Decoder.value (new (.ofBytes bytes) {}) = .ok v d ∧ d.source.position = 14 ∧
      ∃ c, v.encode {} = .ok c ∧ c.length ≤ d.source.position ∧
        transcode {} {} bytes = .ok c ∧ transcode {} {} c = .ok c := by
  intro bytes v
  have hv : v.encode {} = .ok [0x92, 0x05, 0xa1, 0x61] := by decide +kernel
  have hall : Decoder.result (Decoder.value.seen fun w d => (w.encode {}, d.source.position))
      (new (.ofBytes bytes) {}) = .ok (.ok [0x92, 0x05, 0xa1, 0x61], 14) := by decide +kernel
  obtain ⟨w, d, hread, hlook⟩ := Decoding.exists_of_seen hall
  obtain ⟨hw, hposition⟩ := Prod.mk.inj hlook
  obtain rfl : w = v := eq_of_encode_eq hw hv
  obtain ⟨c, hencode, hle, -, hfirst, hagain, -⟩ := transcode_shortest {} {} hread
  exact ⟨d, hread, hposition, c, hencode, hle, hfirst, hagain⟩

end Value

end MessagePack
