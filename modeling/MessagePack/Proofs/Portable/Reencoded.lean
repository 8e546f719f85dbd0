import MessagePack.Proofs.InStep.Consumed
import MessagePack.Proofs.Mirror.Shape
import MessagePack.Proofs.Portable.Shape
import MessagePack.Proofs.Typed.Framing
import MessagePack.Proofs.Writing.Shortest

namespace MessagePack

open Decoder
open Encoding (Writes)
open Value (ItemsSpelledBy EntriesSpelledBy)
open Wire (Element IsHeader Recast)

namespace Wire

/-- The second bytes may stand for the first, whatever comes behind them. -/
def Recasts (loose : Prop) (bytes bytes' : List UInt8) : Prop :=
  ∀ ⦃rest tail tail' : List UInt8⦄, Recast loose rest tail tail' →
    Recast loose rest (bytes ++ tail) (bytes' ++ tail')

namespace Recasts

variable {loose : Prop} {first second first' second' head head' : List UInt8} {e e' : Element}

theorem nothing : Recasts loose [] [] := fun _ _ _ h => h

theorem append (h : Recasts loose first first') (h' : Recasts loose second second') :
    Recasts loose (first ++ second) (first' ++ second') := by
  intro rest tail tail' htail
  rw [List.append_assoc, List.append_assoc]
  exact h (h' htail)

theorem header (h : IsHeader e head) (h' : IsHeader e' head') (he : e.Recast loose e')
    (hpayload : e.payload = 0) : Recasts loose head head' := by
  have hnone : ([] : List UInt8).length = e.payload := hpayload.symm
  exact fun _ _ _ htail => .element h h' he hnone htail

theorem raw {data : List UInt8} (h : IsHeader (.raw data.length) head)
    (h' : IsHeader (.raw data.length) head') : Recasts loose (head ++ data) (head' ++ data) := by
  intro rest tail tail' htail
  rw [List.append_assoc, List.append_assoc]
  exact .element h h' (.same _) rfl htail

end Recasts

end Wire

open Wire (Recasts)

/-- The header of an element that keeps its form may stand for any other of the same element. -/
theorem Encoding.Writes.exists_recast (config : Config) {e : Element} {header : List UInt8}
    (h : IsHeader e header) (hsame : e.announced config.intPolicy = e) (hpayload : e.payload = 0) :
    ∃ written, Writes (Encoder.element config e) written ∧ Recasts True header written := by
  obtain ⟨written, hwritten, hwrites, -⟩ := Writes.exists_shortest config h hsame
  exact ⟨written, hwrites, .header h hwritten (.same e) hpayload⟩

namespace Integer

variable (config : Config)

/-- A number that came without a sign is written again in its unsigned form. -/
theorem exists_recast_of_uint {n : UInt64} {header : List UInt8} (h : IsHeader (.uint n) header) :
    ∃ written, Writes (Encoder.integer config (ofUInt64 n)) written ∧
      Recasts True header written := by
  obtain ⟨written, hwritten, hwrites⟩ := (ofUInt64 n).exists_header config
  rw [form_ofUInt64] at hwritten
  exact ⟨written, hwrites, .header h hwritten (.same _) rfl⟩

/-- A number that came in the signed form keeps it if it is negative, and is written in the unsigned
form otherwise. -/
theorem exists_recast_of_int {n : Int64} {header : List UInt8} (h : IsHeader (.int n) header) :
    ∃ written, Writes (Encoder.integer config (ofInt64 n)) written ∧
      Recasts True header written := by
  obtain ⟨written, hwritten, hwrites⟩ := (ofInt64 n).exists_header config
  refine ⟨written, hwrites, ?_⟩
  by_cases hneg : n.toInt < 0
  · rw [form_ofInt64_of_neg hneg] at hwritten
    exact .header h hwritten (.same _) rfl
  · rw [form_ofInt64_of_nonneg (Int.not_lt.mp hneg)] at hwritten
    have hsame := Wire.toNat_toUInt64_of_nonneg (Int.not_lt.mp hneg)
    exact .header h hwritten (.unsigned trivial (by omega)) rfl

end Integer

namespace Value

variable (config : Config)

mutual

/-- What is written for a value may stand for any of its spellings. -/
theorem SpelledBy.exists_recast : {v : Value} → {bytes : List UInt8} → v.SpelledBy bytes →
    ∃ written, Writes (Encoder.value config v) written ∧ Recasts True bytes written
  | _, _, .nil h => Writes.exists_recast config h rfl rfl
  | _, _, .bool h => Writes.exists_recast config h rfl rfl
  | _, _, .uint h => Integer.exists_recast_of_uint config h
  | _, _, .int h => Integer.exists_recast_of_int config h
  | _, _, .f32 h => Writes.exists_recast config h rfl rfl
  | _, _, .f64 h => Writes.exists_recast config h rfl rfl
  | _, _, .raw h => by
    obtain ⟨written, hwritten, hwrites, -⟩ := Writes.exists_shortest config h rfl
    exact ⟨written ++ _, hwrites.payload, .raw h hwritten⟩
  | _, _, .array h contents => by
    obtain ⟨written, hwrites, hheader⟩ := Writes.exists_recast config h rfl rfl
    obtain ⟨body, hwrites', hbody⟩ := contents.exists_recast
    exact ⟨written ++ body, hwrites.bind hwrites', hheader.append hbody⟩
  | _, _, .map h contents => by
    obtain ⟨written, hwrites, hheader⟩ := Writes.exists_recast config h rfl rfl
    obtain ⟨body, hwrites', hbody⟩ := contents.exists_recast
    exact ⟨written ++ body, hwrites.bind hwrites', hheader.append hbody⟩

theorem ItemsSpelledBy.exists_recast : {items : List Value} → {bytes : List UInt8} →
    ItemsSpelledBy items bytes →
    ∃ written, Writes (Encoder.values config items) written ∧ Recasts True bytes written
  | _, _, .nil => ⟨[], .nothing, .nothing⟩
  | _, _, .cons head tail => by
    obtain ⟨first, hwrites, hfirst⟩ := head.exists_recast
    obtain ⟨body, hwrites', hbody⟩ := tail.exists_recast
    exact ⟨first ++ body, hwrites.bind hwrites', hfirst.append hbody⟩

theorem EntriesSpelledBy.exists_recast : {entries : List (Value × Value)} →
    {bytes : List UInt8} → EntriesSpelledBy entries bytes →
    ∃ written, Writes (Encoder.valuePairs config entries) written ∧ Recasts True bytes written
  | _, _, .nil => ⟨[], .nothing, .nothing⟩
  | _, _, .cons key item tail => by
    obtain ⟨first, hwrites, hfirst⟩ := key.exists_recast
    obtain ⟨second, hwrites', hsecond⟩ := item.exists_recast
    obtain ⟨body, hwrites'', hbody⟩ := tail.exists_recast
    exact ⟨first ++ (second ++ body), hwrites.bind (hwrites'.bind hwrites''),
      hfirst.append (hsecond.append hbody)⟩

end

end Value

namespace Decoder

/-- A fresh session over other bytes stands nowhere else, if the limit is the same. -/
theorem tracks_new {loose : Prop} {bytes bytes' : List UInt8} {config config' : Config}
    (hlimit : config'.maxDepth = config.maxDepth) (h : Recasts loose bytes bytes') :
    Tracks loose ⟨[], 0, config.maxDepth, config.maxDepth, Nat.le_refl _⟩
      (new (.ofBytes bytes) config) (new (.ofBytes bytes') config') where
  sound := sound_new bytes config
  sound' := sound_new bytes' config'
  nesting := ⟨rfl, hlimit, [], rfl, Nat.le_refl _⟩
  tables := nofun
  tables' := nofun
  ahead := by
    have hend : Recast loose [] [] [] := .kept []
    have hrecast := h hend
    rw [List.append_nil, List.append_nil] at hrecast
    exact hrecast

end Decoder

namespace Shape

/-- What is read of some bytes is read of the ones alone that it consumes. -/
theorem read_alone {registry : Registry} (hregistry : registry.Stepwise) (shape : Shape)
    {bytes rest : List UInt8} {config : Config} {item : Item} {d : Decoder}
    (h : shape.read registry .wire (new (.ofBytes (bytes ++ rest)) config) = .ok item d)
    (hposition : d.source.position = bytes.length) :
    ∃ d', shape.read registry .wire (new (.ofBytes bytes) config) = .ok item d' := by
  have hends : Decoding.Ends (shape.read registry .wire)
    (new (.ofBytes (bytes ++ rest)) config) (.ok item) d := h
  obtain ⟨n, hn⟩ := (shape.read_stepwise hregistry .wire).leads
    (Source.steady_ofBytes (bytes ++ rest)) hends nofun
  have hlength : n = bytes.length := by
    rw [hn.advanced] at hposition
    exact (Nat.zero_add n).symm.trans hposition
  have htwin : Twin (new (.ofBytes (bytes ++ rest)) config) (new (.ofBytes bytes) config) :=
    ⟨Source.steady_ofBytes bytes, rfl, rfl, id⟩
  obtain ⟨d', hread, -⟩ := hn.again htwin (by
    rw [hlength]
    simp [new, Source.ofBytes])
  exact ⟨d', hread⟩

/-- No type is read otherwise once its bytes have been rewritten: what a type without codecs is read
from is read as a value, and what that is written as under either policy is read whole as the type,
with the same answer. -/
theorem read_reencoded {shape : Shape} (hplain : shape.Plain) {bytes : List UInt8}
    {config : Config} {item : Item} {d : Decoder}
    (h : shape.read .empty .wire (new (.ofBytes bytes) config) = .ok item d) :
    ∃ v d', Decoder.value (new (.ofBytes bytes) config) = .ok v d' ∧
      d'.source.position = d.source.position ∧
      ∀ config' : Config, config'.maxDepth = config.maxDepth →
        ∃ c s, v.encode config' = .ok c ∧
          shape.read .empty .wire (new (.ofBytes c) config') = .ok item s ∧
          s.source.position = c.length ∧ s.peeked = none := by
  obtain ⟨-, v, spelling, hv, hroom, hall, hposition⟩ := exists_spelledBy_of_read hplain h
  obtain ⟨d', hvalue, hposition'⟩ := value_of_spelledBy d.source.rest hv hroom
  rw [hall] at h ⊢
  refine ⟨v, d', hvalue, hposition'.trans hposition.symm, fun config' hlimit => ?_⟩
  obtain ⟨c, hwrites, hrecasts⟩ := hv.exists_recast config'
  have hencode : v.encode config' = .ok c := hwrites.buffered
  obtain ⟨alone, halone⟩ := read_alone Registry.stepwise_empty shape h hposition
  obtain ⟨s, hagain, -⟩ := shape.read_portable Registry.portable_empty (fun _ => hplain) .wire
    (tracks_new hlimit hrecasts) halone
  obtain ⟨hpeeked, w, whole, hw, -, hc, hend⟩ := exists_spelledBy_of_read hplain hagain
  -- nothing of what has been written is left, as no spelling begins another
  have hspelled := Value.spelledBy_of_buffered hwrites.buffered
  obtain ⟨-, rfl, -⟩ := hspelled.append_inj hw ((List.append_nil c).trans hc)
  exact ⟨c, s, hencode, hagain, hend, hpeeked⟩

/-- A structure by name and by position, with a variant and signed numbers, all in forms too wide.
Under either policy as little is written as can be. -/
theorem read_reencoded_struct :
    let shape : Shape := .struct "P" [("a", .int .u8),
      ("b", .enumeration "E" [("V", .newtype (.seq .integer))])] false
    let bytes : List UInt8 := [0xde, 0x00, 0x02, 0xda, 0x00, 0x01, 0x61, 0xd1, 0x00, 0x05,
      0xcd, 0x00, 0x01, 0xdf, 0x00, 0x00, 0x00, 0x01, 0xdb, 0x00, 0x00, 0x00, 0x01, 0x56,
      0xdc, 0x00, 0x02, 0xd0, 0x07, 0xd1, 0xff, 0xff, 0xc0]
    let item : Item := .struct "P" [("a", .int .u8 5),
      ("b", .newtypeVariant "E" "V" (.seq [.integer (.ofInt64 7), .integer (.ofInt64 (-1))]))]
    let c : List UInt8 := [0x82, 0xa1, 0x61, 0x05, 0x01, 0x81, 0xa1, 0x56, 0x92, 0x07, 0xff]
    shape.Plain ∧ (∃ d, shape.read .empty .wire (new (.ofBytes bytes) {}) = .ok item d ∧
        d.source.position = 32) ∧
      ∃ v d', Decoder.value (new (.ofBytes bytes) {}) = .ok v d' ∧ d'.source.position = 32 ∧
        ∀ compact, v.encode { compactInts := compact } = .ok c ∧
          ∃ s, shape.read .empty .wire (new (.ofBytes c) { compactInts := compact }) =
              .ok item s ∧ s.source.position = c.length := by
  intro shape bytes item c
  have hplain : shape.Plain := by
    simp [shape, Plain, PlainFields, Content.PlainAll, Content.Plain]
  have hall : result ((shape.read .empty .wire).seen fun _ d => d.source.position)
      (new (.ofBytes bytes) {}) = .ok 32 := by decide +kernel
  have hboth : result (Decoder.value.seen fun v _ =>
      (v.encode { compactInts := false }, v.encode { compactInts := true }))
      (new (.ofBytes bytes) {}) = .ok (.ok c, .ok c) := by decide +kernel
  obtain ⟨item', d, hread, hposition⟩ := Decoding.exists_of_seen hall
  obtain ⟨v, d', hv, hcodes⟩ := Decoding.exists_of_seen hboth
  obtain ⟨hwide, hcompact⟩ := Prod.mk.inj hcodes
  have hwritten (compact : Bool) : v.encode { compactInts := compact } = .ok c := by
    cases compact with
    | false => exact hwide
    | true => exact hcompact
  obtain ⟨w, d'', hw, hend, hagain⟩ := read_reencoded hplain hread
  obtain ⟨rfl, rfl⟩ := EStateM.Result.ok.inj (hv.symm.trans hw)
  rw [hposition] at hend
  -- The value is read in memory as the structure, and so it is from the bytes.
  have hsame : v = .map [(.raw [0x61], .ofInt64 5),
      (.ofUInt64 1, .map [(.raw [0x56], .array [.ofInt64 7, .ofInt64 (-1)])])] := by
    have hknown : (Value.map [(.raw [0x61], .ofInt64 5),
        (.ofUInt64 1, .map [(.raw [0x56], .array [.ofInt64 7, .ofInt64 (-1)])])]).encode {} =
          .ok c := by decide +kernel
    exact Value.eq_of_encode_eq hwide hknown
  have hvalue : v.decode shape = .ok item := by
    subst hsame shape item
    rfl
  obtain ⟨-, hspelled, -⟩ := spelledBy_of_value_new hv
  rw [hend] at hspelled
  obtain ⟨rfl, -⟩ := Value.eq_decode_of_spelledBy hplain hspelled hvalue hread
  refine ⟨hplain, ⟨d, hread, hposition⟩, v, d', hv, hend, fun compact => ⟨hwritten compact, ?_⟩⟩
  obtain ⟨c', s, hencode, hs, hend, -⟩ := hagain { compactInts := compact } rfl
  obtain rfl := Except.ok.inj ((hwritten compact).symm.trans hencode)
  exact ⟨s, hs, hend⟩

end Shape

end MessagePack
