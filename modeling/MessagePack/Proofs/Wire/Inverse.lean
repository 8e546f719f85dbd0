import MessagePack.Encoder.Basic
import MessagePack.Proofs.Readers.Session
import MessagePack.Proofs.Wire.Header
import MessagePack.Proofs.Wire.Shortest

namespace MessagePack

open Decoding
open Wire (Element IntPolicy IsHeader Marker uintHeader intHeader)

namespace Decoder

/-- Reads the field after a tag. Nothing is noted of the containers that are open. -/
def bareElementAfter (tag : UInt8) : Decoding Element := do
  match Element.ofField (← field (.ofByte tag)) (.ofByte tag) with
  | none => throw (.malformed (.unknownTag tag))
  | some e => pure e

/-- Reads a tag and the field after it. -/
def bareElement : Decoding Element := do
  bareElementAfter ((← exactly .tag 1).headD 0)

variable {d d' : Decoder} {e : Element}

theorem elementAfter_eq (tag : UInt8) :
    elementAfter tag = bareElementAfter tag >>= fun e => enter e >>= fun _ => pure e := by
  rw [elementAfter, bareElementAfter, bind_assoc]
  congr 1
  funext n
  cases Element.ofField n (.ofByte tag) <;> rfl

/-- Where no tag has been looked at, the next element is a bare one that is entered. -/
theorem nextElement_of_peeked_none (hp : d.peeked = none) :
    nextElement d = (bareElement >>= fun e => enter e >>= fun _ => pure e) d := by
  have hpeek : peekTag d = (exactly .tag 1 >>= fun bytes =>
      see (some (bytes.headD 0)) >>= fun _ => pure (bytes.headD 0)) d := by
    rw [peekTag, get_bind, hp]
    rfl
  rw [nextElement_eq, bareElement, bind_assoc]
  cases hread : exactly .tag 1 d with
  | error err mid =>
    rw [bind_of_error hread]
    exact bind_of_error (hpeek.trans (bind_of_error hread))
  | ok bytes mid =>
    have hmid : mid = { mid with peeked := none } := by
      unfold exactly at hread
      split at hread <;> cases hread
      simp [hp]
    rw [bind_of_ok hread, bind_of_ok (hpeek.trans (bind_of_ok hread)), hmid, ← elementAfter_eq]
    rfl

/-- A bare element is read exactly when its header comes next. -/
theorem bareElement_eq_ok_iff (hs : d.source.Steady) (hp : d.peeked = none) :
    bareElement d = .ok e d' ↔ ∃ header rest, IsHeader e header ∧
      d.source.rest = header ++ rest ∧
      d' = { d with source := d.source.advance header.length } := by
  have hahead : d.ahead = d.source.rest := by simp [ahead, hp]
  rw [← hahead, bareElement, bind_eq_ok_iff]
  constructor
  · intro hparts
    obtain ⟨bytes, mid, htag, hrest⟩ := hparts
    obtain ⟨tail, htail, hlen, rfl⟩ := (exactly_eq_ok_iff hs hp).mp htag
    obtain ⟨tag, rfl⟩ := List.length_eq_one_iff.mp hlen
    obtain ⟨n, after, hfield, hmatch⟩ := bind_eq_ok_iff.mp hrest
    obtain ⟨bytes, rest, hbytes, hlen, rfl, rfl⟩ :=
      (field_eq_ok_iff (d := d.past 1) hs rfl).mp hfield
    have hpast : (d.past 1).ahead = tail := ahead_past (b := [tag]) htail
    cases helement : Element.ofField (Wire.ofBigEndian bytes) (.ofByte tag) with
    | none =>
      simp only [List.headD_cons, helement] at hmatch
      exact absurd hmatch throw_ne_ok
    | some element =>
      simp only [List.headD_cons, helement] at hmatch
      obtain ⟨rfl, rfl⟩ := pure_eq_ok_iff.mp hmatch
      refine ⟨tag :: bytes, rest, Wire.isHeader_cons_iff.mpr ⟨hlen, helement⟩, ?_, ?_⟩
      · rw [htail, ← hpast, hbytes]
        rfl
      · rw [← past_of_peeked_none hp, List.length_cons, hlen, List.headD_cons, past_past,
          Nat.add_comm]
  · intro hparts
    obtain ⟨header, rest, hheader, hall, rfl⟩ := hparts
    obtain ⟨tag, bytes, rfl⟩ := hheader.exists_cons
    obtain ⟨hlen, helement⟩ := Wire.isHeader_cons_iff.mp hheader
    have hpast : (d.past 1).ahead = bytes ++ rest := ahead_past (b := [tag]) hall
    have htag : exactly .tag 1 d = .ok [tag] (d.past 1) :=
      (exactly_eq_ok_iff hs hp).mpr ⟨bytes ++ rest, hall, rfl, rfl⟩
    have hfield := (field_eq_ok_iff (d := d.past 1) hs rfl).mpr ⟨bytes, rest, hpast, hlen, rfl, rfl⟩
    refine ⟨[tag], _, htag, bind_eq_ok_iff.mpr ⟨_, _, hfield, ?_⟩⟩
    rw [← past_of_peeked_none hp, List.headD_cons, helement, past_past, ← hlen, List.length_cons,
      Nat.add_comm]
    rfl

end Decoder

namespace Wire

/-- Of an integer, the other element is the same number in one of the forms that a header under the
policy could have taken; of anything else it is the same. A signed integer keeps to the signed forms
and to the tags that hold a number unless the policy is compact. -/
inductive Element.Rival (policy : IntPolicy) : Element → Marker → Element → Prop
  | same (e : Element) (marker : Marker) : Rival policy e marker e
  | signed {n : UInt64} {v : Int64} (marker : Marker) (same : v.toInt = n.toNat) :
      Rival policy (.uint n) marker (.int v)
  | unsigned {v : Int64} {n : UInt64} {marker : Marker} (same : v.toInt = n.toNat)
      (form : policy = .compact ∨ ∃ value, marker = .posInt value) :
      Rival policy (.int v) marker (.uint n)

theorem toUInt64_of_toInt_eq {v : Int64} {n : UInt64} (h : v.toInt = n.toNat) :
    v.toUInt64 = n := by
  apply UInt64.toNat_inj.mp
  rw [toNat_toUInt64_of_nonneg (by omega), h, Int.toNat_natCast]

/-- No signed form of a number is shorter than the header of an unsigned one. -/
theorem length_uintHeader_le_signed {n : UInt64} {v : Int64} (same : v.toInt = n.toNat)
    {other : List UInt8} (h : IsHeader (.int v) other) :
    (uintHeader n).length ≤ other.length := by
  have hcompact : (Element.int v).header? .compact = some (uintHeader n) := by
    rw [Element.header?, intHeader, if_pos ⟨rfl, by omega⟩, toUInt64_of_toInt_eq same]
  exact h.length_le hcompact

/-- A tag that holds a number holds one below 128. -/
theorem lt_of_posInt {n : UInt64} {tag : UInt8} {field : List UInt8} {value : UInt8}
    (h : IsHeader (.uint n) (tag :: field)) (hmarker : Marker.ofByte tag = .posInt value) :
    n.toNat < 128 := by
  cases h with
  | @posInt n h =>
    rw [UInt64.toNat_ofNat']
    omega
  | uint form h =>
    simp only [List.mem_cons, Prod.mk.injEq, List.not_mem_nil, or_false] at form
    rcases form with ⟨rfl, rfl⟩ | ⟨rfl, rfl⟩ | ⟨rfl, rfl⟩ | ⟨rfl, rfl⟩ <;> cases hmarker

theorem length_intHeader_of_small (policy : IntPolicy) {v : Int64} (ge : 0 ≤ v.toInt)
    (lt : v.toInt < 128) : (intHeader policy v).length = 1 := by
  by_cases hcompact : policy = .compact
  · rw [intHeader, if_pos ⟨hcompact, ge⟩]
    apply length_uintHeader_of_lt
    rw [toNat_toUInt64_of_nonneg ge]
    omega
  · simp only [intHeader, hcompact, false_and, if_false]
    split_ifs <;> first | rfl | omega

/-- A header is no longer than any that announces the same in a form it could have taken. -/
theorem Element.Rival.length_le {policy : IntPolicy} {e other : Element} {tag : UInt8}
    {header field : List UInt8} (h : e.Rival policy (.ofByte tag) other)
    (hother : IsHeader other (tag :: field)) (hwritten : e.header? policy = some header) :
    header.length ≤ (tag :: field).length := by
  cases h with
  | same => exact hother.length_le hwritten
  | signed _ same =>
    cases hwritten
    exact length_uintHeader_le_signed same hother
  | @unsigned v n _ same form =>
    cases hwritten
    rcases form with rfl | ⟨value, hmarker⟩
    · rw [intHeader, if_pos ⟨rfl, by omega⟩, toUInt64_of_toInt_eq same]
      have hheader : (Element.uint n).header? .compact = some (uintHeader n) := rfl
      exact hother.length_le hheader
    · have hsmall := lt_of_posInt hother hmarker
      rw [length_intHeader_of_small policy (by omega) (by omega)]
      exact Nat.le_add_left 1 field.length

/-- Writing non-negative integers in the unsigned forms never makes a header longer. -/
theorem length_compact_le {e : Element} {policy : IntPolicy} {compact header : List UInt8}
    (hcompact : e.header? .compact = some compact) (h : e.header? policy = some header) :
    compact.length ≤ header.length := by
  cases e with
  | int v =>
    have hheader := isHeader_header? h
    rcases announced_int policy v with hsame | ⟨u, hsame, hnum⟩ <;> rw [hsame] at hheader
    · exact hheader.length_le hcompact
    · cases hcompact
      rw [intHeader, if_pos ⟨rfl, by omega⟩, toUInt64_of_toInt_eq hnum.symm]
      have hwritten : (Element.uint u).header? .compact = some (uintHeader u) := rfl
      exact hheader.length_le hwritten
  | _ => exact Nat.le_of_eq (congrArg List.length (Option.some.inj (hcompact.symm.trans h)))

end Wire

open Decoder

/-- A header is there for every element whose length fits 32 bits, and reading inverts it: whatever
comes next, just its bytes are read, and the element is the same, save that a non-negative signed
integer below 128 or under the compact policy comes back unsigned. No bytes that are read as the
same in a form open to the header are fewer, and the compact header is never the longer one. -/
theorem Wire.Element.header_inverse (policy : IntPolicy) (e : Element) :
    (maxLength < e.length → e.header? policy = none ∧
      ∀ (config : Config) (sink : Sink), config.intPolicy = policy →
        Encoder.element config e sink = .error (.lengthTooLong maxLength e.length) sink) ∧
    (e.length ≤ maxLength → ∃ header back, e.header? policy = some header ∧
      (∀ (d : Decoder) (rest : List UInt8), d.source.Steady → d.peeked = none →
        d.source.rest = header ++ rest →
        bareElement d = .ok back { d with source := d.source.advance header.length }) ∧
      (∀ v, e = .int v → 0 ≤ v.toInt → v.toInt ≤ 127 ∨ policy = .compact →
        back = .uint v.toUInt64) ∧
      ((∀ v, e = .int v → 0 ≤ v.toInt → 127 < v.toInt ∧ policy ≠ .compact) → back = e) ∧
      (∀ (tag : UInt8) (bytes : List UInt8) (config : Config) (other : Element) (d : Decoder),
        bareElement (new (.ofBytes (tag :: bytes)) config) = .ok other d →
        e.Rival policy (.ofByte tag) other → header.length ≤ d.source.position) ∧
      ∃ compact, e.header? .compact = some compact ∧ compact.length ≤ header.length) := by
  constructor
  · intro hlong
    have hnone : e.header? policy = none := header?_of_long policy hlong
    refine ⟨hnone, fun config sink hconfig => ?_⟩
    rw [Encoder.element, hconfig, hnone]
    rfl
  · intro hlength
    obtain ⟨header, hwritten⟩ := exists_header policy hlength
    obtain ⟨compact, hcompact⟩ := exists_header .compact hlength
    refine ⟨header, e.announced policy, hwritten, ?_, ?_, ?_, ?_, compact, hcompact,
      length_compact_le hcompact hwritten⟩
    · intro d rest hs hp hrest
      exact (bareElement_eq_ok_iff hs hp).mpr
        ⟨header, rest, isHeader_header? hwritten, hrest, rfl⟩
    · intro v he hge hsmall
      subst he
      exact if_pos ⟨hge, hsmall.symm.imp_right Int.lt_add_one_of_le⟩
    · intro hsame
      cases e with
      | int v =>
        refine if_neg fun h => ?_
        have hwide := hsame v rfl h.1
        exact h.2.elim hwide.2 (by omega)
      | _ => rfl
    · intro tag bytes config other d hread hrival
      have hs : (new (.ofBytes (tag :: bytes)) config).source.Steady :=
        Source.steady_ofBytes _
      obtain ⟨taken, rest, hother, hall, rfl⟩ := (bareElement_eq_ok_iff hs rfl).mp hread
      obtain ⟨first, field, rfl⟩ := hother.exists_cons
      obtain ⟨rfl, -⟩ := List.cons.inj hall
      exact Nat.le_trans (hrival.length_le hother hwritten) (Nat.le_add_left _ _)

/-- The number 200 is read back signed or unsigned as the policy has it, and the wider unsigned form
rivals the compact header only; a raw of 2 ^ 32 bytes has no header. -/
theorem Wire.Element.header_inverse_int :
    let e : Element := .int 200
    e.length ≤ maxLength ∧ maxLength < (Element.raw 4294967296).length ∧
      (Element.raw 4294967296).header? .compatible = none ∧
      Element.Rival .compact e (.ofByte 0xcd) (.uint 200) ∧
      ∃ (header back : _) (d : Decoder), e.header? .compact = some header ∧
        bareElement (new (.ofBytes (header ++ [0xff])) {}) = .ok back
          { new (.ofBytes (header ++ [0xff])) {} with
            source := (Source.ofBytes (header ++ [0xff])).advance header.length } ∧
        back = .uint 200 ∧
        bareElement (new (.ofBytes [0xcd, 0x00, 0xc8]) {}) = .ok (.uint 200) d ∧
        header.length ≤ d.source.position := by
  intro e
  have hrival : Element.Rival .compact e (.ofByte 0xcd) (.uint 200) :=
    .unsigned (by decide) (.inl rfl)
  have hread : bareElement (new (.ofBytes [0xcd, 0x00, 0xc8]) {}) = .ok (.uint 200)
      { new (.ofBytes []) {} with source := { rest := [], position := 3 } } := by rfl
  obtain ⟨header, back, hheader, hback, hunsigned, -, hleast, -⟩ :=
    (Wire.Element.header_inverse .compact e).2 (by decide)
  have hlong : Wire.maxLength < (Element.raw 4294967296).length := by decide
  exact ⟨by decide, hlong,
    ((Wire.Element.header_inverse .compatible (.raw 4294967296)).1 hlong).1, hrival, header, back,
    _, hheader, hback _ [0xff] (Source.steady_ofBytes _) rfl rfl,
    hunsigned 200 rfl (by decide) (.inr rfl), hread, hleast _ _ _ _ _ hread hrival⟩

end MessagePack
