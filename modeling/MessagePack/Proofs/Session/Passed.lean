import MessagePack.Proofs.Session.Steps
import MessagePack.Proofs.Wire.Streams

namespace MessagePack.Decoder

open Wire (Element IsHeader Streams)
open Decoding

/-- The session went from `d` to `d'` over exactly these elements, carried by these bytes, and its
nesting has taken note of each. A tag may have been looked at besides. -/
structure Passed (d : Decoder) (elements : List Element) (bytes : List UInt8) (d' : Decoder) :
    Prop where
  streams : Streams elements bytes
  ahead : d.ahead = bytes ++ d'.ahead
  nesting : d.nesting.enterAll elements = .ok d'.nesting
  steady : d'.source.Steady
  total : d'.source.position + d'.source.rest.length =
    d.source.position + d.source.rest.length

namespace Passed

variable {d mid d' : Decoder} {elements elements' : List Element} {bytes bytes' : List UInt8}

theorem refl (hs : d.Sound) : Passed d [] [] d :=
  ⟨.nil, rfl, rfl, hs.steady, rfl⟩

theorem trans (h : Passed d elements bytes mid) (h' : Passed mid elements' bytes' d') :
    Passed d (elements ++ elements') (bytes ++ bytes') d' where
  streams := h.streams.append h'.streams
  ahead := by rw [h.ahead, h'.ahead, List.append_assoc]
  nesting := by rw [Nesting.enterAll_append, h.nesting]; exact h'.nesting
  steady := h'.steady
  total := h'.total.trans h.total

theorem sound (h : Passed d elements bytes d') (hs : d.Sound) : d'.Sound :=
  ⟨h.steady, (hs.nesting.enterAll h.nesting).1⟩

theorem tables (h : Passed d elements bytes d') (tables : Option FieldCache) :
    Passed d elements bytes { d' with tables } :=
  ⟨h.streams, h.ahead, h.nesting, h.steady, h.total⟩

/-- A session that starts over some bytes and ends without a tag looked at has read as many bytes
as carried the elements. -/
theorem position_eq {config : Config} {all : List UInt8}
    (h : Passed (new (.ofBytes all) config) elements bytes d') (hp : d'.peeked = none) :
    d'.source.position = bytes.length ∧ all = bytes ++ d'.source.rest := by
  have hahead := h.ahead
  have htotal := h.total
  simp only [Decoder.ahead, hp, new, Source.ofBytes, Option.toList_none, List.nil_append,
    Nat.zero_add] at hahead htotal
  rw [hahead, List.length_append] at htotal
  exact ⟨by omega, hahead⟩

end Passed

variable {d mid d' : Decoder} {e : Element} {bytes rest : List UInt8}

theorem source_past_total (h : d.ahead = bytes ++ rest) :
    (d.past bytes.length).source.position + (d.past bytes.length).source.rest.length =
      d.source.position + d.source.rest.length := by
  have hlen := congrArg List.length h
  simp only [ahead, List.length_append] at hlen
  by_cases hb : bytes.length = 0
  · simp [hb]
  · rw [past_of_pos (Nat.pos_of_ne_zero hb)]
    simp only [Source.advance, List.length_drop]
    omega

/-- A look at the next tag passes nothing. -/
theorem passed_looked {tag : UInt8} (hs : d.Sound) (h : d.ahead = tag :: rest) :
    Passed d [] [] (d.looked tag) where
  streams := .nil
  ahead := by rw [ahead_looked h, h, List.nil_append]
  nesting := rfl
  steady := hs.steady
  total := by
    have hlen := congrArg List.length h
    simp only [ahead, List.length_append, List.length_cons] at hlen
    simp only [looked, Source.advance, List.length_drop]
    cases hp : d.peeked <;> simp only [hp, Option.toList_none, Option.toList_some,
      List.length_nil, List.length_singleton] at hlen ⊢ <;> omega

theorem passed_peekTag {tag : UInt8} (hs : d.Sound) (h : peekTag d = .ok tag d') :
    Passed d [] [] d' := by
  obtain ⟨⟨rest, hahead⟩, rfl⟩ := (peekTag_eq_ok_iff hs.steady).mp h
  exact passed_looked hs hahead

/-- The session after exactly the bytes that carry the elements. -/
theorem passed_past {elements : List Element} {nesting : Nesting} (hs : d.Sound)
    (streams : Streams elements bytes) (hahead : d.ahead = bytes ++ rest)
    (hnesting : d.nesting.enterAll elements = .ok nesting) :
    Passed d elements bytes { d.past bytes.length with nesting } where
  streams := streams
  ahead := by
    rw [hahead]
    exact congrArg (bytes ++ ·) (ahead_past hahead).symm
  nesting := hnesting
  steady := past_steady hs.steady bytes.length
  total := source_past_total hahead

/-- An element that no payload follows is passed with its header. -/
theorem passed_nextElement (hs : d.Sound) (h : nextElement d = .ok e d') (he : e.payload = 0) :
    ∃ header, IsHeader e header ∧ Passed d [e] header d' ∧ d'.peeked = none := by
  obtain ⟨header, rest, nesting, hheader, hahead, henter, rfl⟩ :=
    (nextElement_eq_ok_iff hs.steady).mp h
  have hnesting : d.nesting.enterAll [e] = .ok nesting := by
    rw [Nesting.enterAll_cons, henter]
    rfl
  exact ⟨header, hheader, passed_past hs (.header hheader he) hahead hnesting,
    past_peeked hheader.length_pos d⟩

/-- A raw is passed with its header and its payload. -/
theorem passed_payload {len : Nat} {data : List UInt8} (hs : d.Sound)
    (h : nextElement d = .ok (.raw len) mid) (hdata : payload len mid = .ok data d') :
    ∃ header, IsHeader (.raw data.length) header ∧
      Passed d [.raw data.length] (header ++ data) d' ∧ d'.peeked = none := by
  obtain ⟨header, rest, nesting, hheader, hahead, henter, rfl⟩ :=
    (nextElement_eq_ok_iff hs.steady).mp h
  have hpos := hheader.length_pos
  obtain ⟨tail, htail, rfl, rfl⟩ := (payload_eq_ok_iff
    (d := { d.past header.length with nesting }) (past_steady hs.steady header.length)
    (past_peeked hpos d)).mp hdata
  have hrest : d.ahead = (header ++ data) ++ tail := by
    have hafter : (d.past header.length).ahead = data ++ tail := htail
    rw [ahead_past hahead] at hafter
    rw [hahead, hafter, List.append_assoc]
  have hnesting : d.nesting.enterAll [.raw data.length] = .ok nesting := by
    rw [Nesting.enterAll_cons, henter]
    rfl
  have hpast : past data.length { d.past header.length with nesting } =
      { d.past (header ++ data).length with nesting } := by
    rw [List.length_append, ← past_past]
    exact past_enter data.length (d.past header.length) nesting
  rw [hpast]
  refine ⟨header, hheader, passed_past hs (.raw hheader) hrest hnesting, ?_⟩
  exact past_peeked (by rw [List.length_append]; omega) d

end MessagePack.Decoder
