import MessagePack.Proofs.Session.Takes

namespace MessagePack

open Decoding
open Wire (Carries Element IsHeader)

namespace Wire

/-- A tag has too few bytes behind it for its field, or makes a header with it, or is reserved. -/
theorem header_cases (tag : UInt8) (tail : List UInt8) :
    tail.length < (Marker.ofByte tag).fieldWidth ∨
    (∃ e field rest, tail = field ++ rest ∧ IsHeader e (tag :: field)) ∨
    ∃ field rest, tail = field ++ rest ∧ field.length = (Marker.ofByte tag).fieldWidth ∧
      Element.ofField (ofBigEndian field) (.ofByte tag) = none := by
  by_cases hlength : tail.length < (Marker.ofByte tag).fieldWidth
  · exact .inl hlength
  obtain ⟨field, rest, htail, hwidth⟩ : ∃ field rest, tail = field ++ rest ∧
      field.length = (Marker.ofByte tag).fieldWidth :=
    ⟨_, _, (List.take_append_drop _ _).symm, List.length_take_of_le (Nat.le_of_not_lt hlength)⟩
  cases he : Element.ofField (ofBigEndian field) (.ofByte tag) with
  | some e => exact .inr (.inl ⟨e, field, rest, htail, isHeader_cons_iff.mpr ⟨hwidth, he⟩⟩)
  | none => exact .inr (.inr ⟨field, rest, htail, hwidth, he⟩)

/-- A tag whose field is cut short belongs to an element that more bytes complete. -/
theorem exists_of_tag {tag : UInt8} {field : List UInt8}
    (h : field.length < (Marker.ofByte tag).fieldWidth) :
    ∃ rest, rest ≠ [] ∧ Carries 1 1 (tag :: field ++ rest) := by
  let missing := List.replicate ((Marker.ofByte tag).fieldWidth - field.length) (0 : UInt8)
  have hmissing : missing ≠ [] := by
    simp only [missing, ne_eq, List.replicate_eq_nil_iff]
    omega
  have hlength : (field ++ missing).length = (Marker.ofByte tag).fieldWidth := by
    rw [List.length_append, List.length_replicate]
    omega
  cases he : Element.ofField (ofBigEndian (field ++ missing)) (.ofByte tag) with
  | none =>
    obtain ⟨_, hreserved⟩ := Element.ofField_eq_none_iff.mp he
    rw [hreserved] at h
    exact absurd h (Nat.not_lt_zero _)
  | some e =>
    obtain ⟨rest, hrest⟩ := Carries.exists_of_header (isHeader_cons_iff.mpr ⟨hlength, he⟩)
    refine ⟨missing ++ rest, by simp [hmissing], ?_⟩
    rwa [List.cons_append, List.append_assoc] at hrest

/-- Nothing that begins with a reserved tag is an element. -/
theorem ne_of_reserved {tag : UInt8} {n height : Nat} {whole after tail rest : List UInt8}
    (h : Element.ofField n (.ofByte tag) = none) (hwhole : Carries 1 height whole) :
    whole ++ after ≠ tag :: tail ++ rest := by
  intro heq
  obtain ⟨e, header, data, body, hheader, -, -, rfl⟩ := hwhole.exists_node
  obtain ⟨tag', field, rfl⟩ := hheader.exists_cons
  obtain rfl : tag' = tag := (List.cons.inj heq).1
  have hsome := (isHeader_cons_iff.mp hheader).2
  rw [Element.ofField_eq_none_iff.mpr (Element.ofField_eq_none_iff.mp h)] at hsome
  cases hsome

end Wire

namespace Decoder

variable {α : Type} {d : Decoder}

theorem past_failure (n : Nat) (d : Decoder) :
    (d.past n).source.failure = d.source.failure := by
  unfold past
  split <;> rfl

/-- Where a source ends without a failure, what is missing cuts the data short. -/
theorem exists_exactly_of_lt (step : Step) {count : Nat} (hs : d.source.Steady)
    (hends : d.source.failure = none) (h : d.source.rest.length < count) :
    ∃ d', exactly step count d = .error (.truncated step count) d' := by
  refine ⟨{ d with source := d.source.advance d.source.rest.length }, ?_⟩
  rw [exactly_of_lt hs h, hends]

theorem exists_field_of_lt {marker : Wire.Marker} (hs : d.source.Steady)
    (hends : d.source.failure = none) (h : d.source.rest.length < marker.fieldWidth) :
    ∃ d', field marker d = .error (.truncated (.field marker) marker.fieldWidth) d' := by
  obtain ⟨d', hshort⟩ := exists_exactly_of_lt (.field marker) hs hends h
  rw [field, if_neg (by omega)]
  exact ⟨d', bind_of_error hshort⟩

theorem exists_payload_of_lt {len : Nat} (hs : d.source.Steady)
    (hends : d.source.failure = none) (h : d.source.rest.length < len) :
    ∃ expected d', payload len d = .error (.truncated .payload expected) d' := by
  have hshort := payload_of_lt hs h
  rw [hends] at hshort
  exact ⟨_, _, hshort⟩

/-- An element whose header comes next is entered, and the session is still ample behind it. -/
theorem Ample.enter (hd : d.Ample) {e : Element} {header rest : List UInt8}
    (hheader : IsHeader e header) (hahead : d.ahead = header ++ rest) :
    ∃ d', nextElement d = .ok e d' ∧ d'.ahead = rest ∧ d'.peeked = none ∧ d'.Ample := by
  have hpos := hheader.length_pos
  have hroom := hd.room
  rw [hahead, List.length_append] at hroom
  obtain ⟨next, henter, hdepth⟩ := hd.sound.nesting.exists_enter (by omega) e
  obtain ⟨hnext, hlimit⟩ := hd.sound.nesting.enter henter
  refine ⟨_, (nextElement_eq_ok_iff hd.sound.steady).mpr
    ⟨header, rest, next, hheader, hahead, henter, rfl⟩, ahead_past hahead, past_peeked hpos d,
    ⟨past_steady hd.sound.steady _, hnext⟩, (past_failure _ d).trans hd.ends, ?_⟩
  change next.depth + (d.past header.length).ahead.length ≤ next.limit
  rw [ahead_past hahead, hlimit]
  omega

section

variable (hd : d.Ample)

include hd

theorem Ample.nextElement_of_nil (hahead : d.ahead = []) :
    ∃ d', nextElement d = .error (.truncated .tag 1) d' := by
  obtain ⟨hpeeked, hrest⟩ := List.append_eq_nil_iff.mp hahead
  have hnone : d.peeked = none := Option.toList_eq_nil_iff.mp hpeeked
  have hlength : d.source.rest.length < 1 := by simp [hrest]
  obtain ⟨d', hshort⟩ := exists_exactly_of_lt .tag hd.sound.steady hd.ends hlength
  have hpeek : peekTag d = .error (.truncated .tag 1) d' := by
    rw [peekTag, get_bind, hnone]
    exact bind_of_error hshort
  rw [nextElement_eq]
  exact ⟨d', bind_of_error hpeek⟩

variable {tag : UInt8}

theorem Ample.nextElement_of_cons {tail : List UInt8} (hahead : d.ahead = tag :: tail) :
    nextElement d = elementAfter tag (d.past 1) := by
  rw [nextElement_eq, bind_of_ok ((peekTag_eq_ok_iff hd.sound.steady).mpr ⟨⟨tail, hahead⟩, rfl⟩)]
  rfl

theorem Ample.nextElement_of_lt {tail : List UInt8} (hahead : d.ahead = tag :: tail)
    (h : tail.length < (Wire.Marker.ofByte tag).fieldWidth) :
    ∃ step expected d', nextElement d = .error (.truncated step expected) d' := by
  have htail : (d.past 1).source.rest = tail := ahead_past (b := [tag]) hahead
  obtain ⟨d', hfield⟩ := exists_field_of_lt (past_steady hd.sound.steady 1)
    ((past_failure 1 d).trans hd.ends) (htail ▸ h)
  exact ⟨_, _, d', (hd.nextElement_of_cons hahead).trans (bind_of_error hfield)⟩

theorem Ample.nextElement_of_reserved {bytes rest : List UInt8}
    (hahead : d.ahead = tag :: (bytes ++ rest))
    (hlength : bytes.length = (Wire.Marker.ofByte tag).fieldWidth)
    (hnone : Element.ofField (Wire.ofBigEndian bytes) (.ofByte tag) = none) :
    ∃ d', nextElement d = .error (.malformed (.unknownTag tag)) d' := by
  have htail : (d.past 1).ahead = bytes ++ rest := ahead_past (b := [tag]) hahead
  have hfield := (field_eq_ok_iff (past_steady hd.sound.steady 1) (past_peeked Nat.one_pos d)).mpr
    ⟨bytes, rest, htail, hlength, rfl, rfl⟩
  rw [hd.nextElement_of_cons hahead, elementAfter, bind_of_ok hfield, hnone]
  exact ⟨_, rfl⟩

/-- The next element is read, or the error is right about what comes instead. -/
theorem Ample.nextElement_cases :
    (∃ e header d', nextElement d = .ok e d' ∧ IsHeader e header ∧ d.ahead = header ++ d'.ahead ∧
      d'.peeked = none ∧ d'.Ample) ∨
    ∃ err d', nextElement d = .error err d' ∧ err.Judges 1 d.ahead := by
  cases hahead : d.ahead with
  | nil =>
    obtain ⟨d', hnext⟩ := hd.nextElement_of_nil hahead
    exact .inr ⟨_, d', hnext, .truncated (List.cons_ne_nil _ _) (Carries.nils 1)⟩
  | cons tag tail =>
    rcases Wire.header_cases tag tail with
      hshort | ⟨e, field, rest, rfl, hheader⟩ | ⟨field, rest, rfl, hlength, hnone⟩
    · obtain ⟨step, expected, d', hnext⟩ := hd.nextElement_of_lt hahead hshort
      obtain ⟨rest, hmissing, hcomplete⟩ := Wire.exists_of_tag hshort
      exact .inr ⟨_, d', hnext, .truncated hmissing (hcomplete.mono (by simp))⟩
    · obtain ⟨d', hnext, rfl, hpeeked, hd'⟩ := hd.enter hheader hahead
      exact .inl ⟨e, _, d', hnext, hheader, rfl, hpeeked, hd'⟩
    · obtain ⟨d', hnext⟩ := hd.nextElement_of_reserved hahead hlength hnone
      exact .inr ⟨_, d', hnext, .malformed (Wire.ne_of_reserved hnone)⟩

end

/-- What is inside an element other than a raw takes as many elements as it announces. -/
theorem foldInside_takes {f : Fold α} {levels : Nat} (h : Takes levels 1 (foldLevels f levels))
    {e : Element} (he : ∀ len, e ≠ .raw len) : Takes levels e.items (foldInside f levels e) := by
  have hentry : Takes levels 2 (do
      let k ← foldLevels f levels
      let v ← foldLevels f levels
      return (k, v)) := h.bind fun _ => h.map
  cases e with
  | raw len => exact absurd rfl (he len)
  | array len =>
    rw [show (Element.array len).items = 1 * len from (Nat.one_mul len).symm]
    exact (h.repeatFrom [] len).map
  | map len => exact (hentry.repeatFrom [] len).map
  | _ => exact .pure _

theorem Ample.advance (hd : d.Ample) (n : Nat) :
    Ample { d with source := d.source.advance n } where
  sound := ⟨hd.sound.steady, hd.sound.nesting⟩
  ends := hd.ends
  room := by
    have hroom := hd.room
    simp only [ahead, Source.advance, List.length_append, List.length_drop] at hroom ⊢
    omega

/-- Behind the header of a raw, its bytes are all that can be missing. -/
theorem took_raw {f : Fold α} {levels len : Nat} {d d' : Decoder} {header : List UInt8}
    (hd : d'.Ample) (hpeeked : d'.peeked = none) (hheader : IsHeader (.raw len) header)
    (hahead : d.ahead = header ++ d'.ahead) : Took 1 d (foldInside f levels (.raw len) d') := by
  have hpos := hheader.length_pos
  have hs := hd.sound.steady
  have hrest : d'.ahead = d'.source.rest := by simp [ahead, hpeeked]
  rw [hrest] at hahead
  by_cases hlength : d'.source.rest.length < len
  · obtain ⟨expected, last, hshort⟩ := exists_payload_of_lt hs hd.ends hlength
    have hinside : foldInside f levels (.raw len) d' = .error (.truncated .payload expected) last :=
      bind_of_error hshort
    rw [hinside]
    refine .error ?_
    rw [hahead]
    exact .raw hheader hlength
  · have hle : len ≤ d'.source.rest.length := Nat.le_of_not_lt hlength
    have hinside : foldInside f levels (.raw len) d' = .ok (f.raw (d'.source.rest.take len))
        { d' with source := d'.source.advance len } := bind_of_ok (payload_of_le hs hle)
    rw [hinside]
    refine .ok ((Carries.raw hheader (List.length_take_of_le hle)).mono ?_) ?_ (hd.advance len)
    · rw [List.length_append]
      omega
    · rw [hahead]
      simp [ahead, hpeeked, Source.advance]

theorem foldLevels_takes (f : Fold α) (levels : Nat) : Takes levels 1 (foldLevels f levels) := by
  induction levels with
  | zero => exact fun d _ h => absurd h (Nat.not_lt_zero _)
  | succ levels ih =>
    intro d hd hlevels
    rw [foldLevels_succ]
    rcases hd.nextElement_cases with
      ⟨e, header, d', hnext, hheader, hahead, hpeeked, hd'⟩ | ⟨err, d', hnext, hjudges⟩
    · rw [bind_of_ok hnext]
      have hpos := hheader.length_pos
      have hlevels' : d'.ahead.length < levels := by
        rw [hahead, List.length_append] at hlevels
        omega
      by_cases he : ∃ len, e = .raw len
      · obtain ⟨len, rfl⟩ := he
        exact took_raw hd' hpeeked hheader hahead
      · have hpayload : e.payload = 0 := by
          cases e <;> first | rfl | exact absurd ⟨_, rfl⟩ he
        have hinside := foldInside_takes ih fun len heq => he ⟨len, heq⟩
        exact (hinside hd' hlevels').within hheader hpayload hahead
    · rw [bind_of_error hnext]
      exact .error hjudges

/-- A session reads a value over the whole of these bytes. -/
def Accepts (config : Config) (bytes : List UInt8) : Prop :=
  ∃ v d, value (new (.ofBytes bytes) config) = .ok v d ∧ d.source.position = bytes.length

theorem accepts_iff {config : Config} {bytes : List UInt8} :
    Accepts config bytes ↔ Carries 1 config.maxDepth bytes := by
  rw [Carries.one_iff]
  constructor
  · intro haccepts
    obtain ⟨v, d, hread, hposition⟩ := haccepts
    obtain ⟨-, hv, hroom⟩ := spelledBy_of_value_new hread
    rw [hposition, List.take_length] at hv
    exact ⟨v, hv, hroom⟩
  · intro hspelled
    obtain ⟨v, hv, hroom⟩ := hspelled
    obtain ⟨d, hread, hposition⟩ := value_of_spelledBy [] hv hroom
    rw [List.append_nil] at hread
    exact ⟨v, d, hread, hposition⟩

/-- Where the limit cannot be reached, the failures of the generic reading tell two kinds of input
apart: it is cut short exactly if it is a proper beginning of something accepted as a whole, and
malformed exactly if nothing accepted begins any of its continuations. There are no other errors,
and what else is accepted may be judged under any limit that these bytes cannot reach either. -/
theorem value_judges {bytes : List UInt8} {config config' : Config}
    (h : bytes.length ≤ config.maxDepth) (h' : bytes.length ≤ config'.maxDepth) :
    (∀ err, result value (new (.ofBytes bytes) config) = .error err →
      (∃ step expected, err = .truncated step expected) ∨ ∃ cause, err = .malformed cause) ∧
    ((∃ step expected,
        result value (new (.ofBytes bytes) config) = .error (.truncated step expected)) ↔
      ∃ rest, rest ≠ [] ∧ Accepts config' (bytes ++ rest)) ∧
    ((∃ cause, result value (new (.ofBytes bytes) config) = .error (.malformed cause)) ↔
      ¬∃ rest whole, whole <+: bytes ++ rest ∧ Accepts config' whole) := by
  have htook : Took 1 (new (.ofBytes bytes) config) (value (new (.ofBytes bytes) config)) :=
    foldLevels_takes .value (config.maxDepth + 1) (ample_new h) (Nat.lt_succ_of_le h)
  simp only [accepts_iff, result]
  cases hrun : value (new (.ofBytes bytes) config) with
  | ok v d' =>
    rw [hrun] at htook
    cases htook with
    | @ok _ _ whole carries ahead _ =>
      rw [ahead_new] at ahead
      subst ahead
      have hwhole := carries.mono (Nat.le_trans (List.length_append ▸ Nat.le_add_right _ _) h')
      refine ⟨nofun, ⟨nofun, fun hcomplete => ?_⟩, nofun, fun hno => ?_⟩
      · obtain ⟨rest, hmissing, hcomplete⟩ := hcomplete
        exact absurd hcomplete (carries.not_append hmissing)
      · exact absurd ⟨[], whole, ⟨d'.ahead, (List.append_nil _).symm⟩, hwhole⟩ hno
  | error err d' =>
    rw [hrun] at htook
    cases htook with
    | error judges =>
      simp only [Except.error.injEq]
      exact ⟨fun _ heq => heq ▸ judges.kinds, judges.truncated_iff h', judges.malformed_iff h'⟩

/-- An array of two items of which one has come can go on; behind a reserved tag nothing can. -/
theorem value_judges_array :
    (∃ rest, rest ≠ [] ∧ Accepts {} ([0x92, 0x01] ++ rest)) ∧
      ¬∃ rest whole, whole <+: [0x92, 0x01, 0xc1] ++ rest ∧ Accepts {} whole := by
  have hroom : [(0x92 : UInt8), 0x01].length ≤ ({} : Config).maxDepth := by decide
  have hroom' : [(0x92 : UInt8), 0x01, 0xc1].length ≤ ({} : Config).maxDepth := by decide
  exact ⟨(value_judges hroom hroom).2.1.mp ⟨_, _, rfl⟩,
    (value_judges hroom' hroom').2.2.mp ⟨_, rfl⟩⟩

end Decoder

end MessagePack
