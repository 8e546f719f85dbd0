import MessagePack.Proofs.Writing.Alike
import MessagePack.Proofs.Writing.Value

namespace MessagePack

open Encoding (Blind)
open Wire (maxLength)

/-- The names that data can be wrapped in without a trace. -/
def Registry.IsPlain (registry : Registry) (name : String) : Prop :=
  registry.get? name = none ∧ name ≠ Encoder.coderName ∧ name ≠ Timestamp.typeName

namespace Data

/-- One thing about the data, anywhere in it, that its meaning does not depend on: how a container
announces its length, an option that is present, a newtype of a free name. Only a container of some
sizes may come to announce its length late, or no longer late. -/
inductive Restyles (free : String → Prop) (sizes : Nat → Prop) : Data → Data → Prop
  | seq {items : List Data} {late late' : Bool} {d d' : Data}
      (size : late = late' ∨ sizes items.length) (left : IsSequence items late d)
      (right : IsSequence items late' d') : Restyles free sizes d d'
  | map {entries : List (Data × Data)} {late late' : Bool} {d d' : Data}
      (size : late = late' ∨ sizes entries.length) (left : IsMapping entries late d)
      (right : IsMapping entries late' d') : Restyles free sizes d d'
  | present (d : Data) : Restyles free sizes d (.present d)
  | newtype {name : String} (isFree : free name) (d : Data) :
      Restyles free sizes d (.newtype name d)
  | inside (frame : Frame) {d d' : Data} (step : Restyles free sizes d d') :
      Restyles free sizes (frame.fill d) (frame.fill d')

variable {excused : Prop} {free : String → Prop} {sizes : Nat → Prop} {config : Config}
  {registry : Registry} {d d' : Data}

/-- Every sequence of the items is written like the one that announces its length. -/
theorem IsSequence.alike {items : List Data} {late : Bool} (h : IsSequence items late d)
    (hexcused : late = true → maxLength < items.length → excused) :
    Alike excused free (.seq (some items.length) items) d := by
  intro config registry hblind _
  cases late with
  | false => exact h.encode_early ▸ .refl (encode_blind config hblind _)
  | true =>
    have hitems := items_stable config Blind.stable hblind items
    exact h.eq_of_late ▸ .announced config (.array items.length) hitems (hexcused rfl)

theorem IsMapping.alike {entries : List (Data × Data)} {late : Bool} (h : IsMapping entries late d)
    (hexcused : late = true → maxLength < entries.length → excused) :
    Alike excused free (.map (some entries.length) entries) d := by
  intro config registry hblind _
  cases late with
  | false => exact h.encode_early ▸ .refl (encode_blind config hblind _)
  | true =>
    have hentries := entries_stable config Blind.stable hblind entries
    exact h.eq_of_late ▸ .announced config (.map entries.length) hentries (hexcused rfl)

/-- Two sequences of the items are written alike, unless just one of them announces its length late
and that is too long. -/
theorem IsSequence.alike_of_both {items : List Data} {late late' : Bool}
    (left : IsSequence items late d) (right : IsSequence items late' d')
    (h : late = late' ∨ (maxLength < items.length → excused)) : Alike excused free d d' := by
  rcases h with rfl | hexcused
  · cases late with
    | false => exact (left.alike nofun).symm.trans (right.alike nofun)
    | true =>
      rw [left.eq_of_late, right.eq_of_late]
      exact fun config registry hblind _ => .refl (encode_blind config hblind _)
  · exact (left.alike fun _ => hexcused).symm.trans (right.alike fun _ => hexcused)

theorem IsMapping.alike_of_both {entries : List (Data × Data)} {late late' : Bool}
    (left : IsMapping entries late d) (right : IsMapping entries late' d')
    (h : late = late' ∨ (maxLength < entries.length → excused)) : Alike excused free d d' := by
  rcases h with rfl | hexcused
  · cases late with
    | false => exact (left.alike nofun).symm.trans (right.alike nofun)
    | true =>
      rw [left.eq_of_late, right.eq_of_late]
      exact fun config registry hblind _ => .refl (encode_blind config hblind _)
  · exact (left.alike fun _ => hexcused).symm.trans (right.alike fun _ => hexcused)

theorem Restyles.alike (h : Restyles free sizes d d') (hcoder : ¬free Encoder.coderName)
    (htime : ¬free Timestamp.typeName)
    (hexcused : ∀ size, sizes size → maxLength < size → excused) : Alike excused free d d' := by
  induction h with
  | seq hsize left right => exact left.alike_of_both right (hsize.imp_right (hexcused _))
  | map hsize left right => exact left.alike_of_both right (hsize.imp_right (hexcused _))
  | present d => exact fun config registry hblind _ => .refl (encode_blind config hblind d)
  | @newtype name hfree d =>
    intro config registry hblind hleaves
    have hname : name ≠ Encoder.coderName := by
      rintro rfl
      exact hcoder hfree
    have hplain : (Data.newtype name d).encode config registry = d.encode config registry := by
      rw [encode, if_neg hname, hleaves name hfree]
    rw [hplain]
    exact .refl (encode_blind config hblind d)
  | inside frame step ih => exact ih.fill htime frame

/-- Any number of changes of style. -/
theorem alike_of_eqvGen (h : Relation.EqvGen (Restyles free sizes) d d')
    (hcoder : ¬free Encoder.coderName) (htime : ¬free Timestamp.typeName)
    (hexcused : ∀ size, sizes size → maxLength < size → excused) : Alike excused free d d' := by
  induction h with
  | rel d d' step => exact step.alike hcoder htime hexcused
  | refl d => exact fun config registry hblind _ => .refl (encode_blind config hblind d)
  | symm d d' _ ih => exact ih.symm
  | trans d middle d' _ _ ih ih' => exact ih.trans ih'

/-- A hint that lies is found out after the items, if nothing has gone wrong by then. -/
theorem collectSeq_ne_ok (config : Config) (registry : Registry) {announced : Nat}
    {items : List Data} (h : items.length ≠ announced) (sink sink' : Sink) :
    (collectSeq (some announced) items).encode config registry sink ≠ .ok () sink' := by
  intro hencode
  rw [encode] at hencode
  obtain ⟨mid, -, hrest⟩ := Encoder.exists_mid hencode
  obtain ⟨last, -, hcheck⟩ := Encoder.exists_mid hrest
  rw [Option.getD_some, if_pos h] at hcheck
  exact nomatch hcheck

theorem collectMap_ne_ok (config : Config) (registry : Registry) {announced : Nat}
    {entries : List (Data × Data)} (h : entries.length ≠ announced) (sink sink' : Sink) :
    (collectMap (some announced) entries).encode config registry sink ≠ .ok () sink' := by
  intro hencode
  rw [encode] at hencode
  obtain ⟨mid, -, hrest⟩ := Encoder.exists_mid hencode
  obtain ⟨last, -, hcheck⟩ := Encoder.exists_mid hrest
  rw [Option.getD_some, if_pos h] at hcheck
  exact nomatch hcheck

/-- However often the style of data is changed, on a sink that takes everything it is written in
the same bytes or fails as before. The error is the same as well unless a container whose length
cannot be announced came to announce it late, or no longer late: an item that fails comes before the
header there, and after it otherwise. A wrong hint never comes out well. -/
theorem encode_restyled (config : Config) {registry : Registry} (hblind : registry.Blind) :
    (∀ d d', Relation.EqvGen (Restyles registry.IsPlain fun _ => True) d d' →
      ∃ outcome outcome', (d.encode config registry).Ends outcome ∧
        (d'.encode config registry).Ends outcome' ∧ outcome.toOption = outcome'.toOption) ∧
    (∀ d d', Relation.EqvGen (Restyles registry.IsPlain (· ≤ maxLength)) d d' →
      ∃ outcome, (d.encode config registry).Ends outcome ∧
        (d'.encode config registry).Ends outcome) ∧
    ∀ announced sink sink',
      (∀ items, items.length ≠ announced →
        (collectSeq (some announced) items).encode config registry sink ≠ .ok () sink') ∧
      ∀ entries, entries.length ≠ announced →
        (collectMap (some announced) entries).encode config registry sink ≠ .ok () sink' := by
  have hleaves : registry.Leaves registry.IsPlain := fun name hname => hname.1
  have hcoder : ¬registry.IsPlain Encoder.coderName := fun hname => hname.2.1 rfl
  have htime : ¬registry.IsPlain Timestamp.typeName := fun hname => hname.2.2 rfl
  refine ⟨fun d d' h => ?_, fun d d' h => ?_, fun announced sink sink' => ⟨?_, ?_⟩⟩
  · have halike : Alike True registry.IsPlain d d' :=
      alike_of_eqvGen h hcoder htime fun _ _ _ => trivial
    obtain ⟨outcome, outcome', hends, hends', hsame⟩ := halike config registry hblind hleaves
    exact ⟨outcome, outcome', hends, hends', hsame.1⟩
  · have halike : Alike False registry.IsPlain d d' :=
      alike_of_eqvGen h hcoder htime fun size hsize hlong => absurd hsize (Nat.not_le.mpr hlong)
    obtain ⟨outcome, outcome', hends, hends', hsame⟩ := halike config registry hblind hleaves
    obtain rfl := hsame.2 id
    exact ⟨outcome, hends, hends'⟩
  · exact fun items h => collectSeq_ne_ok config registry h sink sink'
  · exact fun entries h => collectMap_ne_ok config registry h sink sink'

theorem buffered_seq_of_long (config : Config) (hblind : registry.Blind) {items : List Data}
    (hlong : maxLength < items.length) :
    Encoder.buffered ((seq (some items.length) items).encode config registry) =
      .error (.lengthTooLong maxLength items.length) := by
  have hheader : Encoder.buffered (Encoder.arrayLen config items.length) =
      .error (.lengthTooLong maxLength items.length) := by
    rw [Encoder.arrayLen, Encoder.element,
      Wire.header?_of_long (e := .array items.length) config.intPolicy hlong]
    exact Encoder.buffered_throw _
  have hlen : Blind (Encoder.arrayLen config items.length) := Blind.stable.element config _
  rw [encode, hlen.buffered_seq (items_stable config Blind.stable hblind items), hheader]
  rfl

/-- Of one item more than can be announced the first is too wide a number. With the length at the
start the length is the error, and without it the number is. -/
theorem encode_restyled_too_long :
    let items : List Data := .int .i128 0 :: List.replicate maxLength .unit
    let known : Data := .seq (some items.length) items
    let unknown : Data := .seq none items
    Registry.empty.Blind ∧
      Relation.EqvGen (Restyles Registry.empty.IsPlain fun _ => True) known unknown ∧
      Encoder.buffered (known.encode {} .empty) = .error (.lengthTooLong maxLength items.length) ∧
      Encoder.buffered (unknown.encode {} .empty) = .error (.unsupported "i128") ∧
      ¬∃ outcome, (known.encode {} .empty).Ends outcome ∧
        (unknown.encode {} .empty).Ends outcome := by
  generalize hrest : List.replicate maxLength Data.unit = rest
  have hlong : maxLength < (Data.int .i128 0 :: rest).length := by
    rw [← hrest, List.length_cons, List.length_replicate]
    exact Nat.lt_succ_self _
  intro items known unknown
  have hknown : Encoder.buffered (known.encode {} .empty) =
      .error (.lengthTooLong maxLength items.length) :=
    buffered_seq_of_long {} Registry.blind_empty hlong
  have hunknown : Encoder.buffered (unknown.encode {} .empty) =
      .error (.unsupported "i128") := by
    have hitems : Encoder.buffered (encodeItems {} .empty items) =
        .error (.unsupported "i128") := by
      rw [encodeItems, encode]
      rfl
    have hlen : Blind (Encoder.arrayLen {} items.length) := Blind.stable.element {} _
    rw [encode, Encoder.buffered_afterwards hlen, hitems]
    rfl
  have hstyle : Restyles Registry.empty.IsPlain (fun _ => True) known unknown :=
    .seq (.inr trivial) .known .unknown
  refine ⟨Registry.blind_empty, .rel _ _ hstyle, hknown, hunknown, ?_⟩
  rintro ⟨outcome, hends, hends'⟩
  have hsame := hends.buffered.trans hends'.buffered.symm
  rw [hknown, hunknown] at hsame
  cases hsame

/-- A timestamp with its codec, in an array of unknown length and in one that is counted after all,
where it is an option as well. -/
theorem encode_restyled_array :
    let d : Data := .struct "S" [("a", .seq none [.timestamp (.new 1 2)])]
    let d' : Data := .struct "S" [("a", .collectSeq (some 1) [.present (.timestamp (.new 1 2))])]
    Registry.default.Blind ∧ Relation.EqvGen
        (Restyles Registry.default.IsPlain (· ≤ maxLength)) d d' ∧
      (∃ outcome, (d.encode {} .default).Ends outcome ∧ (d'.encode {} .default).Ends outcome) ∧
      Encoder.buffered (d.encode {} .default) = .ok [0x81, 0xa1, 0x61, 0x91, 0x01, 0x02] ∧
      Encoder.buffered (d'.encode {} .default) = .ok [0x81, 0xa1, 0x61, 0x91, 0x01, 0x02] := by
  intro d d'
  let place : FieldPlace := ⟨[], "a", []⟩
  have hstyle : Restyles Registry.default.IsPlain (· ≤ maxLength) d
      (.struct "S" [("a", .collectSeq (some 1) [.timestamp (.new 1 2)])]) :=
    .inside (.struct "S" place) (.seq (.inr (by decide)) .unknown .hinted)
  have hoption : Restyles Registry.default.IsPlain (· ≤ maxLength)
      (.struct "S" [("a", .collectSeq (some 1) [.timestamp (.new 1 2)])]) d' :=
    .inside (.struct "S" place) <| .inside (.collectSeq (some 1) ⟨[], []⟩) <| .present _
  have hrelated := Relation.EqvGen.trans _ _ _ (.rel _ _ hstyle) (.rel _ _ hoption)
  refine ⟨Registry.blind_default, hrelated, ?_, by decide +kernel, by decide +kernel⟩
  exact (encode_restyled {} Registry.blind_default).2.1 d d' hrelated

end Data

end MessagePack
