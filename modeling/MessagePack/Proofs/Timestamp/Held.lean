import MessagePack.Proofs.Timestamp.Routes
import MessagePack.Stream

namespace MessagePack

open Encoding (BeginsWith Blind)
open Wire (Element IsHeader maxLength)

/-- Data of a type with the timestamp in it: the timestamp itself, or an option, a sequence, a map,
a tuple or a structure that holds it and, for the rest, what fits its types. A sequence or a map
announces its length in any way that is true. -/
inductive Timestamp.HeldIn (config : Config) (registry : Registry) (t : Timestamp) :
    Data → Shape → Prop where
  | itself : HeldIn config registry t (.timestamp t) .timestamp
  | option {d : Data} {content : Shape} (inner : HeldIn config registry t d content) :
      HeldIn config registry t (.present d) (.option content)
  | seq {late : Bool} {before after : List Data} {d whole : Data} {item : Shape}
      (inner : HeldIn config registry t d item)
      (others : ∀ other ∈ before ++ after, Fits config registry other item)
      (announced : Data.IsSequence (before ++ d :: after) late whole)
      (size : (before ++ d :: after).length ≤ maxLength) :
      HeldIn config registry t whole (.seq item)
  | key {late : Bool} {before after : List (Data × Data)} {d v whole : Data} {key item : Shape}
      (inner : HeldIn config registry t d key) (fits : Fits config registry v item)
      (others : ∀ entry ∈ before ++ after,
        Fits config registry entry.1 key ∧ Fits config registry entry.2 item)
      (announced : Data.IsMapping (before ++ (d, v) :: after) late whole)
      (size : (before ++ (d, v) :: after).length ≤ maxLength) :
      HeldIn config registry t whole (.map key item)
  | value {late : Bool} {before after : List (Data × Data)} {k d whole : Data} {key item : Shape}
      (inner : HeldIn config registry t d item) (fits : Fits config registry k key)
      (others : ∀ entry ∈ before ++ after,
        Fits config registry entry.1 key ∧ Fits config registry entry.2 item)
      (announced : Data.IsMapping (before ++ (k, d) :: after) late whole)
      (size : (before ++ (k, d) :: after).length ≤ maxLength) :
      HeldIn config registry t whole (.map key item)
  | tuple {before after : List Data} {d : Data} {left right : List Shape} {shape : Shape}
      (inner : HeldIn config registry t d shape)
      (others : List.Forall₂ (Fits config registry) before left)
      (others' : List.Forall₂ (Fits config registry) after right)
      (size : (before ++ d :: after).length ≤ maxLength) :
      HeldIn config registry t (.tuple (before ++ d :: after)) (.tuple (left ++ shape :: right))
  | struct {type name : String} {before after : List (String × Data)} {d : Data}
      {left right : List (String × Shape)} {shape : Shape} {strict : Bool}
      (free : registry.get? type = none) (inner : HeldIn config registry t d shape)
      (others : List.Forall₂ (fun field shape => Fits config registry field.2 shape.2) before left)
      (others' : List.Forall₂ (fun field shape => Fits config registry field.2 shape.2) after right)
      (same : FieldsMatch (before ++ (name, d) :: after) (left ++ (name, shape) :: right)) :
      HeldIn config registry t (.struct type (before ++ (name, d) :: after))
        (.struct type (left ++ (name, shape) :: right) strict)

variable {config : Config} {registry : Registry}

theorem Fits.of_isSequence {items : List Data} {late : Bool} {d : Data} {item : Shape}
    (h : Data.IsSequence items late d) (size : items.length ≤ maxLength)
    (fits : ∀ d ∈ items, Fits config registry d item) : Fits config registry d (.seq item) := by
  cases h with
  | known => exact .seq (fun n h => (Option.some.inj h).symm) size fits
  | unknown => exact .seq nofun size fits
  | hinted => exact .collectSeq (fun n h => (Option.some.inj h).symm) size fits
  | collected => exact .collectSeq nofun size fits

theorem Fits.of_isMapping {entries : List (Data × Data)} {late : Bool} {d : Data}
    {key item : Shape} (h : Data.IsMapping entries late d) (size : entries.length ≤ maxLength)
    (keys : ∀ entry ∈ entries, Fits config registry entry.1 key)
    (fits : ∀ entry ∈ entries, Fits config registry entry.2 item) :
    Fits config registry d (.map key item) := by
  cases h with
  | known => exact .map (fun n h => (Option.some.inj h).symm) size keys fits
  | unknown => exact .map nofun size keys fits
  | hinted => exact .collectMap (fun n h => (Option.some.inj h).symm) size keys fits
  | collected => exact .collectMap nofun size keys fits

/-- What begins with something other than a nil is not taken for the absence of anything. -/
theorem Encoding.BeginsWith.ne_nil {encoding : Encoding Unit} {e : Element}
    (h : encoding.BeginsWith e) (he : e ≠ .nil) (hblind : encoding.Blind) (tail : List UInt8) :
    Encoder.buffered encoding ≠ .ok (0xc0 :: tail) := by
  intro hbuffered
  obtain ⟨header, rest, hheader, heq⟩ := h (hblind.writes hbuffered)
  have hsame : [0xc0] ++ tail = header ++ rest := heq
  exact he (IsHeader.nil.append_inj hheader hsame).1.symm

namespace Timestamp

/-- The header of a number is no nil's, under either policy. -/
theorem announced_int_ne_nil (policy : Wire.IntPolicy) (v : Int64) :
    (Element.int v).announced policy ≠ .nil := by
  intro h
  simp only [Element.announced] at h
  split_ifs at h

theorem exists_beginsWith (hregistry : registry = .empty ∨ registry = .default) (t : Timestamp) :
    ∃ e, e ≠ .nil ∧ ((Data.timestamp t).encode config registry).BeginsWith e := by
  have hblind (v : Int64) : Blind (Encoder.int config v) := Blind.stable.element config _
  rcases hregistry with rfl | rfl
  · refine ⟨.array 2, nofun, ?_⟩
    rw [encode_of_free rfl]
    exact .seq (.element rfl) (Blind.stable.element config _) (Blind.stable.time config t)
  · refine ⟨_, announced_int_ne_nil config.intPolicy t.seconds, ?_⟩
    rw [encode_of_codec get?_default]
    exact .seq .announced (hblind _) (hblind _)

/-- One item among others. -/
private theorem forall_mem_around {α : Type} {P : α → Prop} {a : α} {before after : List α}
    (h : P a) (others : ∀ other ∈ before ++ after, P other) :
    ∀ other ∈ before ++ a :: after, P other := by
  simp only [List.forall_mem_append, List.forall_mem_cons] at others ⊢
  exact ⟨others.1, h, others.2⟩

namespace HeldIn

variable {t : Timestamp} {d : Data} {shape : Shape}

/-- A sequence begins with its header, whether it knows its length beforehand or not. -/
theorem beginsWith_sequence (hblind : registry.Blind) {items : List Data} {late : Bool}
    (h : Data.IsSequence items late d) :
    (d.encode config registry).BeginsWith (.array items.length) := by
  have hheader : Blind (Encoder.arrayLen config items.length) := Blind.stable.element config _
  cases late with
  | true => exact h.eq_of_late ▸ .afterwards (.element rfl) hheader _
  | false =>
    rw [h.encode_early]
    exact .seq (.element rfl) hheader (Data.items_stable config Blind.stable hblind _)

theorem beginsWith_mapping (hblind : registry.Blind) {entries : List (Data × Data)} {late : Bool}
    (h : Data.IsMapping entries late d) :
    (d.encode config registry).BeginsWith (.map entries.length) := by
  have hheader : Blind (Encoder.mapLen config entries.length) := Blind.stable.element config _
  cases late with
  | true => exact h.eq_of_late ▸ .afterwards (.element rfl) hheader _
  | false =>
    rw [h.encode_early]
    exact .seq (.element rfl) hheader (Data.entries_stable config Blind.stable hblind _)

/-- What holds a timestamp begins with a container or with the timestamp. -/
theorem exists_beginsWith (hregistry : registry = .empty ∨ registry = .default)
    (h : t.HeldIn config registry d shape) :
    ∃ e, e ≠ .nil ∧ (d.encode config registry).BeginsWith e := by
  have hblind : registry.Blind := Registry.blind_of_bundled hregistry
  have helement (e : Element) : Blind (Encoder.element config e) := Blind.stable.element config e
  induction h with
  | itself => exact Timestamp.exists_beginsWith hregistry t
  | option _ ih => exact ih
  | seq _ _ announced _ _ => exact ⟨.array _, nofun, beginsWith_sequence hblind announced⟩
  | key _ _ _ announced _ _ => exact ⟨.map _, nofun, beginsWith_mapping hblind announced⟩
  | value _ _ _ announced _ _ => exact ⟨.map _, nofun, beginsWith_mapping hblind announced⟩
  | tuple _ _ _ _ _ =>
    exact ⟨.array _, nofun, .seq (.element rfl) (helement _)
      (Data.items_stable config Blind.stable hblind _)⟩
  | @struct _ name before after d _ _ _ _ free _ _ _ _ _ =>
    refine ⟨.map (before ++ (name, d) :: after).length, nofun, ?_⟩
    simp only [Data.encode, free]
    exact .seq (.element rfl) (helement _) (Data.fields_stable config Blind.stable hblind _)

/-- By induction on what holds the timestamp: in an option it is never taken for nothing. -/
theorem fits (hregistry : registry = .empty ∨ registry = .default)
    (h : t.HeldIn config registry d shape) : Fits config registry d shape := by
  have hblind : registry.Blind := Registry.blind_of_bundled hregistry
  induction h with
  | itself => exact .timestamp t
  | @option d _ inner ih =>
    obtain ⟨e, he, hbegins⟩ := inner.exists_beginsWith hregistry
    exact .present ih (hbegins.ne_nil he (Data.encode_blind config hblind d))
  | seq _ others announced size ih =>
    exact .of_isSequence announced size (forall_mem_around ih others)
  | key _ fits others announced size ih =>
    refine .of_isMapping announced size (forall_mem_around ?_ fun entry h => (others entry h).1)
      (forall_mem_around ?_ fun entry h => (others entry h).2)
    · exact ih
    · exact fits
  | value _ fits others announced size ih =>
    refine .of_isMapping announced size (forall_mem_around ?_ fun entry h => (others entry h).1)
      (forall_mem_around ?_ fun entry h => (others entry h).2)
    · exact fits
    · exact ih
  | tuple _ others others' size ih =>
    have hall := List.rel_append others (.cons ih others')
    obtain ⟨hlength, hfits⟩ := List.forall₂_iff_zip.mp hall
    exact .tuple size hlength fun d shape hmem => hfits hmem
  | @struct _ name _ _ d _ _ shape _ free _ others others' same ih =>
    have hone : Fits config registry (name, d).2 (name, shape).2 := ih
    have hall := List.rel_append others (.cons hone others')
    obtain ⟨-, hfits⟩ := List.forall₂_iff_zip.mp hall
    exact .struct free same fun field shape hmem => hfits hmem

end HeldIn

/-- What holds a timestamp is read back to the last byte, with the timestamp in its place. -/
theorem HeldIn.exists_run (hregistry : registry = .empty ∨ registry = .default) {t : Timestamp}
    {data : Data} {shape : Shape} (h : t.HeldIn config registry data shape) {config' : Config}
    (hroom : data.depth registry ≤ config'.maxDepth) :
    ∃ bytes d, Encoder.buffered (data.encode config registry) = .ok bytes ∧
      shape.read registry .wire (.new (.ofBytes bytes) config') = .ok data.item d ∧
      d.source.position = bytes.length ∧ d.source.rest = [] ∧ d.peeked = none := by
  obtain ⟨f, hagree, -, hheight⟩ := (h.fits hregistry).agrees hregistry
  exact hagree.exists_run (hheight ▸ hroom)

theorem encode_parts (registry : Registry) (t : Timestamp) :
    Encoder.time config t = (do
      (Data.int .i64 t.seconds.toInt).encode config registry
      (Data.int .i64 t.nanos).encode config registry) := by
  have hseconds : Int64.ofInt t.seconds.toInt = t.seconds := Int64.ofInt_toInt t.seconds
  have hnanos : Int64.ofInt t.nanos = Int64.ofNat t.nanos := rfl
  simp only [Data.encode, Encoder.kind, IntKind.isWide, IntKind.isSigned, hseconds, hnanos]
  rfl

theorem encode_pair (t : Timestamp) : Encoder.timePair config t =
    (Data.tuple [.int .i64 t.seconds.toInt, .int .i64 t.nanos]).encode config .empty := by
  have hlast : (Data.int .i64 t.nanos).encode config .empty =
      (Data.int .i64 t.nanos).encode config .empty >>= fun _ => pure () := (bind_pure_unit).symm
  rw [Encoder.timePair, encode_parts .empty, hlast]
  rfl

/-- Timestamps are the same by every route. Two numbers, under whatever spellings, make the same
timestamp as bare numbers for the codec, as an array without it, and as an array in memory; all
three refuse them if either is no signed number of 64 bits. A timestamp is written as its two parts,
bare with the codec and in an array without it, and is read back wherever it stands. -/
theorem routes_agree {n m : Integer} {first second header : List UInt8}
    (hfirst : (Value.int n).SpelledBy first) (hsecond : (Value.int m).SpelledBy second)
    (hheader : IsHeader (.array 2) header) (rest : List UInt8) (t : Timestamp)
    (config config' : Config) :
    (∀ d : Decoder, d.Sound → d.ahead = first ++ (second ++ rest) →
      ∃ d', d'.Sound ∧ d'.ahead = rest ∧
        Settles n m (Shape.timestamp.read .default .wire) d d') ∧
    (∀ d : Decoder, d.Sound → d.ahead = header ++ (first ++ (second ++ rest)) →
      d.nesting.depth < d.nesting.limit →
      ∃ d', d'.Sound ∧ d'.ahead = rest ∧
        Settles n m (Shape.timestamp.read .empty .wire) d d') ∧
    ((∀ sec nsec : Int64, n.val = sec.toInt → m.val = nsec.toInt →
        (Value.array [.int n, .int m]).decode .timestamp = .ok (.timestamp (.new sec nsec))) ∧
      (¬(IntKind.i64.Spans n.val ∧ IntKind.i64.Spans m.val) →
        ∃ cause, (Value.array [.int n, .int m]).decode .timestamp = .error (.rejected cause))) ∧
    (Data.timestamp t).encode config .default = (do
      (Data.int .i64 t.seconds.toInt).encode config .default
      (Data.int .i64 t.nanos).encode config .default) ∧
    (Data.timestamp t).encode config .empty =
      (Data.tuple [.int .i64 t.seconds.toInt, .int .i64 t.nanos]).encode config .empty ∧
    (∀ registry, registry = .empty ∨ registry = .default → ∀ data shape,
      t.HeldIn config registry data shape → data.depth registry ≤ config'.maxDepth →
      ∃ bytes d, Encoder.buffered (data.encode config registry) = .ok bytes ∧
        shape.read registry .wire (.new (.ofBytes bytes) config') = .ok data.item d ∧
        d.source.position = bytes.length ∧ d.source.rest = [] ∧ d.peeked = none) := by
  refine ⟨?bare, ?array, ?memory, ?parts, ?pair, ?back⟩
  case bare =>
    intro d hs hahead
    exact settles_of_codec hfirst hsecond hs get?_default hahead
  case array =>
    intro d hs hahead hroom
    exact settles_of_free hfirst hsecond hs rfl hheader hahead hroom
  case memory =>
    have hsettles := settles_of_tree n m .empty (Decoder.ofBytes [])
    constructor
    · intro sec nsec hn hm
      exact Decoding.result_eq_ok_iff.mpr ⟨_, hsettles.given sec nsec hn hm⟩
    · intro hout
      obtain ⟨cause, mid, herror⟩ := hsettles.refused hout
      exact ⟨cause, Decoding.result_eq_error_iff.mpr ⟨mid, herror⟩⟩
  case parts => rw [encode_of_codec get?_default, encode_parts]
  case pair => rw [encode_of_free rfl, encode_pair]
  case back =>
    intro registry hregistry data shape hheld hroom
    exact hheld.exists_run hregistry hroom

/-- Nanoseconds that are carried over, in an unsigned form; a second that no signed number holds;
and a timestamp in an option, which is collected in a sequence and bare in there. -/
theorem routes_agree_carried :
    (∃ d', Shape.timestamp.read .default .wire
        (.new (.ofBytes [0xfd, 0xce, 0x95, 0x02, 0xf9, 0x00]) {}) =
      .ok (.timestamp (.new (-3) 2500000000)) d') ∧
    (∃ cause, (Value.array [.int ⟨9223372036854775808, by decide, by decide⟩,
      .int ⟨2500000000, by decide, by decide⟩]).decode .timestamp = .error (.rejected cause)) ∧
    (∃ bytes d, Encoder.buffered ((Data.collectSeq (some 1)
        [.present (.timestamp (.new 1 0))]).encode {} .default) = .ok bytes ∧
      (Shape.seq (.option .timestamp)).read .default .wire (.new (.ofBytes bytes) {}) =
        .ok (.seq [.present (.timestamp (.new 1 0))]) d ∧
      d.source.position = bytes.length ∧ d.source.rest = [] ∧ d.peeked = none) := by
  have hsec : (Value.ofInt64 (-3)).SpelledBy [0xfd] := .int (@IsHeader.negInt 29 (by decide))
  have hnsec : (Value.ofUInt64 2500000000).SpelledBy [0xce, 0x95, 0x02, 0xf9, 0x00] :=
    .uint (@IsHeader.uint 0xce 4 2500000000 (by decide) (by decide))
  have hwide : (Value.ofUInt64 9223372036854775808).SpelledBy
      [0xcf, 0x80, 0, 0, 0, 0, 0, 0, 0] :=
    .uint (@IsHeader.uint 0xcf 8 9223372036854775808 (by decide) (by decide))
  have hpair : IsHeader (.array 2) [0x92] := @IsHeader.fixArray 2 (by decide)
  have hcarried := (routes_agree hsec hnsec hpair [] (.new 1 0) {} {}).1 (.new (.ofBytes _) {})
    (Decoder.sound_new _ _) rfl
  have hrefused := (routes_agree hwide hnsec hpair [] (.new 1 0) {} {}).2.2.1.2
  have hback := (routes_agree hsec hnsec hpair [] (.new 1 0) {} {}).2.2.2.2.2 .default (.inr rfl)
  obtain ⟨d', -, -, hsettles⟩ := hcarried
  have hread := hsettles.given (-3) 2500000000 (by decide) (by decide)
  have hout : ¬IntKind.i64.Spans (Integer.ofUInt64 9223372036854775808).val := by
    rw [IntKind.spans_i64]
    decide
  have hheld : (Timestamp.new 1 0).HeldIn {} .default
      (.collectSeq (some 1) [.present (.timestamp (.new 1 0))]) (.seq (.option .timestamp)) :=
    @HeldIn.seq _ _ _ false [] [] _ _ _ (.option .itself) nofun .hinted (by decide)
  exact ⟨⟨d', hread⟩, hrefused fun h => hout h.1, hback _ _ hheld (by decide)⟩

end Timestamp

end MessagePack
