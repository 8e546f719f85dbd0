import MessagePack.Proofs.RoundTrip.Timestamp
import MessagePack.Proofs.Writing.Alike

namespace MessagePack

open Encoding (Blind Writes)
open Wire (Element IsHeader maxLength)

namespace Encoding

/-- Wherever the first encoding comes out well, on sinks that take everything, the second hands over
the same bytes. -/
def FollowedBy (first second : Encoding Unit) : Prop :=
  Blind first ∧ ∀ ⦃bytes⦄, first.Writes bytes → second.Writes bytes

namespace FollowedBy

theorem refl {encoding : Encoding Unit} (h : Blind encoding) : FollowedBy encoding encoding :=
  ⟨h, fun _ => id⟩

theorem seq {first first' second second' : Encoding Unit} (h : FollowedBy first first')
    (h' : FollowedBy second second') :
    FollowedBy (first >>= fun _ => second) (first' >>= fun _ => second') := by
  refine ⟨Blind.stable.seq h.1 h'.1, fun bytes hwrites => ?_⟩
  obtain ⟨bytes', bytes'', hfirst, hsecond, rfl⟩ := h.1.exists_writes h'.1 hwrites
  exact (h.2 hfirst).bind (h'.2 hsecond)

/-- What is left to the side by the first is left by the second. -/
theorem buffered {first second : Encoding Unit} (h : FollowedBy first second) {bytes : List UInt8}
    (hbytes : Encoder.buffered first = .ok bytes) : Encoder.buffered second = .ok bytes :=
  (h.2 (h.1.writes hbytes)).buffered

theorem afterwards {header first second : Encoding Unit} (hheader : Blind header)
    (h : FollowedBy first second) :
    FollowedBy (Encoder.afterwards header (Encoder.buffered first))
      (Encoder.afterwards header (Encoder.buffered second)) := by
  cases hbytes : Encoder.buffered first with
  | ok bytes =>
    rw [h.buffered hbytes]
    exact refl (Blind.stable.afterwards hheader _)
  | error e =>
    refine ⟨Blind.stable.afterwards hheader _, fun bytes hwrites => ?_⟩
    exact (Encoder.not_writes_throw hwrites).elim

theorem congruent : Encoding.Congruent FollowedBy := ⟨refl, seq, afterwards⟩

end FollowedBy

/-- What is handed over begins with the header of this element. -/
def BeginsWith (encoding : Encoding Unit) (e : Element) : Prop :=
  ∀ ⦃bytes⦄, encoding.Writes bytes → ∃ header rest, IsHeader e header ∧ bytes = header ++ rest

namespace BeginsWith

variable {config : Config} {e : Element} {encoding : Encoding Unit}

theorem announced : BeginsWith (Encoder.element config e) (e.announced config.intPolicy) := by
  intro bytes hwrites
  unfold Encoder.element at hwrites
  cases hheader : e.header? config.intPolicy with
  | none =>
    rw [hheader] at hwrites
    exact (Encoder.not_writes_throw hwrites).elim
  | some header =>
    rw [hheader] at hwrites
    obtain rfl := hwrites.unique (.write header)
    exact ⟨bytes, [], Wire.isHeader_header? hheader, (List.append_nil bytes).symm⟩

theorem element (he : e.announced config.intPolicy = e) :
    BeginsWith (Encoder.element config e) e := by
  have h : BeginsWith (Encoder.element config e) (e.announced config.intPolicy) := announced
  rwa [he] at h

/-- What comes after it does not change how something begins. -/
theorem seq {second : Encoding Unit} (h : BeginsWith encoding e) (hblind : Blind encoding)
    (hsecond : Blind second) : BeginsWith (encoding >>= fun _ => second) e := by
  intro bytes hwrites
  obtain ⟨first, last, hfirst, -, rfl⟩ := hblind.exists_writes hsecond hwrites
  obtain ⟨header, rest, hheader, rfl⟩ := h hfirst
  exact ⟨header, rest ++ last, hheader, List.append_assoc ..⟩

theorem afterwards (h : BeginsWith encoding e) (hblind : Blind encoding)
    (body : Except Error (List UInt8)) : BeginsWith (Encoder.afterwards encoding body) e := by
  cases body with
  | ok body => exact h.seq hblind (Blind.stable.body body)
  | error fault => exact fun _ hwrites => (Encoder.not_writes_throw hwrites).elim

end BeginsWith

end Encoding

/-- The bytes begin with a raw of this data. -/
def Wire.StartsWithRaw (data bytes : List UInt8) : Prop :=
  ∃ header rest, IsHeader (.raw data.length) header ∧ bytes = (header ++ data) ++ rest

namespace Encoder

/-- What is captured is a raw exactly when what has been left to the side begins with it. -/
theorem capture_eq_raw_iff {encoding : Encoding Unit} {data : List UInt8} :
    capture encoding = .ok (.raw data) ↔
      ∃ bytes, buffered encoding = .ok bytes ∧ Wire.StartsWithRaw data bytes := by
  rw [capture_eq_ok_iff]
  constructor
  · intro hwhole
    obtain ⟨whole, dropped, hbytes, hspelled, -⟩ := hwhole
    cases hspelled with
    | raw hheader => exact ⟨_, hbytes, _, dropped, hheader, rfl⟩
  · intro hstarts
    obtain ⟨bytes, hbytes, header, rest, hheader, rfl⟩ := hstarts
    exact ⟨header ++ data, rest, hbytes, .raw hheader, Nat.zero_le _⟩

/-- Bytes are written as they are only if they have been captured as a raw. -/
theorem verbatim_writes_iff {encoding : Encoding Unit} {data : List UInt8} :
    Writes (verbatim (capture encoding)) data ↔ capture encoding = .ok (.raw data) := by
  constructor
  · intro hwrites
    unfold verbatim at hwrites
    split at hwrites
    · rename_i bytes heq
      rw [heq, hwrites.unique (.write bytes)]
    · exact (not_writes_throw hwrites).elim
    · exact (not_writes_throw hwrites).elim
  · intro hraw
    rw [hraw]
    exact .write data

/-- Something that writes its own bytes comes to these bytes, if a raw can hold them. -/
theorem coder_writes (config : Config) {encoding : Encoding Unit} {bytes : List UInt8}
    (h : encoding.Writes bytes) (hlength : bytes.length ≤ maxLength) :
    Writes (coder config encoding) bytes := by
  obtain ⟨header, hheader, hwrites⟩ := Writes.exists_bytes config hlength
  unfold coder
  rw [h.buffered]
  exact verbatim_writes_iff.mpr (capture_eq hwrites (.raw hheader) (Nat.zero_le _))

end Encoder

/-- Something whose bytes are followed by those of another is itself followed by it. -/
theorem Encoding.FollowedBy.coder (config : Config) {first second : Encoding Unit}
    (h : FollowedBy first second) :
    FollowedBy (Encoder.coder config first) (Encoder.coder config second) := by
  cases hbytes : Encoder.buffered first with
  | ok bytes =>
    have hsame : Encoder.coder config first = Encoder.coder config second := by
      rw [Encoder.coder, Encoder.coder, hbytes, h.buffered hbytes]
    exact hsame ▸ refl (Blind.stable.coder config first)
  | error e =>
    refine ⟨Blind.stable.coder config first, fun bytes hwrites => ?_⟩
    rw [Encoder.coder, hbytes] at hwrites
    exact (Encoder.not_writes_throw hwrites).elim

namespace Data

/-- The element that data other than a raw begins with when no type has a codec, if that is known
from its outermost node and is no number. -/
def leading? : Data → Option Element
  | seq len items => some (.array (len.getD items.length))
  | map len entries => some (.map (len.getD entries.length))
  | collectSeq hint items => some (.array (hint.getD items.length))
  | collectMap hint entries => some (.map (hint.getD entries.length))
  | tuple items | tupleStruct _ items => some (.array items.length)
  | struct _ fields => some (.map fields.length)
  | newtypeVariant .. | tupleVariant .. | structVariant .. => some (.map 1)
  | timestamp _ => some (.array 2)
  | unitStruct _ => some .nil
  | _ => none

variable {config : Config} {d : Data} {e : Element} {data bytes : List UInt8}

theorem beginsWith_leading (h : d.leading? = some e) :
    (d.encode config .empty).BeginsWith e := by
  have hblind (d : Data) : Blind (d.encode config .empty) :=
    encode_blind config Registry.blind_empty d
  have hitems (items : List Data) : Blind (encodeItems config .empty items) :=
    items_stable config Blind.stable Registry.blind_empty items
  have hentries (entries : List (Data × Data)) : Blind (encodeEntries config .empty entries) :=
    entries_stable config Blind.stable Registry.blind_empty entries
  have hfields (fields : List (String × Data)) : Blind (encodeFields config .empty fields) :=
    fields_stable config Blind.stable Registry.blind_empty fields
  have helement (e : Element) : Blind (Encoder.element config e) := Blind.stable.element config e
  have hone : (Encoder.element config (.map 1)).BeginsWith (.map 1) := .element rfl
  have hvariant (name : String) : (Encoder.variant config name).BeginsWith (.map 1) :=
    hone.seq (helement _) (Blind.stable.bytes config _)
  have hblindVariant (name : String) : Blind (Encoder.variant config name) :=
    Blind.stable.variant config name
  cases d with
  | seq len items =>
    cases h
    cases len with
    | some len => exact .seq (.element rfl) (helement _) (hitems items)
    | none => exact .afterwards (.element rfl) (helement _) _
  | map len entries =>
    cases h
    cases len with
    | some len => exact .seq (.element rfl) (helement _) (hentries entries)
    | none => exact .afterwards (.element rfl) (helement _) _
  | collectSeq hint items =>
    cases h
    exact .seq (.element rfl) (helement _)
      (Blind.stable.seq (hitems items) (Blind.stable.check _ _))
  | collectMap hint entries =>
    cases h
    exact .seq (.element rfl) (helement _)
      (Blind.stable.seq (hentries entries) (Blind.stable.check _ _))
  | tuple items | tupleStruct name items =>
    cases h
    exact .seq (.element rfl) (helement _) (hitems items)
  | struct name fields =>
    cases h
    exact .seq (.element rfl) (helement _) (hfields fields)
  | newtypeVariant type name content =>
    cases h
    exact .seq (hvariant name) (hblindVariant name) (hblind content)
  | tupleVariant type name items =>
    cases h
    exact .seq (hvariant name) (hblindVariant name) (Blind.stable.seq (helement _) (hitems items))
  | structVariant type name fields =>
    cases h
    exact .seq (hvariant name) (hblindVariant name) (Blind.stable.seq (helement _) (hfields fields))
  | timestamp t =>
    cases h
    exact .seq (.element rfl) (helement _) (Blind.stable.time config t)
  | unitStruct name =>
    cases h
    have hnil : (Encoder.element config .nil).BeginsWith .nil := .element rfl
    exact hnil
  | _ => cases h

/-- Where the outermost node is something else, what is written begins with no raw. -/
theorem not_startsWithRaw (h : d.leading? = some e)
    (hwrites : (d.encode config .empty).Writes bytes) : ¬Wire.StartsWithRaw data bytes := by
  intro hstarts
  have hnone (len : Nat) : d.leading? ≠ some (.raw len) := by
    cases d <;> exact nofun
  obtain ⟨header, rest, hheader, rfl⟩ := beginsWith_leading h hwrites
  obtain ⟨header', rest', hheader', heq⟩ := hstarts
  rw [List.append_assoc] at heq
  exact hnone _ (h.trans (congrArg some (hheader.append_inj hheader' heq).1))

/-- Data that is written as a raw where no type has a codec is written so by default, or not at
all: the codec for timestamps makes nothing of a raw. -/
theorem encode_default_of_raw : (d : Data) → {plain written : List UInt8} →
    (d.encode {} .empty).Writes plain → Wire.StartsWithRaw data plain →
    (d.encode {} .default).Writes written → written = plain
  | .present content, _, _, hempty, hraw, hdefault =>
    content.encode_default_of_raw hempty hraw hdefault
  | .newtype name content, plain, _, hempty, hraw, hdefault => by
    rw [encode] at hempty hdefault
    split_ifs at hempty hdefault with hname
    · exact hdefault.unique hempty
    · rw [Registry.default, Registry.get?_register] at hdefault
      split_ifs at hdefault with htime
      · have hcaptured : Encoder.capture (content.encode {} .empty) = .ok (.raw data) :=
          Encoder.capture_eq_raw_iff.mpr ⟨plain, hempty.buffered, hraw⟩
        rw [hcaptured] at hdefault
        exact (Encoder.not_writes_throw hdefault).elim
      · exact content.encode_default_of_raw hempty hraw hdefault
  | .bool _, _, _, hempty, _, hdefault | .int _ _, _, _, hempty, _, hdefault
  | .f32 _, _, _, hempty, _, hdefault | .f64 _, _, _, hempty, _, hdefault
  | .char _, _, _, hempty, _, hdefault | .text _, _, _, hempty, _, hdefault
  | .bytes _, _, _, hempty, _, hdefault | .unit, _, _, hempty, _, hdefault
  | .absent, _, _, hempty, _, hdefault | .human, _, _, hempty, _, hdefault
  | .value _, _, _, hempty, _, hdefault | .integer _, _, _, hempty, _, hdefault
  | .unitVariant _ _, _, _, hempty, _, hdefault | .coder _, _, _, hempty, _, hdefault =>
    hdefault.unique hempty
  | .timestamp _, _, _, hempty, hraw, _ | .seq _ _, _, _, hempty, hraw, _
  | .map _ _, _, _, hempty, hraw, _ | .collectSeq _ _, _, _, hempty, hraw, _
  | .collectMap _ _, _, _, hempty, hraw, _ | .tuple _, _, _, hempty, hraw, _
  | .tupleStruct _ _, _, _, hempty, hraw, _ | .unitStruct _, _, _, hempty, hraw, _
  | .struct _ _, _, _, hempty, hraw, _ | .newtypeVariant _ _ _, _, _, hempty, hraw, _
  | .tupleVariant _ _ _, _, _, hempty, hraw, _ | .structVariant _ _ _, _, _, hempty, hraw, _ =>
    (not_startsWithRaw rfl hempty hraw).elim

/-- The type name of the node, if it has one that a registry may know. -/
def Frame.typeName? : Frame → Option String
  | tupleStruct name _ | newtype name | struct name _ => some name
  | _ => none

/-- Data is handed over as something that writes its own bytes, anywhere but below a node of a type
with a codec, and such that a raw can hold the bytes. -/
inductive Precodes : Data → Data → Prop
  | here {d : Data} {bytes : List UInt8}
      (encoded : Encoder.buffered (d.encode {} .default) = .ok bytes)
      (fits : bytes.length ≤ maxLength) : Precodes d (.coder (d.encode {} .default))
  | inside (frame : Frame) {d d' : Data}
      (unregistered : ∀ name, frame.typeName? = some name → Registry.default.get? name = none)
      (step : Precodes d d') : Precodes (frame.fill d) (frame.fill d')

/-- A node without a type name has no codec. -/
theorem Precodes.inside_unnamed (frame : Frame) {d d' : Data} (hname : frame.typeName? = none)
    (step : Precodes d d') : Precodes (frame.fill d) (frame.fill d') :=
  .inside frame (fun name h => absurd (h.symm.trans hname) (Option.some_ne_none name)) step

/-- By default the same bytes are written. Below a newtype of bytes that are there already, no type
has a codec: there the same bytes are written if they begin with a raw, as they must. -/
theorem Precodes.followed {d d' : Data} (h : Precodes d d') :
    (d.encode {} .default).FollowedBy (d'.encode {} .default) ∧
      ∀ ⦃data plain⦄, (d.encode {} .empty).Writes plain → Wire.StartsWithRaw data plain →
        (d'.encode {} .empty).Writes plain := by
  induction h with
  | @here d bytes hencoded hfits =>
    have hblind : Blind (d.encode {} .default) := encode_blind {} Registry.blind_default d
    have hdefault := hblind.writes hencoded
    have hcoder := Encoder.coder_writes {} hdefault hfits
    refine ⟨⟨hblind, fun bytes' hwrites => ?_⟩, fun data plain hplain hraw => ?_⟩
    · obtain rfl := hwrites.unique hdefault
      exact hcoder
    · obtain rfl := d.encode_default_of_raw hplain hraw hdefault
      exact hcoder
  | @inside frame d d' hunregistered step ih =>
    obtain ⟨hfollow, hraw⟩ := ih
    have hverbatim : (Encoder.verbatim (Encoder.capture (d.encode {} .empty))).FollowedBy
        (Encoder.verbatim (Encoder.capture (d'.encode {} .empty))) := by
      refine ⟨Blind.stable.verbatim _, fun data hwrites => Encoder.verbatim_writes_iff.mpr ?_⟩
      obtain ⟨plain, hbuffered, hstarts⟩ :=
        Encoder.capture_eq_raw_iff.mp (Encoder.verbatim_writes_iff.mp hwrites)
      have hplain := (encode_blind {} Registry.blind_empty d).writes hbuffered
      exact Encoder.capture_eq_raw_iff.mpr ⟨plain, (hraw hplain hstarts).buffered, hstarts⟩
    constructor
    · by_cases hopen : frame.IsOpen .default
      · exact Frame.encode_related Encoding.FollowedBy.congruent Registry.blind_default hopen
          hfollow
      -- what is left is bytes that are there already and what writes its own
      cases frame with
      | tupleStruct name place | struct name place => exact absurd (hunregistered name rfl) hopen
      | newtype name =>
        have hname : name = Encoder.coderName := by
          by_contra hname
          exact hopen ⟨hname, hunregistered name rfl⟩
        rw [Frame.fill, Frame.fill, encode, encode, if_pos hname, if_pos hname]
        exact hverbatim
      | coder => exact hfollow.coder {}
      | _ => exact absurd trivial hopen
    · intro data plain hplain hstarts
      cases frame with
      | present => exact hraw hplain hstarts
      | newtype name =>
        rw [Frame.fill, encode] at hplain ⊢
        split_ifs at hplain ⊢
        · exact hverbatim.2 hplain
        · exact hraw hplain hstarts
      | coder => exact (hfollow.coder {}).2 hplain
      | _ => exact (not_startsWithRaw rfl hplain hstarts).elim

/-- Any number of parts of the data may write their own bytes, one inside the other as well: what is
written by default stays the same. -/
theorem encode_precoded {d d' : Data} (h : Relation.ReflTransGen Precodes d d')
    {bytes : List UInt8} (hbytes : Encoder.buffered (d.encode {} .default) = .ok bytes) :
    Encoder.buffered (d'.encode {} .default) = .ok bytes := by
  induction h with
  | refl => exact hbytes
  | tail _ step ih => exact step.followed.1.buffered ih

/-- The key of an entry, a timestamp in a variant, and the sequence of unknown length around that,
which then holds one that writes its own bytes. -/
theorem encode_precoded_map :
    let own (d : Data) : Data := .coder (d.encode {} .default)
    let items (d : Data) : Data := .seq none [.newtypeVariant "E" "V" d]
    let time : Data := .timestamp (.new 1 2)
    let d : Data := .map none [(.text "k", items time)]
    let d' : Data := .map none [(own (.text "k"), own (items (own time)))]
    Relation.ReflTransGen Precodes d d' ∧
      Encoder.buffered (d.encode {} .default) =
        .ok [0x81, 0xa1, 0x6b, 0x91, 0x81, 0xa1, 0x56, 0x01, 0x02] ∧
      Encoder.buffered (d'.encode {} .default) =
        .ok [0x81, 0xa1, 0x6b, 0x91, 0x81, 0xa1, 0x56, 0x01, 0x02] := by
  intro own items time d d'
  have hkey : Encoder.buffered ((Data.text "k").encode {} .default) = .ok [0xa1, 0x6b] := by
    decide +kernel
  have htime : Encoder.buffered (time.encode {} .default) = .ok [0x01, 0x02] := by
    subst time
    decide +kernel
  have hitems : Encoder.buffered ((items time).encode {} .default) =
      .ok [0x91, 0x81, 0xa1, 0x56, 0x01, 0x02] := by
    subst items time
    decide +kernel
  have hbytes : Encoder.buffered (d.encode {} .default) =
      .ok [0x81, 0xa1, 0x6b, 0x91, 0x81, 0xa1, 0x56, 0x01, 0x02] := by
    subst d items time
    decide +kernel
  have hinner : Precodes (items time) (items (own time)) :=
    .inside_unnamed (.seq none ⟨[], []⟩) rfl <|
      .inside_unnamed (.newtypeVariant "E" "V") rfl (.here htime (by decide))
  have houter : Precodes (items (own time)) (own (items (own time))) :=
    .here (hinner.followed.1.buffered hitems) (by decide)
  have hvalue {v v' : Data} (h : Precodes v v') :
      Precodes (.map none [(.text "k", v)]) (.map none [(.text "k", v')]) :=
    .inside_unnamed (.map none (.asValue [] (.text "k") [])) rfl h
  have hlast : Precodes (.map none [(.text "k", own (items (own time)))]) d' :=
    .inside_unnamed (.map none (.asKey [] (own (items (own time))) [])) rfl
      (.here hkey (by decide))
  have hsteps : Relation.ReflTransGen Precodes d d' :=
    ((Relation.ReflTransGen.single (hvalue hinner)).tail (hvalue houter)).tail hlast
  exact ⟨hsteps, hbytes, encode_precoded hsteps hbytes⟩

end Data

end MessagePack
