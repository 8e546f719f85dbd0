import MessagePack.Proofs.Value.Carries
import MessagePack.Proofs.Writing.Meaning
import MessagePack.Proofs.Writing.Precoded
import MessagePack.Proofs.Writing.Restyled

namespace MessagePack

open Encoding (Blind Writes)
open Wire (Carries Element IsHeader)

namespace Wire

theorem Element.items_announced (policy : IntPolicy) (e : Element) :
    (e.announced policy).items = e.items := by
  cases e with
  | int n =>
    rw [announced]
    split_ifs <;> rfl
  | _ => rfl

theorem Element.payload_announced (policy : IntPolicy) (e : Element) :
    (e.announced policy).payload = e.payload := by
  cases e with
  | int n =>
    rw [announced]
    split_ifs <;> rfl
  | _ => rfl

/-- One complete element, however deep, is the spelling of a value. -/
theorem exists_spelledBy_iff {bytes : List UInt8} :
    (∃ v : Value, v.SpelledBy bytes) ↔ ∃ height, Carries 1 height bytes := by
  simp only [Carries.one_iff]
  exact ⟨fun ⟨v, hv⟩ => ⟨v.height, v, hv, Nat.le_refl _⟩, fun ⟨_, v, hv, _⟩ => ⟨v, hv⟩⟩

end Wire

/-- All that the encoding hands over, if it comes out well, is a number of complete elements. -/
structure Encoding.WritesWhole (encoding : Encoding Unit) (count : Nat) : Prop where
  blind : Blind encoding
  exists_height {bytes : List UInt8} (h : encoding.Writes bytes) :
    ∃ height, Carries count height bytes

namespace Encoding.WritesWhole

variable {encoding first second body : Encoding Unit} {count count' : Nat} (config : Config)

theorem nothing : WritesWhole (pure ()) 0 where
  blind := Blind.stable.nothing
  exists_height h := by
    obtain rfl := h.unique .nothing
    exact ⟨0, .nothing⟩

theorem seq (h : WritesWhole first count) (h' : WritesWhole second count') :
    WritesWhole (first >>= fun _ => second) (count + count') where
  blind := Blind.stable.seq h.blind h'.blind
  exists_height hwrites := by
    obtain ⟨bytes, bytes', hfirst, hsecond, rfl⟩ := h.blind.exists_writes h'.blind hwrites
    obtain ⟨height, hcarries⟩ := h.exists_height hfirst
    obtain ⟨height', hcarries'⟩ := h'.exists_height hsecond
    exact ⟨max height height', (hcarries.mono (Nat.le_max_left _ _)).append
      (hcarries'.mono (Nat.le_max_right _ _))⟩

/-- An encoding that never comes out well hands over nothing that would have to be complete. -/
theorem of_ne_ok (hblind : Blind encoding)
    (h : ∀ sink sink', encoding sink ≠ .ok () sink') (count : Nat) :
    WritesWhole encoding count where
  blind := hblind
  exists_height hwrites := by
    obtain ⟨sink', hok, -⟩ := hwrites Sink.takesAll_unlimited
    exact absurd hok (h _ _)

/-- An encoding that ends like one that writes whole elements writes whole elements itself. -/
theorem of_alike (h : WritesWhole first count) (hblind : Blind second)
    (halike : Encoding.Alike True first second) : WritesWhole second count where
  blind := hblind
  exists_height hwrites := by
    obtain ⟨outcome, outcome', hends, hends', hsame⟩ := halike
    obtain rfl := hends'.buffered.symm.trans hwrites.buffered
    cases outcome with
    | ok bytes =>
      obtain rfl := Option.some.inj hsame.1
      exact h.exists_height hends
    | error e => exact nomatch hsame.1

theorem of_value (v : Value) : WritesWhole (Encoder.value config v) 1 where
  blind := Blind.stable.value config v
  exists_height hwrites := by
    have hv := Value.spelledBy_of_buffered hwrites.buffered
    exact ⟨v.height, Carries.one_iff.mpr ⟨v, hv, Nat.le_refl _⟩⟩

end Encoding.WritesWhole

/-- What the encoding leaves to the side, if it comes out well, is one complete element. -/
def Encoding.LeavesElement (encoding : Encoding Unit) : Prop :=
  ∀ bytes, Encoder.buffered encoding = .ok bytes → ∃ v : Value, v.SpelledBy bytes

/-- Bytes that are written as they are, if they are one complete element. -/
theorem Encoding.WritesWhole.verbatim {encoding : Encoding Unit}
    (h : ∀ data, Encoder.capture encoding = .ok (.raw data) → ∃ v : Value, v.SpelledBy data) :
    WritesWhole (Encoder.verbatim (Encoder.capture encoding)) 1 where
  blind := Blind.stable.verbatim _
  exists_height hwrites :=
    Wire.exists_spelledBy_iff.mp (h _ (Encoder.verbatim_writes_iff.mp hwrites))

/-- A raw with the bytes of something is taken apart to just these bytes. -/
theorem Encoding.WritesWhole.coder (config : Config) {write : Encoding Unit}
    (h : write.LeavesElement) : WritesWhole (Encoder.coder config write) 1 where
  blind := Blind.stable.coder config write
  exists_height hwrites := by
    cases hbody : Encoder.buffered write with
    | error e =>
      rw [Encoder.coder, hbody] at hwrites
      exact (Encoder.not_writes_throw hwrites).elim
    | ok body =>
      rw [Encoder.coder, hbody] at hwrites
      have hcaptured := Encoder.verbatim_writes_iff.mp hwrites
      obtain ⟨whole, dropped, hbytes, hspelled, -⟩ := Encoder.capture_eq_ok_iff.mp hcaptured
      have hraw : (Value.raw body).SpelledBy (whole ++ dropped) :=
        Value.spelledBy_of_buffered hbytes
      obtain ⟨hsame, -, -⟩ := hspelled.append_inj hraw (List.append_nil _).symm
      obtain rfl := Value.raw.inj hsame
      exact Wire.exists_spelledBy_iff.mp (h _ hbody)

/-- An element comes out well as a header that announces it. -/
theorem Encoding.Writes.isHeader {config : Config} {e : Element} {header : List UInt8}
    (h : Writes (Encoder.element config e) header) :
    IsHeader (e.announced config.intPolicy) header := by
  obtain ⟨sink', hok, -⟩ := h Sink.takesAll_unlimited
  obtain ⟨written, hheader, hwrites⟩ :=
    Writes.exists_element config (Encoder.length_le_of_element hok)
  obtain rfl := h.unique hwrites
  exact hheader

namespace Encoding.WritesWhole

variable {body : Encoding Unit} (config : Config)

/-- A header and as many complete elements as it announces. -/
theorem container {e : Element} (hpayload : e.payload = 0) (h : WritesWhole body e.items) :
    WritesWhole (Encoder.element config e >>= fun _ => body) 1 where
  blind := Blind.stable.seq (Blind.stable.element config e) h.blind
  exists_height hwrites := by
    have hblind : Blind (Encoder.element config e) := Blind.stable.element config e
    obtain ⟨header, bytes, hheader, hbody, rfl⟩ := hblind.exists_writes h.blind hwrites
    obtain ⟨height, hcarries⟩ := h.exists_height hbody
    rw [← Element.payload_announced config.intPolicy] at hpayload
    rw [← Element.items_announced config.intPolicy] at hcarries
    exact ⟨height + 1, .bare hheader.isHeader hpayload hcarries⟩

theorem scalar {e : Element} (hpayload : e.payload = 0) (hitems : e.items = 0) :
    WritesWhole (Encoder.element config e) 1 := by
  have hnone : WritesWhole (pure ()) e.items := hitems ▸ nothing
  have h := container config hpayload hnone
  rwa [show (Encoder.element config e >>= fun _ => pure ()) = Encoder.element config e from
    bind_pure_unit] at h

theorem raw (data : List UInt8) : WritesWhole (Encoder.bytes config data) 1 :=
  of_value config (.raw data)

theorem int (k : IntKind) (n : Int) : WritesWhole (Encoder.kind config k n) 1 := by
  unfold Encoder.kind
  split_ifs
  · exact of_ne_ok (Blind.stable.throw _) (fun _ _ => nofun) 1
  · exact scalar config rfl rfl
  · exact scalar config rfl rfl

theorem timePair (t : Timestamp) : WritesWhole (Encoder.timePair config t) 1 :=
  container config rfl ((scalar config rfl rfl).seq (scalar config rfl rfl))

/-- A variant is a map of one entry, from its name to its contents. -/
theorem variant (name : String) (h : WritesWhole body 1) :
    WritesWhole (Encoder.variant config name >>= fun _ => body) 1 := by
  unfold Encoder.variant
  rw [bind_assoc]
  exact container config rfl ((raw config _).seq h)

end Encoding.WritesWhole

namespace Data

mutual

/-- Sequences and maps announce no wrong length, and nothing in the data writes bytes of its own. A
wrong hint is allowed: it is noticed. -/
def Truthful : Data → Prop
  | present content | newtypeVariant _ _ content => content.Truthful
  | seq len items => Announced len items.length ∧ AllTruthful items
  | map len entries => Announced len entries.length ∧ PairsTruthful entries
  | collectSeq _ items | tuple items | tupleStruct _ items | tupleVariant _ _ items =>
    AllTruthful items
  | collectMap _ entries => PairsTruthful entries
  | newtype name content => name ≠ Encoder.coderName ∧ content.Truthful
  | struct _ fields | structVariant _ _ fields => FieldsTruthful fields
  | coder _ => False
  | _ => True

def AllTruthful : List Data → Prop
  | [] => True
  | d :: rest => d.Truthful ∧ AllTruthful rest

def PairsTruthful : List (Data × Data) → Prop
  | [] => True
  | (k, v) :: rest => k.Truthful ∧ v.Truthful ∧ PairsTruthful rest

def FieldsTruthful : List (String × Data) → Prop
  | [] => True
  | (_, d) :: rest => d.Truthful ∧ FieldsTruthful rest

end

section

variable (config : Config)

mutual

/-- Sequences and maps announce no wrong length, and whatever writes bytes of its own, also as a
newtype that is written as it is, writes one complete element. -/
def Sincere : Data → Prop
  | present content | newtypeVariant _ _ content => content.Sincere
  | seq len items => Announced len items.length ∧ AllSincere items
  | map len entries => Announced len entries.length ∧ PairsSincere entries
  | collectSeq _ items | tuple items | tupleStruct _ items | tupleVariant _ _ items =>
    AllSincere items
  | collectMap _ entries => PairsSincere entries
  | newtype name content =>
    if name = Encoder.coderName then
      ∀ data, Encoder.capture (content.encode config .empty) = .ok (.raw data) →
        ∃ v : Value, v.SpelledBy data
    else content.Sincere
  | struct _ fields | structVariant _ _ fields => FieldsSincere fields
  | coder write => write.LeavesElement
  | _ => True

def AllSincere : List Data → Prop
  | [] => True
  | d :: rest => d.Sincere ∧ AllSincere rest

def PairsSincere : List (Data × Data) → Prop
  | [] => True
  | (k, v) :: rest => k.Sincere ∧ v.Sincere ∧ PairsSincere rest

def FieldsSincere : List (String × Data) → Prop
  | [] => True
  | (_, d) :: rest => d.Sincere ∧ FieldsSincere rest

end

mutual

/-- What writes no bytes of its own has nothing to be checked in them. -/
theorem Truthful.sincere : (d : Data) → d.Truthful → d.Sincere config
  | .present content, h => Truthful.sincere content h
  | .seq _ items, h => ⟨h.1, AllTruthful.sincere items h.2⟩
  | .map _ entries, h => ⟨h.1, PairsTruthful.sincere entries h.2⟩
  | .collectSeq _ items, h | .tuple items, h | .tupleStruct _ items, h
  | .tupleVariant _ _ items, h => AllTruthful.sincere items h
  | .collectMap _ entries, h => PairsTruthful.sincere entries h
  | .newtype name content, h => by
    have hcontent := Truthful.sincere content h.2
    rwa [Sincere, if_neg h.1]
  | .newtypeVariant _ _ content, h => Truthful.sincere content h
  | .struct _ fields, h | .structVariant _ _ fields, h => FieldsTruthful.sincere fields h
  | .coder _, h => h.elim
  | .bool _, _ | .int _ _, _ | .f32 _, _ | .f64 _, _ | .char _, _ | .text _, _ | .bytes _, _
  | .unit, _ | .absent, _ | .human, _ | .value _, _ | .integer _, _ | .timestamp _, _
  | .unitStruct _, _ | .unitVariant _ _, _ => trivial

theorem AllTruthful.sincere : (items : List Data) → AllTruthful items → AllSincere config items
  | [], _ => trivial
  | d :: rest, h => ⟨Truthful.sincere d h.1, AllTruthful.sincere rest h.2⟩

theorem PairsTruthful.sincere : (entries : List (Data × Data)) → PairsTruthful entries →
    PairsSincere config entries
  | [], _ => trivial
  | (k, v) :: rest, h =>
    ⟨Truthful.sincere k h.1, Truthful.sincere v h.2.1, PairsTruthful.sincere rest h.2.2⟩

theorem FieldsTruthful.sincere : (fields : List (String × Data)) → FieldsTruthful fields →
    FieldsSincere config fields
  | [], _ => trivial
  | (_, d) :: rest, h => ⟨Truthful.sincere d h.1, FieldsTruthful.sincere rest h.2⟩

end

end

open Encoding (WritesWhole)

variable (config : Config)

/-- However a sequence of the items is written without announcing a wrong length. -/
theorem known_items_whole {items : List Data} {late : Bool} {d : Data}
    (h : WritesWhole (encodeItems config .empty items) items.length)
    (hd : IsSequence items late d) : WritesWhole (d.encode config .empty) 1 := by
  have hknown : WritesWhole ((seq (some items.length) items).encode config .empty) 1 :=
    .container config rfl h
  have halike : Alike True (fun _ => False) (seq (some items.length) items) d :=
    hd.alike fun _ _ => trivial
  exact hknown.of_alike (encode_blind config Registry.blind_empty d)
    (halike config .empty Registry.blind_empty nofun)

theorem known_entries_whole {entries : List (Data × Data)} {late : Bool} {d : Data}
    (h : WritesWhole (encodeEntries config .empty entries) (2 * entries.length))
    (hd : IsMapping entries late d) : WritesWhole (d.encode config .empty) 1 := by
  have hknown : WritesWhole ((map (some entries.length) entries).encode config .empty) 1 :=
    .container config rfl h
  have halike : Alike True (fun _ => False) (map (some entries.length) entries) d :=
    hd.alike fun _ _ => trivial
  exact hknown.of_alike (encode_blind config Registry.blind_empty d)
    (halike config .empty Registry.blind_empty nofun)

mutual

theorem encode_sincere : (d : Data) → d.Sincere config → WritesWhole (d.encode config .empty) 1
  | .bool b, _ => .scalar config (e := .bool b) rfl rfl
  | .f32 bits, _ => .scalar config (e := .f32 bits) rfl rfl
  | .f64 bits, _ => .scalar config (e := .f64 bits) rfl rfl
  | .unit, _ | .absent, _ | .unitStruct _, _ => .scalar config (e := .nil) rfl rfl
  | .human, _ => .scalar config (e := .bool false) rfl rfl
  | .int k n, _ => .int config k n
  | .char _, _ | .text _, _ | .bytes _, _ | .unitVariant _ _, _ => .raw config _
  | .present content, h => content.encode_sincere h
  | .value v, _ => .of_value config v
  | .integer n, _ => .of_value config (.int n)
  | .timestamp t, _ => .timePair config t
  | .seq len items, h => by
    have hitems := items_sincere items h.2
    cases len with
    | none => exact known_items_whole config hitems .unknown
    | some len =>
      obtain rfl := h.1 len rfl
      exact known_items_whole config hitems .known
  | .map len entries, h => by
    have hentries := entries_sincere entries h.2
    cases len with
    | none => exact known_entries_whole config hentries .unknown
    | some len =>
      obtain rfl := h.1 len rfl
      exact known_entries_whole config hentries .known
  | .collectSeq hint items, h => by
    have hitems := items_sincere items h
    cases hint with
    | none => exact known_items_whole config hitems .collected
    | some len =>
      by_cases hlen : items.length = len
      · subst hlen
        exact known_items_whole config hitems .hinted
      · exact .of_ne_ok (encode_blind config Registry.blind_empty _)
          (collectSeq_ne_ok config .empty hlen) 1
  | .collectMap hint entries, h => by
    have hentries := entries_sincere entries h
    cases hint with
    | none => exact known_entries_whole config hentries .collected
    | some len =>
      by_cases hlen : entries.length = len
      · subst hlen
        exact known_entries_whole config hentries .hinted
      · exact .of_ne_ok (encode_blind config Registry.blind_empty _)
          (collectMap_ne_ok config .empty hlen) 1
  | .tuple items, h => .container config rfl (items_sincere items h)
  | .tupleStruct _ items, h => .container config rfl (items_sincere items h)
  | .newtype name content, h => by
    rw [Sincere] at h
    rw [encode]
    split_ifs at h ⊢
    · exact .verbatim h
    · exact content.encode_sincere h
  | .struct _ fields, h => .container config rfl (fields_sincere fields h)
  | .newtypeVariant _ name content, h => .variant config name (content.encode_sincere h)
  | .tupleVariant _ name items, h =>
    .variant config name (.container config rfl (items_sincere items h))
  | .structVariant _ name fields, h =>
    .variant config name (.container config rfl (fields_sincere fields h))
  | .coder write, h => .coder config h

theorem items_sincere : (items : List Data) → AllSincere config items →
    WritesWhole (encodeItems config .empty items) items.length
  | [], _ => .nothing
  | d :: rest, h => by
    rw [List.length_cons, Nat.add_comm]
    exact (d.encode_sincere h.1).seq (items_sincere rest h.2)

theorem entries_sincere : (entries : List (Data × Data)) → PairsSincere config entries →
    WritesWhole (encodeEntries config .empty entries) (2 * entries.length)
  | [], _ => .nothing
  | (k, v) :: rest, h => by
    have hentry := (v.encode_sincere h.2.1).seq (entries_sincere rest h.2.2)
    have hparts := (k.encode_sincere h.1).seq hentry
    have hcount : 2 * ((k, v) :: rest).length = 1 + (1 + 2 * rest.length) := by
      rw [List.length_cons]
      omega
    rw [hcount]
    exact hparts

theorem fields_sincere : (fields : List (String × Data)) → FieldsSincere config fields →
    WritesWhole (encodeFields config .empty fields) (2 * fields.length)
  | [], _ => .nothing
  | (name, d) :: rest, h => by
    have hparts := (WritesWhole.raw config (Text.utf8 name)).seq
      ((d.encode_sincere h.1).seq (fields_sincere rest h.2))
    have hcount : 2 * ((name, d) :: rest).length = 1 + (1 + 2 * rest.length) := by
      rw [List.length_cons]
      omega
    rw [hcount]
    exact hparts

end

theorem encode_whole (d : Data) (h : d.Truthful) : WritesWhole (d.encode config .empty) 1 :=
  d.encode_sincere config (Truthful.sincere config d h)

theorem items_whole (items : List Data) (h : AllTruthful items) :
    WritesWhole (encodeItems config .empty items) items.length :=
  items_sincere config items (AllTruthful.sincere config items h)

theorem entries_whole (entries : List (Data × Data)) (h : PairsTruthful entries) :
    WritesWhole (encodeEntries config .empty entries) (2 * entries.length) :=
  entries_sincere config entries (PairsTruthful.sincere config entries h)

/-- What a container is written as that announces its length is one complete element exactly if the
length is the true one. -/
theorem whole_iff_of_container {body : Encoding Unit} {e : Element} {count : Nat}
    {bytes : List UInt8} (hbody : WritesWhole body count) (hpayload : e.payload = 0)
    (hwrites : (Encoder.element config e >>= fun _ => body).Writes bytes) :
    (∃ v : Value, v.SpelledBy bytes) ↔ count = e.items := by
  have hblind : Blind (Encoder.element config e) := Blind.stable.element config e
  obtain ⟨header, contents, hheader, hcontents, rfl⟩ := hblind.exists_writes hbody.blind hwrites
  obtain ⟨height, hcarries⟩ := hbody.exists_height hcontents
  rw [← Element.payload_announced config.intPolicy] at hpayload
  rw [← Element.items_announced config.intPolicy e, Wire.exists_spelledBy_iff]
  exact Carries.header_iff hheader.isHeader hpayload hcarries

/-- Two items announced and one written: the bytes are no element. -/
theorem announced_not_whole :
    ((seq (some 2) [.int .u8 1]).encode {} .empty).Writes [0x92, 0x01] ∧
      ¬∃ v : Value, v.SpelledBy [0x92, 0x01] := by
  have hwrites : ((seq (some 2) [.int .u8 1]).encode {} .empty).Writes [0x92, 0x01] :=
    (encode_blind {} Registry.blind_empty _).writes (by decide +kernel)
  refine ⟨hwrites, ?_⟩
  have hitems := items_whole {} [.int .u8 1] ⟨trivial, trivial⟩
  rw [whole_iff_of_container {} hitems rfl hwrites]
  decide

/-- Whatever comes out well is one complete element, as long as no sequence or map announces a wrong
length. One that does comes out well all the same, but not as one element. -/
theorem encode_wellFormed :
    (∀ d : Data, d.Truthful → ∀ bytes, (d.encode config .empty).Writes bytes →
      ∃ v : Value, v.SpelledBy bytes) ∧
    (∀ announced items, AllTruthful items → ∀ bytes,
      ((seq (some announced) items).encode config .empty).Writes bytes →
        ((∃ v : Value, v.SpelledBy bytes) ↔ announced = items.length)) ∧
    ∀ announced entries, PairsTruthful entries → ∀ bytes,
      ((map (some announced) entries).encode config .empty).Writes bytes →
        ((∃ v : Value, v.SpelledBy bytes) ↔ announced = entries.length) := by
  refine ⟨fun d h bytes hwrites => ?_, fun announced items h bytes hwrites => ?_,
    fun announced entries h bytes hwrites => ?_⟩
  · exact Wire.exists_spelledBy_iff.mpr ((d.encode_whole config h).exists_height hwrites)
  · have hitems := items_whole config items h
    rw [whole_iff_of_container config hitems rfl hwrites]
    exact eq_comm
  · have hentries := entries_whole config entries h
    rw [whole_iff_of_container config hentries rfl hwrites]
    change 2 * entries.length = 2 * announced ↔ announced = entries.length
    omega

/-- A map of unknown length with an array in it, and a map that announces an entry it lacks. -/
theorem encode_wellFormed_map :
    let d : Data := .map none [(.text "a", .list [.int .u8 1, .absent])]
    let lying : Data := .map (some 1) []
    d.Truthful ∧ (d.encode {} .empty).Writes [0x81, 0xa1, 0x61, 0x92, 0x01, 0xc0] ∧
      (∃ v : Value, v.SpelledBy [0x81, 0xa1, 0x61, 0x92, 0x01, 0xc0]) ∧
      (lying.encode {} .empty).Writes [0x81] ∧ ¬∃ v : Value, v.SpelledBy [0x81] := by
  intro d lying
  have htruthful : d.Truthful :=
    ⟨nofun, trivial, ⟨fun n hn => (Option.some.inj hn).symm, trivial, trivial, trivial⟩, trivial⟩
  have hwrites : (d.encode {} .empty).Writes [0x81, 0xa1, 0x61, 0x92, 0x01, 0xc0] :=
    (encode_blind {} Registry.blind_empty d).writes (by decide +kernel)
  have hlying : (lying.encode {} .empty).Writes [0x81] :=
    (encode_blind {} Registry.blind_empty lying).writes (by decide +kernel)
  obtain ⟨hwhole, -, hmap⟩ := encode_wellFormed {}
  refine ⟨htruthful, hwrites, hwhole d htruthful _ hwrites, hlying, ?_⟩
  rw [hmap 1 [] trivial _ hlying]
  decide

end Data

end MessagePack
