import MessagePack.Proofs.Elementwise.Basic
import MessagePack.Proofs.InStep.Tables
import MessagePack.Proofs.Value.Failure
import MessagePack.Proofs.Wire.CutRaw

namespace MessagePack

open Decoder
open Wire (CutRaw Element IsHeader Leads Marker Streams)

variable {α β : Type}

namespace Decoding

/-- Where the reading is cut short, it is not in the payload of a raw. -/
def SparesPayloads (reading : Decoding α) : Prop :=
  ∀ ⦃d n s⦄, reading d ≠ .error (.truncated .payload n) s

namespace SparesPayloads

theorem pure (a : α) : SparesPayloads (Pure.pure a) := nofun

theorem throw {e : Error} (own : e.isReadFailure = false) :
    SparesPayloads (α := α) (MonadExcept.throw e) := by
  intro d n s h
  cases h
  cases own

theorem bind {first : Decoding α} {next : α → Decoding β} (head : SparesPayloads first)
    (tail : ∀ a, SparesPayloads (next a)) : SparesPayloads (first >>= next) := by
  intro d n s h
  cases hfirst : first d with
  | ok a mid => exact tail a ((bind_of_ok hfirst).symm.trans h)
  | error e mid =>
    cases (bind_of_error hfirst).symm.trans h
    exact head hfirst

theorem inside {step : Nesting → Option UInt8 → Except Error α × Nesting × Option UInt8}
    (own : ∀ nesting peeked, Sourceless (step nesting peeked).1) :
    SparesPayloads (Decoder.inside step) := by
  intro d n s h
  unfold Decoder.inside at h
  split at h
  · cases h
  · rename_i e nesting peeked hstep
    cases h
    cases own d.nesting d.peeked _ (congrArg Prod.fst hstep)

theorem exactly {step : Step} (hstep : step ≠ .payload) (count : Nat) :
    SparesPayloads (Decoder.exactly step count) := by
  intro d n s h
  unfold Decoder.exactly at h
  split at h
  · cases h
  · cases h
    exact hstep rfl
  · simp only [Error.ofRead, EStateM.Result.error.injEq] at h
    obtain ⟨herror, -⟩ := h
    split at herror
    · cases herror
      exact hstep rfl
    · cases herror

end SparesPayloads

theorem limit_spares : SparesPayloads limit := .inside fun _ _ => .ok _

theorem peekTag_spares : SparesPayloads peekTag := by
  rw [peekTag_eq]
  refine .bind (.inside fun _ _ => .ok _) fun tag? => ?_
  cases tag? with
  | some tag => exact .pure tag
  | none =>
    exact .bind (.exactly (by simp) 1) fun bytes =>
      .bind (.inside fun _ _ => .ok _) fun _ => .pure _

theorem peekMarker_spares : SparesPayloads peekMarker :=
  peekTag_spares.bind fun _ => .pure _

theorem enter_spares (e : Element) : SparesPayloads (enter e) := by
  intro d n s h
  unfold enter at h
  split at h
  · cases h
  · rename_i e hnesting
    simp only [Nesting.enter] at hnesting
    split at hnesting <;> cases hnesting
    cases h

/-- Only what is read behind a raw's header is its payload. -/
theorem nextElement_spares : SparesPayloads nextElement := by
  have hfield (marker : Marker) : SparesPayloads (field marker) := by
    unfold field
    split
    · exact .pure 0
    · exact .bind (.exactly (by simp) _) fun _ => .pure _
  rw [nextElement_eq]
  refine peekTag_spares.bind fun tag => .bind (.inside fun _ _ => .ok _) fun _ => ?_
  refine (hfield _).bind fun n => ?_
  split
  · exact .throw rfl
  · exact (enter_spares _).bind fun _ => .pure _

end Decoding

open Decoding

namespace Decoder

/-- The session has read, of these bytes in memory, elements up to the payload of the last one, of
which so many bytes come next. -/
structure Stands (bytes : List UInt8) (owed : Nat) (d : Decoder) : Prop where
  inMemory : d.source.InMemory
  place : ∃ before, bytes = before ++ d.ahead ∧ Leads owed before
  peeked : 0 < owed → d.peeked = none

variable {bytes : List UInt8} {owed len : Nat} {d d' : Decoder}

theorem stands_new (bytes : List UInt8) (config : Config) (tables : Option FieldCache) :
    Stands bytes 0 { new (.ofBytes bytes) config with tables } where
  inMemory := Source.inMemory_ofBytes bytes
  place := ⟨[], rfl, .whole .nil⟩
  peeked := nofun

theorem past_inMemory (h : d.source.InMemory) (n : Nat) : (d.past n).source.InMemory :=
  ⟨past_steady h.steady n, (past_failure n d).trans h.failure⟩

namespace Stands

theorem tables (h : Stands bytes owed d) (tables : Option FieldCache) :
    Stands bytes owed { d with tables } :=
  ⟨h.inMemory, h.place, h.peeked⟩

/-- Between elements a look at the next tag leaves the session where it is. -/
theorem peekMarker {marker : Marker} (h : Stands bytes 0 d)
    (hpeek : peekMarker d = .ok marker d') : Stands bytes 0 d' := by
  obtain ⟨tag, mid, htag, hmarker⟩ := bind_eq_ok_iff.mp hpeek
  obtain ⟨-, rfl⟩ := pure_eq_ok_iff.mp hmarker
  obtain ⟨⟨rest, hahead⟩, rfl⟩ := (peekTag_eq_ok_iff h.inMemory.steady).mp htag
  obtain ⟨before, hbytes, hleads⟩ := h.place
  refine ⟨h.inMemory.advance _, ⟨before, ?_, hleads⟩, nofun⟩
  rw [ahead_looked hahead, ← hahead]
  exact hbytes

/-- Behind the header of an element its payload comes next. -/
theorem nextElement {e : Element} (h : Stands bytes 0 d) (hnext : nextElement d = .ok e d') :
    Stands bytes e.payload d' := by
  obtain ⟨header, rest, nesting, hheader, hahead, -, rfl⟩ :=
    (nextElement_eq_ok_iff h.inMemory.steady).mp hnext
  obtain ⟨before, hbytes, hleads⟩ := h.place
  have hnothing : ([] : List UInt8).length = 0 := rfl
  obtain ⟨elements, hstreams⟩ := hleads.exists_streams hnothing
  rw [List.append_nil] at hstreams
  have hrest : (d.past header.length).ahead = rest := ahead_past hahead
  refine ⟨past_inMemory h.inMemory _, ⟨before ++ header, ?_, .header hstreams hheader⟩,
    fun _ => past_peeked hheader.length_pos d⟩
  change bytes = before ++ header ++ (d.past header.length).ahead
  rw [hrest, List.append_assoc, ← hahead]
  exact hbytes

/-- Where a payload is there, the session goes on behind it. -/
theorem payload {data : List UInt8} (h : Stands bytes len d)
    (hdata : Decoder.payload len d = .ok data d') : Stands bytes 0 d' := by
  rcases Nat.eq_zero_or_pos len with rfl | hpos
  · have hnothing := payload_of_le h.inMemory.steady (Nat.zero_le d.source.rest.length)
    cases hnothing.symm.trans hdata
    exact h
  · obtain ⟨rest, hahead, hlen, rfl⟩ :=
      (payload_eq_ok_iff h.inMemory.steady (h.peeked hpos)).mp hdata
    obtain ⟨before, hbytes, hleads⟩ := h.place
    obtain ⟨elements, hstreams⟩ := hleads.exists_streams hlen
    have hrest : (d.past len).ahead = rest := hlen ▸ ahead_past hahead
    refine ⟨past_inMemory h.inMemory len, ⟨before ++ data, ?_, .whole hstreams⟩, nofun⟩
    rw [hrest, List.append_assoc, ← hahead]
    exact hbytes

/-- Where too few bytes of a payload are left, all the bytes end in it. -/
theorem cutRaw (h : Stands bytes len d) (hshort : d.source.rest.length < len) :
    CutRaw bytes len d.source.rest := by
  have hahead : d.ahead = d.source.rest := by
    rw [ahead, h.peeked (Nat.zero_lt_of_lt hshort)]
    rfl
  obtain ⟨before, hbytes, hleads⟩ := h.place
  rw [hbytes, hahead]
  exact hleads.cutRaw hshort

end Stands

end Decoder

namespace Decoding

/-- The bytes end in the payload of a raw, and `n` says how many bytes of it are missing, or, where
it is a structure's key that is read all at once, how many it has. -/
def TellsMissing (bytes : List UInt8) (reading : Decoding α) (d : Decoder) (n : Nat) : Prop :=
  ∃ len present, CutRaw bytes len present ∧ (n = len - present.length ∨
    present ≠ [] ∧ n = len ∧ CutKey reading d (.truncated .payload len)
      (.truncated .payload (len - present.length)))

variable {bytes : List UInt8} {owed : Nat} {d : Decoder}

theorem TellsMissing.mono {part : Decoding α} {whole : Decoding β} {d' : Decoder} {n : Nat}
    (hcomes : ∀ {γ : Type} {key : Decoding γ} {mid : Decoder},
      ComesTo key mid part d → ComesTo key mid whole d') (h : TellsMissing bytes part d n) :
    TellsMissing bytes whole d' n := by
  obtain ⟨len, present, hcut, hcount⟩ := h
  refine ⟨len, present, hcut, hcount.imp_right fun hkey => ?_⟩
  exact ⟨hkey.1, hkey.2.1, hkey.2.2.mono hcomes⟩

/-- The reading takes the session from one element to another, and where it is cut short in the
payload of a raw it tells what is missing. -/
structure Accounts (bytes : List UInt8) (reading : Decoding α) (d : Decoder) : Prop where
  answer : ∀ ⦃a d'⦄, reading d = .ok a d' → Stands bytes 0 d'
  cut : ∀ ⦃n s⦄, reading d = .error (.truncated .payload n) s → TellsMissing bytes reading d n

namespace Accounts

variable {first : Decoding α} {next : α → Decoding β}

theorem bind
    (cut : ∀ ⦃n s⦄, first d = .error (.truncated .payload n) s → TellsMissing bytes first d n)
    (steps : Stepwise first)
    (tail : ∀ ⦃a d'⦄, first d = .ok a d' → Accounts bytes (next a) d') :
    Accounts bytes (first >>= next) d := by
  cases hfirst : first d with
  | ok a mid =>
    have hrest := tail hfirst
    refine ⟨fun b d' hok => ?_, fun n s herror => ?_⟩
    · exact hrest.answer ((bind_of_ok hfirst).symm.trans hok)
    · exact (hrest.cut ((bind_of_ok hfirst).symm.trans herror)).mono (.next steps hfirst)
  | error e mid =>
    refine ⟨fun b d' hok => ?_, fun n s herror => ?_⟩
    · cases (bind_of_error hfirst).symm.trans hok
    · cases (bind_of_error hfirst).symm.trans herror
      exact (cut hfirst).mono .first

/-- What is never cut short in a payload has nothing to tell. -/
theorem of_spares {reading : Decoding α} (h : SparesPayloads reading)
    (answer : ∀ ⦃a d'⦄, reading d = .ok a d' → Stands bytes 0 d') : Accounts bytes reading d :=
  ⟨answer, fun _ _ herror => (h herror).elim⟩

theorem payload {len : Nat} (hd : Stands bytes len d) :
    Accounts bytes (Decoder.payload len) d where
  answer _ _ hok := hd.payload hok
  cut n s herror := by
    rcases Nat.lt_or_ge d.source.rest.length len with hshort | hlong
    · have hrun := payload_of_lt hd.inMemory.steady hshort
      rw [hd.inMemory.failure] at hrun
      cases hrun.symm.trans herror
      exact ⟨len, d.source.rest, hd.cutRaw hshort, .inl rfl⟩
    · cases (payload_of_le hd.inMemory.steady hlong).symm.trans herror

/-- A key that is read all at once is told the whole length of, unless nothing of it is there. -/
theorem key {len : Nat} (fields : Fields) (hd : Stands bytes len d) :
    Accounts bytes (Entries.keyBytes fields len) d := by
  by_cases hkey : len ≤ min fields.longest Entries.shortKey
  · refine ⟨fun a d' hok => hd.payload (Entries.keyBytes_eq_ok_iff.mp hok), fun n s herror => ?_⟩
    have hread : Entries.keyBytes fields len = exactly .payload len := if_pos hkey
    rcases Nat.lt_or_ge d.source.rest.length len with hshort | hlong
    · have hrun : exactly .payload len d = _ := exactly_of_lt hd.inMemory.steady hshort
      rw [hd.inMemory.failure, ← hread] at hrun
      cases hrun.symm.trans herror
      refine ⟨len, d.source.rest, hd.cutRaw hshort, ?_⟩
      -- the error gives the length of the key, which is what is missing only if nothing is there
      by_cases hnone : d.source.rest = []
      · left
        rw [hnone]
        rfl
      · right
        exact ⟨hnone, rfl, fields, len, d, .here, hkey, hshort, rfl, rfl⟩
    · have hrun : exactly .payload len d = _ := exactly_of_le hd.inMemory.steady hlong
      rw [← hread] at hrun
      cases hrun.symm.trans herror
  · have hread : Entries.keyBytes fields len = Decoder.payload len := if_neg hkey
    rw [hread]
    exact payload hd

theorem fieldsOf {name : String} {names : List String} {next : Option Fields → Decoding α}
    (hd : Stands bytes 0 d)
    (tail : ∀ table d', Stands bytes 0 d' → Accounts bytes (next table) d') :
    Accounts bytes (Decoder.fieldsOf name names >>= next) d := by
  obtain ⟨tables, hfields, -⟩ := fieldsOf_eq name names d
  have hrest := tail (d.tables.map fun _ => .ofNames names) _ (hd.tables tables)
  refine ⟨fun a d' hok => ?_, fun n s herror => ?_⟩
  · exact hrest.answer ((bind_of_ok hfields).symm.trans hok)
  · exact (hrest.cut ((bind_of_ok hfields).symm.trans herror)).mono (.fieldsOf hfields)

end Accounts

/-- What reads from element to element accounts for every byte that it takes: by induction on how
the reading is put together, the session standing behind one part where the next begins. -/
theorem Elementwise.accounts {reading : Decoding α} (h : Elementwise owed reading)
    (hd : Stands bytes owed d) : Accounts bytes reading d := by
  induction h generalizing d with
  | pure a =>
    refine .of_spares (.pure a) fun b d' hok => ?_
    obtain ⟨-, rfl⟩ := pure_eq_ok_iff.mp hok
    exact hd
  | throw _ own => exact .of_spares (.throw own) fun b d' hok => absurd hok throw_ne_ok
  | bind head _ ihHead ihTail =>
    refine .bind (ihHead hd).cut head.stepwise fun a d' hfirst => ?_
    exact ihTail a ⟨d, d', hfirst⟩ ((ihHead hd).answer hfirst)
  | limit =>
    refine .of_spares limit_spares fun levels d' hok => ?_
    cases hok
    exact hd
  | peekMarker => exact .of_spares peekMarker_spares fun marker d' hok => hd.peekMarker hok
  | element _ ih =>
    refine .bind (fun n s herror => (nextElement_spares herror).elim) nextElement_stepwise ?_
    intro e d' hnext
    exact ih e (hd.nextElement hnext)
  | payload len => exact .payload hd
  | key fields len => exact .key fields hd
  | fieldsOf _ _ ih => exact .fieldsOf hd fun table d' hd' => ih table hd'

end Decoding

/-- Whatever type is read from bytes in memory, where it is cut short in the payload of a raw the
bytes end in one, and the error tells how many bytes of it are missing. Only for a structure's key
that is read all at once, and of which there is some, the error gives the length of the whole key
instead. -/
theorem Shape.read_cut_raw {registry : Registry} (hregistry : registry.Elementwise)
    (shape : Shape) (bytes : List UInt8) (config : Config) (tables : Option FieldCache) {n : Nat}
    {s : Decoder} (h : shape.read registry .wire { new (.ofBytes bytes) config with tables } =
      .error (.truncated .payload n) s) :
    ∃ len present, CutRaw bytes len present ∧ (n = len - present.length ∨
      present ≠ [] ∧ n = len ∧
        CutKey (shape.read registry .wire) { new (.ofBytes bytes) config with tables }
          (.truncated .payload len) (.truncated .payload (len - present.length))) :=
  ((shape.read_elementwise hregistry .wire).accounts (stands_new bytes config tables)).cut h

/-- A structure and a text that is cut short: three of its five bytes are missing. -/
theorem Shape.read_cut_raw_text :
    let shape : Shape := .tuple [.struct "P" [("key", .bool)] false, .text]
    let bytes : List UInt8 := [0x92, 0x81, 0xa3, 0x6b, 0x65, 0x79, 0xc3, 0xa5, 0x61, 0x62]
    Registry.default.Elementwise ∧
      (∃ s, shape.read .default .wire (new (.ofBytes bytes) {}) =
        .error (.truncated .payload 3) s) ∧
      ∃ len present, CutRaw bytes len present ∧ (3 = len - present.length ∨
        present ≠ [] ∧ 3 = len ∧ CutKey (shape.read .default .wire) (new (.ofBytes bytes) {})
          (.truncated .payload len) (.truncated .payload (len - present.length))) := by
  intro shape bytes
  have hall : result ((shape.read .default .wire).seen fun _ _ => ())
      (new (.ofBytes bytes) {}) = .error (.truncated .payload 3) := by decide +kernel
  obtain ⟨s, hread⟩ := error_of_seen hall
  exact ⟨Registry.elementwise_default, ⟨s, hread⟩,
    Shape.read_cut_raw Registry.elementwise_default shape bytes {} (some {}) hread⟩

/-- A structure's key of three bytes, one of which is there: two are missing, and the error says
three. -/
theorem Shape.key_cut_counted_whole :
    let shape : Shape := .struct "P" [("bcd", .bool)] false
    let bytes : List UInt8 := [0x81, 0xa3, 0x62]
    (∃ s, shape.read .default .wire (new (.ofBytes bytes) {}) =
      .error (.truncated .payload 3) s) ∧
      ∀ len present, CutRaw bytes len present → 3 ≠ len - present.length := by
  intro shape bytes
  have hall : result ((shape.read .default .wire).seen fun _ _ => ())
      (new (.ofBytes bytes) {}) = .error (.truncated .payload 3) := by decide +kernel
  have hmap : IsHeader (.map 1) [0x81] := Wire.isHeader_cons_iff.mpr ⟨rfl, rfl⟩
  have hraw : IsHeader (.raw 3) [0xa3] := Wire.isHeader_cons_iff.mpr ⟨rfl, rfl⟩
  have hcut : CutRaw bytes 3 [0x62] := .intro (.header hmap rfl) hraw (by decide)
  refine ⟨error_of_seen hall, fun len present h => ?_⟩
  obtain ⟨rfl, rfl⟩ := hcut.unique h
  decide

end MessagePack
