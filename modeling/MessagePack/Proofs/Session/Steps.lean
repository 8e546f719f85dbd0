import MessagePack.Decoder.Basic
import MessagePack.Proofs.Nesting.EnterAll
import MessagePack.Proofs.Session.Source
import MessagePack.Proofs.Wire.IsHeader

namespace MessagePack

namespace Decoding

variable {α β : Type} {d d' : Decoder}

theorem pure_eq_ok_iff {a b : α} : (pure a : Decoding α) d = .ok b d' ↔ a = b ∧ d = d' := by
  change EStateM.Result.ok a d = .ok b d' ↔ _
  rw [EStateM.Result.ok.injEq]

theorem throw_ne_ok {e : Error} {a : α} : (throw e : Decoding α) d ≠ .ok a d' := by
  change EStateM.Result.error e d ≠ _
  exact nofun

/-- A reading in two steps comes out well exactly when both do. -/
theorem bind_eq_ok_iff {first : Decoding α} {next : α → Decoding β} {b : β} :
    (first >>= next) d = .ok b d' ↔
      ∃ a mid, first d = .ok a mid ∧ next a mid = .ok b d' := by
  simp only [bind, EStateM.bind]
  cases first d with
  | ok a mid => simp
  | error e mid => simp

theorem bind_of_ok {first : Decoding α} {next : α → Decoding β} {a : α}
    (h : first d = .ok a d') : (first >>= next) d = next a d' := by
  simp only [bind, EStateM.bind, h]

theorem bind_of_error {first : Decoding α} {next : α → Decoding β} {e : Error}
    (h : first d = .error e d') : (first >>= next) d = .error e d' := by
  simp only [bind, EStateM.bind, h]

theorem tryCatch_of_ok {first : Decoding α} {handler : Error → Decoding α} {a : α}
    (h : first d = .ok a d') : tryCatch first handler d = .ok a d' := by
  simp only [tryCatch, tryCatchThe, MonadExceptOf.tryCatch, EStateM.tryCatch, h]

theorem tryCatch_of_error {first : Decoding α} {handler : Error → Decoding α} {e : Error}
    (h : first d = .error e d') : tryCatch first handler d = handler e d' := by
  simp only [tryCatch, tryCatchThe, MonadExceptOf.tryCatch, EStateM.tryCatch, h]
  rfl

theorem get_bind {next : Decoder → Decoding β} : (get >>= next) d = next d d := rfl

theorem modify_bind {f : Decoder → Decoder} {next : PUnit → Decoding β} :
    (modify f >>= next) d = next () (f d) := rfl

theorem ofExcept_eq_ok_iff {r : Except Error α} {a : α} :
    Decoding.ofExcept r d = .ok a d' ↔ r = .ok a ∧ d = d' := by
  cases r with
  | ok b => rw [ofExcept, pure_eq_ok_iff, Except.ok.injEq]
  | error e => simpa [ofExcept] using throw_ne_ok

theorem result_eq_ok_iff {reading : Decoding α} {a : α} :
    Decoder.result reading d = .ok a ↔ ∃ d', reading d = .ok a d' := by
  unfold Decoder.result
  cases reading d <;> simp

theorem result_eq_error_iff {reading : Decoding α} {e : Error} :
    Decoder.result reading d = .error e ↔ ∃ d', reading d = .error e d' := by
  unfold Decoder.result
  cases reading d <;> simp

/-- What a look at the answer and at the session behind it shows. -/
def seen (reading : Decoding α) (look : α → Decoder → β) : Decoding β := do
  return look (← reading) (← get)

theorem exists_of_seen {reading : Decoding α} {look : α → Decoder → β} {b : β}
    (h : Decoder.result (reading.seen look) d = .ok b) :
    ∃ a d', reading d = .ok a d' ∧ look a d' = b := by
  obtain ⟨last, hok⟩ := result_eq_ok_iff.mp h
  obtain ⟨a, d', hread, hlook⟩ := bind_eq_ok_iff.mp hok
  refine ⟨a, d', hread, ?_⟩
  rw [get_bind, pure_eq_ok_iff] at hlook
  exact hlook.1

/-- A look at the answer has no part in an error. -/
theorem error_of_seen {reading : Decoding α} {look : α → Decoder → β} {e : Error}
    (h : Decoder.result (reading.seen look) d = .error e) : ∃ d', reading d = .error e d' := by
  obtain ⟨last, herror⟩ := result_eq_error_iff.mp h
  unfold seen at herror
  cases hread : reading d with
  | ok a d' =>
    rw [bind_of_ok hread] at herror
    cases herror
  | error e' d' =>
    rw [bind_of_error hread] at herror
    obtain ⟨rfl, -⟩ := EStateM.Result.error.inj herror
    exact ⟨d', rfl⟩

end Decoding

namespace Decoder

open Wire (Element IsHeader)
open Decoding

/-- The bytes still to be read, a tag that has been looked at included. -/
def ahead (d : Decoder) : List UInt8 :=
  d.peeked.toList ++ d.source.rest

/-- The session after its next `n` bytes; a tag that has been looked at is the first of them. -/
def past (n : Nat) (d : Decoder) : Decoder :=
  if n = 0 then d
  else { d with source := d.source.advance (n - d.peeked.toList.length), peeked := none }

/-- The session after a look at the tag that comes next. -/
def looked (tag : UInt8) (d : Decoder) : Decoder :=
  { d with
    source := d.source.advance (1 - d.peeked.toList.length)
    peeked := some tag }

/-- Every read brings something, and the open containers are accounted for. -/
structure Sound (d : Decoder) : Prop where
  steady : d.source.Steady
  nesting : d.nesting.Sound

theorem sound_new (bytes : List UInt8) (config : Config) :
    Sound (new (.ofBytes bytes) config) :=
  ⟨Source.steady_ofBytes bytes, Nesting.sound_empty config.maxDepth⟩

variable {d d' : Decoder}

@[simp] theorem ahead_new (bytes : List UInt8) (config : Config) :
    (new (.ofBytes bytes) config).ahead = bytes := rfl

@[simp] theorem past_zero (d : Decoder) : d.past 0 = d := rfl

theorem past_of_pos {n : Nat} (h : 0 < n) (d : Decoder) : d.past n =
    { d with source := d.source.advance (n - d.peeked.toList.length), peeked := none } :=
  if_neg (Nat.ne_of_gt h)

theorem past_of_peeked_none {d : Decoder} (hp : d.peeked = none) (n : Nat) :
    d.past n = { d with source := d.source.advance n } := by
  obtain ⟨source, nesting, peeked, tables⟩ := d
  obtain rfl : peeked = none := hp
  cases n <;> rfl

@[simp] theorem past_nesting (n : Nat) (d : Decoder) : (d.past n).nesting = d.nesting := by
  unfold past
  split <;> rfl

theorem past_steady {d : Decoder} (h : d.source.Steady) (n : Nat) :
    (d.past n).source.Steady := by
  unfold past
  split <;> exact h

theorem past_peeked {n : Nat} (h : 0 < n) (d : Decoder) : (d.past n).peeked = none := by
  rw [past_of_pos h]

/-- What a session knows besides its bytes has no part in how it passes them. -/
theorem past_update (n : Nat) (d : Decoder) (nesting : Nesting) (tables : Option FieldCache) :
    past n { d with nesting, tables } = { d.past n with nesting, tables } := by
  unfold past
  split <;> rfl

theorem past_enter (n : Nat) (d : Decoder) (nesting : Nesting) :
    past n { d with nesting } = { d.past n with nesting } := by
  unfold past
  split <;> rfl

theorem ahead_past {b rest : List UInt8} (h : d.ahead = b ++ rest) :
    (d.past b.length).ahead = rest := by
  obtain ⟨source, nesting, peeked, tables⟩ := d
  cases b with
  | nil => simpa using h
  | cons first b =>
    cases peeked with
    | none =>
      simp only [ahead, Option.toList_none, List.nil_append] at h
      simp [ahead, past, Source.advance, h]
    | some tag =>
      simp only [ahead, Option.toList_some, List.cons_append, List.nil_append,
        List.cons.injEq] at h
      simp [ahead, past, Source.advance, h.2]

theorem past_past (a b : Nat) (d : Decoder) : (d.past a).past b = d.past (a + b) := by
  obtain ⟨source, nesting, peeked, tables⟩ := d
  by_cases ha : a = 0
  · simp [ha]
  · by_cases hb : b = 0
    · simp [hb]
    · cases peeked with
      | none => simp [past, ha, hb, Source.advance_advance]
      | some tag =>
        have hsum : a - 1 + b = a + b - 1 := by omega
        simp [past, ha, hb, Source.advance_advance, hsum]

section

variable {d : Decoder} (hs : d.source.Steady)

include hs

theorem exactly_of_le {step : Step} {count : Nat} (h : count ≤ d.source.rest.length) :
    exactly step count d =
      .ok (d.source.rest.take count) { d with source := d.source.advance count } := by
  rw [exactly, Source.fill_eq hs, if_pos h]

theorem exactly_of_lt {step : Step} {count : Nat} (h : d.source.rest.length < count) :
    exactly step count d = .error
      (match d.source.failure with
        | none => .truncated step count
        | some fault => .ofRead step count fault)
      { d with source := d.source.advance d.source.rest.length } := by
  rw [exactly, Source.fill_eq hs, if_neg (Nat.not_le_of_lt h)]
  unfold Source.exhausted
  cases d.source.failure <;> rfl

theorem payload_of_le {len : Nat} (h : len ≤ d.source.rest.length) :
    payload len d = .ok (d.source.rest.take len) { d with source := d.source.advance len } := by
  rw [payload, Source.fill_eq hs, if_pos h]

theorem payload_of_lt {len : Nat} (h : d.source.rest.length < len) :
    payload len d = .error
      (match d.source.failure with
        | none => .truncated .payload (len - d.source.rest.length)
        | some fault => .io fault)
      { d with source := d.source.advance d.source.rest.length } := by
  rw [payload, Source.fill_eq hs, if_neg (Nat.not_le_of_lt h)]
  unfold Source.exhausted
  cases d.source.failure <;> rfl

end

theorem exactly_eq_ok_iff {step : Step} {count : Nat} {bytes : List UInt8}
    (hs : d.source.Steady) (hp : d.peeked = none) :
    exactly step count d = .ok bytes d' ↔
      ∃ rest, d.ahead = bytes ++ rest ∧ bytes.length = count ∧ d' = d.past count := by
  have hahead : d.ahead = d.source.rest := by simp [ahead, hp]
  rw [exactly, Source.fill_eq hs, hahead, past_of_peeked_none hp]
  by_cases h : count ≤ d.source.rest.length
  · rw [if_pos h]
    simp only [EStateM.Result.ok.injEq]
    constructor
    · intro hparts
      obtain ⟨rfl, rfl⟩ := hparts
      exact ⟨d.source.rest.drop count, (List.take_append_drop _ _).symm, by simp [h], rfl⟩
    · intro hparts
      obtain ⟨rest, hrest, rfl, rfl⟩ := hparts
      exact ⟨by rw [hrest, List.take_left], rfl⟩
  · rw [if_neg h]
    constructor
    · intro hbad
      unfold Source.exhausted at hbad
      cases hf : d.source.failure <;> simp [hf] at hbad
    · intro hparts
      obtain ⟨rest, hrest, rfl, -⟩ := hparts
      rw [hrest, List.length_append] at h
      omega

theorem payload_eq_ok_iff_exactly (step : Step) {len : Nat} {bytes : List UInt8} :
    payload len d = .ok bytes d' ↔ exactly step len d = .ok bytes d' := by
  unfold payload exactly
  split <;> simp_all

theorem payload_eq_ok_iff {len : Nat} {bytes : List UInt8} (hs : d.source.Steady)
    (hp : d.peeked = none) :
    payload len d = .ok bytes d' ↔
      ∃ rest, d.ahead = bytes ++ rest ∧ bytes.length = len ∧ d' = d.past len := by
  rw [payload_eq_ok_iff_exactly .payload, exactly_eq_ok_iff hs hp]

theorem ahead_looked {tag : UInt8} {rest : List UInt8} (h : d.ahead = tag :: rest) :
    (d.looked tag).ahead = tag :: rest := by
  obtain ⟨source, nesting, peeked, tables⟩ := d
  cases peeked with
  | none =>
    simp only [ahead, Option.toList_none, List.nil_append] at h
    simp [ahead, looked, Source.advance, h]
  | some t =>
    simp only [ahead, Option.toList_some, List.cons_append, List.nil_append,
      List.cons.injEq] at h
    simp [ahead, looked, Source.advance, h.2]

/-- A look changes nothing about where the session is once the tag has been taken. -/
theorem past_looked {n : Nat} (hn : 0 < n) (tag : UInt8) (d : Decoder) :
    (d.looked tag).past n = d.past n := by
  obtain ⟨source, nesting, peeked, tables⟩ := d
  have hn : n ≠ 0 := Nat.ne_of_gt hn
  cases peeked with
  | none =>
    have hsum : 1 + (n - 1) = n := by omega
    simp [past, looked, hn, Source.advance_advance, hsum]
  | some t => simp [past, looked, hn, Source.advance_zero]

theorem peekTag_eq_ok_iff {tag : UInt8} (hs : d.source.Steady) :
    peekTag d = .ok tag d' ↔ (∃ rest, d.ahead = tag :: rest) ∧ d' = d.looked tag := by
  rw [peekTag, get_bind]
  obtain ⟨source, nesting, peeked, tables⟩ := d
  cases peeked with
  | some t =>
    simp only [pure_eq_ok_iff, ahead, looked, Option.toList_some, List.cons_append,
      List.nil_append, List.cons.injEq, exists_and_left]
    constructor
    · intro hparts
      obtain ⟨rfl, rfl⟩ := hparts
      exact ⟨⟨rfl, _, rfl⟩, rfl⟩
    · intro hparts
      obtain ⟨⟨rfl, -⟩, rfl⟩ := hparts
      exact ⟨rfl, rfl⟩
  | none =>
    rw [bind_eq_ok_iff]
    constructor
    · intro hparts
      obtain ⟨bytes, mid, hread, hrest⟩ := hparts
      obtain ⟨rest, hahead, hlen, rfl⟩ := (exactly_eq_ok_iff hs rfl).mp hread
      obtain ⟨b, rfl⟩ := List.length_eq_one_iff.mp hlen
      rw [modify_bind, pure_eq_ok_iff] at hrest
      obtain ⟨rfl, rfl⟩ := hrest
      exact ⟨⟨rest, hahead⟩, rfl⟩
    · intro hparts
      obtain ⟨⟨rest, hahead⟩, rfl⟩ := hparts
      exact ⟨[tag], _, (exactly_eq_ok_iff hs rfl).mpr ⟨rest, hahead, rfl, rfl⟩, rfl⟩

theorem field_eq_ok_iff {marker : Wire.Marker} {n : Nat} (hs : d.source.Steady)
    (hp : d.peeked = none) :
    field marker d = .ok n d' ↔ ∃ bytes rest, d.ahead = bytes ++ rest ∧
      bytes.length = marker.fieldWidth ∧ Wire.ofBigEndian bytes = n ∧
      d' = d.past marker.fieldWidth := by
  unfold field
  by_cases hw : marker.fieldWidth = 0
  · rw [if_pos hw, pure_eq_ok_iff, hw, past_zero]
    constructor
    · intro hparts
      obtain ⟨rfl, rfl⟩ := hparts
      exact ⟨[], d.ahead, rfl, rfl, rfl, rfl⟩
    · intro hparts
      obtain ⟨bytes, rest, -, hlen, rfl, rfl⟩ := hparts
      obtain rfl := List.length_eq_zero_iff.mp hlen
      exact ⟨rfl, rfl⟩
  · rw [if_neg hw, bind_eq_ok_iff]
    constructor
    · intro hparts
      obtain ⟨bytes, mid, hread, hpure⟩ := hparts
      obtain ⟨rest, hahead, hlen, rfl⟩ := (exactly_eq_ok_iff hs hp).mp hread
      obtain ⟨rfl, rfl⟩ := pure_eq_ok_iff.mp hpure
      exact ⟨bytes, rest, hahead, hlen, rfl, rfl⟩
    · intro hparts
      obtain ⟨bytes, rest, hahead, hlen, rfl, rfl⟩ := hparts
      exact ⟨bytes, _, (exactly_eq_ok_iff hs hp).mpr ⟨rest, hahead, hlen, rfl⟩, rfl⟩

theorem enter_eq_ok_iff {e : Element} {u : Unit} :
    enter e d = .ok u d' ↔
      ∃ nesting, d.nesting.enter e = .ok nesting ∧ d' = { d with nesting } := by
  unfold enter
  cases d.nesting.enter e with
  | ok nesting => simp [eq_comm]
  | error err => simp

/-- The next element is read exactly when its header comes next and the nesting has room for it. -/
theorem nextElement_eq_ok_iff {e : Element} (hs : d.source.Steady) :
    nextElement d = .ok e d' ↔ ∃ header rest nesting, IsHeader e header ∧
      d.ahead = header ++ rest ∧ d.nesting.enter e = .ok nesting ∧
      d' = { d.past header.length with nesting } := by
  rw [nextElement, bind_eq_ok_iff]
  constructor
  · intro hparts
    obtain ⟨tag, mid, hpeek, hrest⟩ := hparts
    obtain ⟨⟨tail, hahead⟩, rfl⟩ := (peekTag_eq_ok_iff hs).mp hpeek
    have htail : (d.past 1).ahead = tail := ahead_past (b := [tag]) hahead
    rw [modify_bind] at hrest
    obtain ⟨n, after, hfield, hmatch⟩ := bind_eq_ok_iff.mp hrest
    obtain ⟨bytes, rest, hbytes, hlen, rfl, rfl⟩ :=
      (field_eq_ok_iff (d := d.past 1) hs rfl).mp hfield
    cases helement : Element.ofField (Wire.ofBigEndian bytes) (.ofByte tag) with
    | none =>
      rw [helement] at hmatch
      exact absurd hmatch throw_ne_ok
    | some element =>
      rw [helement] at hmatch
      obtain ⟨_, last, henter, hpure⟩ := bind_eq_ok_iff.mp hmatch
      obtain ⟨nesting, hok, rfl⟩ := enter_eq_ok_iff.mp henter
      obtain ⟨rfl, rfl⟩ := pure_eq_ok_iff.mp hpure
      rw [past_nesting, past_nesting] at hok
      refine ⟨tag :: bytes, rest, nesting, Wire.isHeader_cons_iff.mpr ⟨hlen, helement⟩, ?_, hok, ?_⟩
      · rw [hahead, ← htail, hbytes]
        rfl
      · rw [List.length_cons, ← hlen, past_past, Nat.add_comm]
  · intro hparts
    obtain ⟨header, rest, nesting, hheader, hahead, henter, rfl⟩ := hparts
    obtain ⟨tag, bytes, rfl⟩ := hheader.exists_cons
    obtain ⟨hlen, helement⟩ := Wire.isHeader_cons_iff.mp hheader
    have htail : (d.past 1).ahead = bytes ++ rest :=
      ahead_past (b := [tag]) hahead
    have hpast : (d.past 1).past bytes.length = d.past (tag :: bytes).length := by
      rw [past_past, List.length_cons, Nat.add_comm]
    have hfield : field (.ofByte tag) (d.past 1) =
        .ok (Wire.ofBigEndian bytes) ((d.past 1).past (Wire.Marker.ofByte tag).fieldWidth) :=
      (field_eq_ok_iff (d := d.past 1) hs rfl).mpr ⟨bytes, rest, htail, hlen, rfl, rfl⟩
    refine ⟨tag, _, (peekTag_eq_ok_iff hs).mpr ⟨⟨_, hahead⟩, rfl⟩, ?_⟩
    rw [modify_bind]
    change (field (.ofByte tag) >>= _) (d.past 1) = _
    rw [bind_of_ok hfield, helement, ← hlen, hpast]
    exact bind_eq_ok_iff.mpr ⟨(), _, enter_eq_ok_iff.mpr ⟨nesting, henter, rfl⟩, rfl⟩

theorem length_of_exactly {step : Step} {count : Nat} {bytes : List UInt8} {d d' : Decoder}
    (h : exactly step count d = .ok bytes d') : bytes.length = count := by
  unfold exactly at h
  split at h
  · rename_i got source hfill
    cases h
    exact Source.length_of_fill hfill
  · cases h
  · cases h

theorem exists_of_field {marker : Wire.Marker} {n : Nat} {d d' : Decoder}
    (h : field marker d = .ok n d') :
    ∃ bytes : List UInt8, bytes.length = marker.fieldWidth ∧ Wire.ofBigEndian bytes = n := by
  unfold field at h
  split_ifs at h with hwidth
  · obtain ⟨rfl, -⟩ := pure_eq_ok_iff.mp h
    exact ⟨[], hwidth.symm, rfl⟩
  · obtain ⟨bytes, mid, hbytes, hpure⟩ := bind_eq_ok_iff.mp h
    obtain ⟨rfl, -⟩ := pure_eq_ok_iff.mp hpure
    exact ⟨bytes, length_of_exactly hbytes, rfl⟩

/-- Whatever the source, a session reads no element but one that has a header. -/
theorem exists_header_of_nextElement {e : Element} {d d' : Decoder}
    (h : nextElement d = .ok e d') : ∃ header, IsHeader e header := by
  obtain ⟨tag, mid, -, hrest⟩ := bind_eq_ok_iff.mp h
  rw [modify_bind] at hrest
  obtain ⟨n, after, hfield, hmatch⟩ := bind_eq_ok_iff.mp hrest
  obtain ⟨bytes, hlength, rfl⟩ := exists_of_field hfield
  cases helement : Element.ofField (Wire.ofBigEndian bytes) (.ofByte tag) with
  | none =>
    rw [helement] at hmatch
    exact absurd hmatch throw_ne_ok
  | some element =>
    rw [helement] at hmatch
    obtain ⟨_, last, -, hpure⟩ := bind_eq_ok_iff.mp hmatch
    obtain ⟨rfl, -⟩ := pure_eq_ok_iff.mp hpure
    exact ⟨tag :: bytes, Wire.isHeader_cons_iff.mpr ⟨hlength, helement⟩⟩

end Decoder

end MessagePack
