import MessagePack.Proofs.Parallel.Basic
import MessagePack.Proofs.Session.Yields

namespace MessagePack

open Decoding
open Wire (Element Marker Recast Owing)

/-- What a reading finds around it where it is done again: what comes behind its bytes, and that up
to so many containers are open already, for which the limit there leaves room. -/
structure Surroundings where
  rest : List UInt8
  depth : Nat
  limit : Nat
  outerLimit : Nat
  room : limit + depth ≤ outerLimit

namespace Surroundings

variable {around : Surroundings} {inner outer : Nesting}

/-- The containers that are open in `inner` are open in `outer` as well, inside those around. -/
structure Hold (around : Surroundings) (inner outer : Nesting) : Prop where
  limit : inner.limit = around.limit
  outerLimit : outer.limit = around.outerLimit
  pending : ∃ opened, outer.pending = inner.pending ++ opened ∧ opened.length ≤ around.depth

private theorem countItem_append (inner opened : List Nat) :
    ∃ opened', Nesting.countItem (inner ++ opened) = Nesting.countItem inner ++ opened' ∧
      opened'.length = opened.length := by
  cases inner with
  | nil => exact ⟨_, rfl, Nesting.countItem_length opened⟩
  | cons n inner => exact ⟨opened, by cases n <;> rfl, rfl⟩

private theorem opened_append (e : Element) (inner opened : List Nat) :
    Nesting.opened e (inner ++ opened) = Nesting.opened e inner ++ opened := by
  cases e <;> rfl

private theorem dropWhile_append (inner opened : List Nat) :
    ∃ opened', (inner ++ opened).dropWhile (· == 0) = inner.dropWhile (· == 0) ++ opened' ∧
      opened'.length ≤ opened.length := by
  rw [List.dropWhile_append]
  split
  · rename_i hempty
    rw [List.isEmpty_iff.mp hempty]
    exact ⟨_, rfl, (List.dropWhile_sublist _).length_le⟩
  · exact ⟨opened, rfl, Nat.le_refl _⟩

/-- An element for which there is room inside is taken note of around it as well. -/
theorem Hold.enter (h : around.Hold inner outer) {e : Element} {next : Nesting}
    (hok : inner.enter e = .ok next) :
    ∃ next', outer.enter e = .ok next' ∧ around.Hold next next' := by
  obtain ⟨hlimit, houter, opened, hpending, hdepth⟩ := h
  obtain ⟨opened₁, hcounted, hlen⟩ := countItem_append inner.pending opened
  obtain ⟨opened₂, hdropped, hle⟩ :=
    dropWhile_append (Nesting.opened e (Nesting.countItem inner.pending)) opened₁
  have hroom := around.room
  have houterDepth : outer.depth = inner.depth + opened.length := by
    rw [Nesting.depth, hpending, List.length_append]
    rfl
  rw [Nesting.enter_eq] at hok ⊢
  by_cases hfits : inner.depth + (if e.isContainer then 1 else 0) ≤ inner.limit
  · rw [if_pos hfits] at hok
    cases hok
    rw [if_pos (by omega), hpending, hcounted, opened_append]
    exact ⟨_, rfl, hlimit, houter, opened₂, hdropped, by omega⟩
  · rw [if_neg hfits] at hok
    cases hok

end Surroundings

namespace Decoder

/-- The second session stands in these surroundings where the first stands without them. Both have
tables of fields. -/
structure Alongside (around : Surroundings) (d s : Decoder) : Prop where
  sound : d.Sound
  sound' : s.Sound
  nesting : around.Hold d.nesting s.nesting
  tables : d.tables ≠ none
  tables' : s.tables ≠ none

/-- What comes next in the second session are the elements that come next in the first. -/
structure Tracks (loose : Prop) (around : Surroundings) (d s : Decoder) : Prop
    extends Alongside around d s where
  ahead : Recast loose around.rest d.ahead s.ahead

/-- Both sessions stand behind the header of an element with so many bytes of payload. -/
structure Owes (loose : Prop) (len : Nat) (around : Surroundings) (d s : Decoder) : Prop
    extends Alongside around d s where
  peeked : d.peeked = none
  peeked' : s.peeked = none
  ahead : Owing loose around.rest len d.ahead s.ahead

variable {loose : Prop} {around : Surroundings} {d s : Decoder}

theorem Owes.tracks (h : Owes loose 0 around d s) : Tracks loose around d s :=
  ⟨h.toAlongside, .of_owing h.ahead⟩

theorem past_tables (n : Nat) (d : Decoder) : (d.past n).tables = d.tables := by
  unfold past
  split <;> rfl

/-- A session with tables has one for every structure. -/
theorem fieldsOf_of_tables {d : Decoder} (h : d.tables ≠ none) (name : String)
    (names : List String) : ∃ tables,
      fieldsOf name names d = .ok (some (.ofNames names)) { d with tables } ∧ tables ≠ none := by
  obtain ⟨tables, hlook, hnone⟩ := fieldsOf_eq name names d
  obtain ⟨cache, hcache⟩ := Option.ne_none_iff_exists'.mp h
  rw [hcache] at hlook
  exact ⟨tables, hlook, mt hnone.mp h⟩

/-- Where each session goes over some bytes, it stays with the other. -/
theorem Alongside.past (h : Alongside around d s) (n m : Nat) :
    Alongside around (d.past n) (s.past m) where
  sound := ⟨past_steady h.sound.steady n, past_nesting n d ▸ h.sound.nesting⟩
  sound' := ⟨past_steady h.sound'.steady m, past_nesting m s ▸ h.sound'.nesting⟩
  nesting := by
    rw [past_nesting, past_nesting]
    exact h.nesting
  tables := past_tables n d ▸ h.tables
  tables' := past_tables m s ▸ h.tables'

/-- An element that is read in the first session is read in the second, recast. -/
theorem Tracks.nextElement {e : Element} {d' : Decoder} (h : Tracks loose around d s)
    (hnext : nextElement d = .ok e d') : ∃ e' s', Decoder.nextElement s = .ok e' s' ∧
      e.Recast loose e' ∧ Owes loose e.payload around d' s' := by
  obtain ⟨header, tail, nesting, hheader, hahead, henter, rfl⟩ :=
    (nextElement_eq_ok_iff h.sound.steady).mp hnext
  have hrecast := h.ahead
  rw [hahead] at hrecast
  obtain ⟨e', header', tail', hheader', he, hahead', howing⟩ := hrecast.exists_header hheader
  obtain ⟨nesting', henter', hhold⟩ := h.nesting.enter henter
  refine ⟨e', _, (nextElement_eq_ok_iff h.sound'.steady).mpr
    ⟨header', tail', nesting', hheader', hahead', (he.enter_eq _).trans henter', rfl⟩, he, ?_⟩
  have hpast := h.toAlongside.past header.length header'.length
  refine ⟨⟨⟨hpast.sound.steady, (h.sound.nesting.enter henter).1⟩,
    ⟨hpast.sound'.steady, (h.sound'.nesting.enter henter').1⟩, hhold, hpast.tables, hpast.tables'⟩,
    past_peeked hheader.length_pos d, past_peeked hheader'.length_pos s, ?_⟩
  have hleft : (d.past header.length).ahead = tail := ahead_past hahead
  have hleft' : (s.past header'.length).ahead = tail' := ahead_past hahead'
  change Owing loose around.rest e.payload (d.past header.length).ahead
    (s.past header'.length).ahead
  rw [hleft, hleft']
  exact howing

/-- A payload that is read in the first session is read in the second. -/
theorem Owes.payload {len : Nat} {data : List UInt8} {d' : Decoder} (h : Owes loose len around d s)
    (hdata : payload len d = .ok data d') :
    ∃ s', Decoder.payload len s = .ok data s' ∧ Tracks loose around d' s' := by
  obtain ⟨more, hahead, hlen, rfl⟩ := (payload_eq_ok_iff h.sound.steady h.peeked).mp hdata
  obtain ⟨more', hahead', hmore⟩ := h.ahead hahead hlen
  refine ⟨s.past len, (payload_eq_ok_iff h.sound'.steady h.peeked').mpr
    ⟨more', hahead', hlen, rfl⟩, h.toAlongside.past len len, ?_⟩
  rw [← hlen, ahead_past hahead, ahead_past hahead']
  exact hmore

/-- A look at the next tag shows tags of one kin. -/
theorem Tracks.peekMarker {marker : Marker} {d' : Decoder} (h : Tracks loose around d s)
    (hpeek : peekMarker d = .ok marker d') : ∃ marker' s', Decoder.peekMarker s = .ok marker' s' ∧
      marker.Kin marker' ∧ Tracks loose around d' s' := by
  obtain ⟨tag, mid, htag, hmarker⟩ := bind_eq_ok_iff.mp hpeek
  obtain ⟨rfl, rfl⟩ := pure_eq_ok_iff.mp hmarker
  obtain ⟨⟨tail, hahead⟩, rfl⟩ := (peekTag_eq_ok_iff h.sound.steady).mp htag
  have hrecast := h.ahead
  rw [hahead] at hrecast
  obtain ⟨tag', tail', hahead', hkin⟩ := hrecast.exists_tag
  have htag' := (peekTag_eq_ok_iff h.sound'.steady).mpr ⟨⟨tail', hahead'⟩, rfl⟩
  refine ⟨_, s.looked tag', bind_of_ok htag', hkin,
    ⟨(passed_looked h.sound hahead).sound h.sound, (passed_looked h.sound' hahead').sound h.sound',
      h.nesting, h.tables, h.tables'⟩, ?_⟩
  rw [ahead_looked hahead, ahead_looked hahead', ← hahead, ← hahead']
  exact h.ahead

/-- The same table of fields is found. -/
theorem Tracks.fieldsOf {name : String} {names : List String} {table : Option Fields}
    {d' : Decoder} (h : Tracks loose around d s) (hfields : fieldsOf name names d = .ok table d') :
    ∃ s', Decoder.fieldsOf name names s = .ok table s' ∧ Tracks loose around d' s' := by
  obtain ⟨tables, hlook, hsome⟩ := fieldsOf_of_tables h.tables name names
  obtain ⟨tables', hlook', hsome'⟩ := fieldsOf_of_tables h.tables' name names
  obtain ⟨rfl, rfl⟩ := EStateM.Result.ok.inj (hlook.symm.trans hfields)
  exact ⟨_, hlook', ⟨⟨h.sound.steady, h.sound.nesting⟩, ⟨h.sound'.steady, h.sound'.nesting⟩,
    h.nesting, hsome, hsome'⟩, h.ahead⟩

/-- How the sessions stand to each other, with so many bytes of payload before them if any. -/
def Behind (loose : Prop) : Option Nat → Surroundings → Decoder → Decoder → Prop
  | none => Tracks loose
  | some len => Owes loose len

theorem Owes.behind {e : Element} (h : Owes loose e.payload around d s) :
    Behind loose e.owed? around d s := by
  cases e with
  | raw len => exact h
  | _ => exact h.tracks

end Decoder

open Decoder

namespace Decoding

/-- From sessions that stand so to each other, the second reading comes to the answer of the first,
if there is one, and both sessions go on alike. -/
def Echoed {α : Type} (loose : Prop) (start : Surroundings → Decoder → Decoder → Prop)
    (first second : Decoding α) : Prop :=
  ∀ ⦃around d s a d'⦄, start around d s → first d = .ok a d' →
    ∃ s', second s = .ok a s' ∧ Tracks loose around d' s'

variable {α : Type} {loose : Prop}

/-- The reading makes the same of the same elements wherever they stand, whatever the widths of
their headers, and, where the form of integers does not count, of either form. -/
def Portable (loose : Prop) (reading : Decoding α) : Prop :=
  Echoed loose (Tracks loose) reading reading

end Decoding

/-- What two readings may be of which one makes the same of elements wherever they stand. -/
def Terms.portable (loose : Prop) : Terms where
  live := True
  codec := Portable loose
  spare := True
  loose := loose
  spare_of_loose _ := trivial

namespace Decoding

variable {α : Type} {loose : Prop}

/-- Where the first of two parallel readings comes to an answer, so does the second. -/
theorem Parallel.echoed {owed : Option Nat} {first second : Decoding α}
    (h : Parallel (.portable loose) owed first second) :
    Echoed loose (Behind loose owed) first second := by
  induction h with
  | pure a =>
    intro around d s b d' htracks h
    obtain ⟨rfl, rfl⟩ := pure_eq_ok_iff.mp h
    exact ⟨s, rfl, htracks⟩
  | throw | refused => exact fun _ _ _ _ _ _ h => absurd h throw_ne_ok
  | bind _ _ ihHead ihTail =>
    intro around d s b d' hstart h
    obtain ⟨a, mid, hfirst, hnext⟩ := bind_eq_ok_iff.mp h
    obtain ⟨mid', hsecond, hmid⟩ := ihHead hstart hfirst
    rw [bind_of_ok hsecond]
    exact ihTail a ⟨d, mid, hfirst⟩ hmid hnext
  | limit _ _ ih =>
    intro around d s a d' htracks h
    have hroom := around.room
    have hle : d.nesting.limit ≤ s.nesting.limit := by
      rw [htracks.nesting.limit, htracks.nesting.outerLimit]
      omega
    exact ih d.nesting.limit s.nesting.limit (.inr ⟨trivial, hle⟩) htracks h
  | peekMarker _ _ ih =>
    intro around d s a d' htracks h
    obtain ⟨marker, mid, hpeek, hrest⟩ := bind_eq_ok_iff.mp h
    obtain ⟨marker', mid', hpeek', hkin, hmid⟩ := htracks.peekMarker hpeek
    rw [bind_of_ok hpeek']
    exact ih marker marker' hkin hmid hrest
  | element _ _ _ ih ihNumber =>
    intro around d s a d' htracks h
    obtain ⟨e, mid, hnext, hrest⟩ := bind_eq_ok_iff.mp h
    obtain ⟨e', mid', hnext', he, howes⟩ := htracks.nextElement hnext
    rw [bind_of_ok hnext']
    cases he with
    | same => exact ih e howes.behind hrest
    | unsigned free hvn => exact ihNumber free _ _ hvn howes.tracks hrest
  | payload len => exact fun _ _ _ _ _ howes h => howes.payload h
  | keyBytes fields len =>
    intro around d s data d' howes h
    obtain ⟨s', hdata, hs'⟩ := howes.payload (Entries.keyBytes_eq_ok_iff.mp h)
    exact ⟨s', Entries.keyBytes_eq_ok_iff.mpr hdata, hs'⟩
  | key fields len =>
    exact fun _ _ _ _ _ howes h => howes.payload (Entries.keyBytes_eq_ok_iff.mp h)
  | fieldsOf _ _ ih =>
    intro around d s a d' htracks h
    obtain ⟨table, mid, hfields, hrest⟩ := bind_eq_ok_iff.mp h
    obtain ⟨mid', hfields', hmid⟩ := htracks.fieldsOf hfields
    rw [bind_of_ok hfields']
    exact ih table table (.inl rfl) hmid hrest
  | codec _ known => exact known

theorem Parallel.portable {reading : Decoding α}
    (h : Parallel (.portable loose) none reading reading) : Portable loose reading :=
  h.echoed

end Decoding

end MessagePack
