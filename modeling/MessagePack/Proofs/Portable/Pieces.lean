import MessagePack.Proofs.Portable.Shape
import MessagePack.Proofs.Value.Reading

namespace MessagePack

open Decoding Decoder
open Wire (Element IsHeader)

variable {α β : Type} {limit : Nat} {bytes rest : List UInt8}

namespace Decoder

/-- The session has exactly these bytes ahead, and no more containers open than so many. -/
structure Ready (limit depth : Nat) (ahead : List UInt8) (d : Decoder) : Prop where
  sound : d.Sound
  ahead : d.ahead = ahead
  limit : d.nesting.limit = limit
  depth : d.nesting.depth ≤ depth
  tables : d.tables ≠ none

theorem ready_new (bytes : List UInt8) (config : Config) :
    Ready config.maxDepth 0 bytes (new (.ofBytes bytes) config) :=
  ⟨sound_new bytes config, rfl, rfl, Nat.le_refl 0, nofun⟩

end Decoder

namespace Decoding

/-- These bytes and nothing else are read: a fresh session under the limit comes to the answer at
their end, and leaves no more containers open than so many. -/
def ReadsWhole (limit : Nat) (reading : Decoding α) (bytes : List UInt8) (left : Nat) (a : α) :
    Prop :=
  ∃ d, reading (new (.ofBytes bytes) { maxDepth := limit }) = .ok a d ∧ d.ahead = [] ∧
    d.nesting.depth ≤ left

namespace ReadsWhole

variable {reading : Decoding α} {a : α}

/-- A scalar needs no room and leaves nothing open. -/
theorem scalar {e : Element} (h : Yields reading [e] bytes a) (he : e.isContainer = false) :
    ReadsWhole 0 reading bytes 0 a := by
  have hs := sound_new bytes { maxDepth := 0 }
  have hnext := Nesting.enter_scalar hs.nesting he
  obtain ⟨d, hread, -, hahead, hnesting⟩ := h.exists_run hs (List.append_nil bytes).symm (by
    rw [Nesting.enterAll_cons, hnext]
    rfl)
  exact ⟨d, hread, hahead, hnesting ▸ Nesting.depth_counted_le 1 _⟩

/-- Whatever a value is spelled by is read whole where the limit is its height. -/
theorem fold {f : Fold α} (hf : f.SignBlind) {v : Value} (h : v.SpelledBy bytes) :
    ReadsWhole v.height (Decoder.fold f) bytes 0 (v.fold f) := by
  obtain ⟨t, hwhole, hheight, -, hyields⟩ := h.yields_fold hf
  have hs := sound_new bytes { maxDepth := v.height }
  have hnext := (Nesting.enterAll_whole_eq_ok_iff hwhole hs.nesting).mpr
    ⟨show 0 + t.height ≤ v.height by omega, rfl⟩
  obtain ⟨d, hread, -, hahead, hnesting⟩ :=
    hyields.exists_run hs (List.append_nil bytes).symm hnext
  exact ⟨d, hread, hahead, hnesting ▸ Nesting.depth_counted_le 1 _⟩

end ReadsWhole

/-- Wherever these bytes come next with no more than `before` containers open, they are read, and no
more than `after` are open then. -/
def Covers (limit before after : Nat) (reading : Decoding α) (bytes : List UInt8) (a : α) : Prop :=
  ∀ ⦃d rest⦄, Ready limit before (bytes ++ rest) d →
    ∃ d', reading d = .ok a d' ∧ Ready limit after rest d'

namespace Covers

variable {before between after : Nat} {reading first : Decoding α} {next : α → Decoding β}
  {a : α} {b : β} {more : List UInt8}

theorem pure (depth : Nat) (a : α) : Covers limit depth depth (Pure.pure a) [] a :=
  fun d _ hd => ⟨d, rfl, hd⟩

theorem bind (h : Covers limit before between first bytes a)
    (h' : Covers limit between after (next a) more b) :
    Covers limit before after (first >>= next) (bytes ++ more) b := by
  intro d rest hd
  rw [List.append_assoc] at hd
  obtain ⟨mid, hfirst, hmid⟩ := h hd
  obtain ⟨last, hnext, hlast⟩ := h' hmid
  exact ⟨last, (bind_of_ok hfirst).trans hnext, hlast⟩

theorem follow (h : Covers limit before after reading bytes a) (hnext : next a = Pure.pure b) :
    Covers limit before after (reading >>= next) bytes b := by
  have hall := h.bind (hnext ▸ pure after b)
  rwa [List.append_nil] at hall

theorem map {f : α → β} (h : Covers limit before after reading bytes a) :
    Covers limit before after (reading >>= fun a => Pure.pure (f a)) bytes (f a) :=
  h.follow rfl

theorem weaken {before' after' : Nat} (h : Covers limit before after reading bytes a)
    (hbefore : before' ≤ before) (hafter : after ≤ after') :
    Covers limit before' after' reading bytes a := by
  intro d rest hd
  obtain ⟨d', hread, hd'⟩ :=
    h ⟨hd.sound, hd.ahead, hd.limit, Nat.le_trans hd.depth hbefore, hd.tables⟩
  exact ⟨d', hread, hd'.sound, hd'.ahead, hd'.limit, Nat.le_trans hd'.depth hafter, hd'.tables⟩

/-- The header of a container is read where there is room for one more. -/
theorem header {e : Element} {head : List UInt8} (h : IsHeader e head)
    (he : e.isContainer = true) {depth : Nat} (hroom : depth < limit) :
    Covers limit depth (depth + 1) nextElement head e := by
  intro d rest hd
  obtain ⟨hs, hahead, hlimit, hdepth, htables⟩ := hd
  have henter : d.nesting.enter e = .ok (d.nesting.within e.items) := by
    rw [Nesting.enter_container _ he, if_pos (by omega)]
  refine ⟨_, (nextElement_eq_ok_iff hs.steady).mpr ⟨head, rest, _, h, hahead, henter, rfl⟩,
    ⟨past_steady hs.steady _, (hs.nesting.enter henter).1⟩, ahead_past hahead, hlimit, ?_, ?_⟩
  · exact Nat.le_trans (Nesting.depth_within_le _ _) (Nat.succ_le_succ hdepth)
  · exact past_tables head.length d ▸ htables

theorem fieldsOf (depth : Nat) (name : String) (names : List String) :
    Covers limit depth depth (Decoder.fieldsOf name names) [] (some (.ofNames names)) := by
  intro d rest hd
  obtain ⟨tables, hlook, hsome⟩ := fieldsOf_of_tables hd.tables name names
  exact ⟨_, hlook, ⟨hd.sound.steady, hd.sound.nesting⟩, hd.ahead, hd.limit, hd.depth, hsome⟩

/-- What is read whole by itself is read in the middle of other bytes, where the limit leaves as
much room as there was. -/
theorem of_readsWhole {inner left : Nat} (hportable : Portable False reading)
    (h : reading.ReadsWhole inner bytes left a) {depth : Nat} (hroom : depth + inner ≤ limit) :
    Covers limit depth (depth + left) reading bytes a := by
  intro d rest hd
  obtain ⟨alone, halone, hend, hleft⟩ := h
  -- what is open already and what comes after are the surroundings of the fresh session
  let around : Surroundings := ⟨rest, d.nesting.depth, inner, limit, by
    have := hd.depth
    omega⟩
  have htracks : Tracks False around (new (.ofBytes bytes) { maxDepth := inner }) d := by
    refine ⟨⟨sound_new _ _, hd.sound, ⟨rfl, hd.limit, d.nesting.pending, rfl, Nat.le_refl _⟩,
      nofun, hd.tables⟩, ?_⟩
    rw [hd.ahead]
    exact .kept bytes
  obtain ⟨d', hread, hd'⟩ := hportable htracks halone
  have hahead := hd'.ahead
  rw [hend] at hahead
  obtain ⟨opened, hpending, hopened⟩ := hd'.nesting.pending
  refine ⟨d', hread, hd'.sound', hahead.eq_rest, hd'.nesting.outerLimit, ?_, hd'.tables'⟩
  -- the containers of the surroundings are still below those that the reading left open
  have hsum : d'.nesting.depth = alone.nesting.depth + opened.length := by
    rw [Nesting.depth, hpending, List.length_append, Nesting.depth]
  have hdepth := hd.depth
  change opened.length ≤ d.nesting.depth at hopened
  omega

end Covers

end Decoding

end MessagePack
