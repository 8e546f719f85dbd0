import MessagePack.Proofs.Typed.Offered
import Mathlib.Data.List.Forall2

namespace MessagePack

open Wire (Element Forest ElementTree)

/-- A successful reading goes over elements of the layout, and `P` holds of what it answers. Where
it is `settled`, it leaves no tag looked at if it `took` any element or found none looked at. -/
def Decoding.Reads {α : Type} (settled : Prop) (layout : Layout) (took : Bool) (P : α → Prop)
    (reading : Decoding α) : Prop :=
  ∀ ⦃d : Decoder⦄ ⦃a : α⦄ ⦃d' : Decoder⦄, d.Sound → reading d = .ok a d' →
    P a ∧ ∃ f bytes, layout f ∧ d.Passed f.elements bytes d' ∧
      (settled → took = true ∨ d.peeked = none → d'.peeked = none)

namespace Decoding.Reads

variable {α β : Type} {settled : Prop} {layout layout' : Layout} {took took' : Bool}
  {P : α → Prop} {Q : β → Prop} {reading first : Decoding α} {next : α → Decoding β}

theorem throw {e : Error} : Reads settled layout took P (MonadExcept.throw e) :=
  fun _ _ _ _ hok => absurd hok throw_ne_ok

theorem of_keeps (h : Keeps P reading) : Reads settled .nothing false P reading := by
  intro d a d' hs hok
  obtain ⟨rfl, ha⟩ := h hok
  exact ⟨ha, [], [], rfl, .refl hs, fun _ hp => hp.resolve_left nofun⟩

theorem pure {a : α} (h : P a) : Reads settled .nothing false P (Pure.pure a) :=
  of_keeps (.pure h)

theorem mono {P' : α → Prop} (h : Reads settled layout took P reading)
    (hlayout : ∀ a f, P a → layout f → layout' f) (hP : ∀ a, P a → P' a) :
    Reads settled layout' took P' reading := by
  intro d a d' hs hok
  obtain ⟨ha, f, bytes, hf, hrest⟩ := h hs hok
  exact ⟨hP a ha, f, bytes, hlayout a f ha hf, hrest⟩

theorem weaken (h : Reads settled layout true P reading) :
    Reads settled layout took P reading := by
  intro d a d' hs hok
  obtain ⟨ha, f, bytes, hf, hpassed, hp⟩ := h hs hok
  exact ⟨ha, f, bytes, hf, hpassed, fun hsettled _ => hp hsettled (.inl rfl)⟩

theorem bind (h : Reads settled layout took P first)
    (h' : ∀ a, P a → Reads settled layout' took' Q (next a)) :
    Reads settled (.append layout layout') (took || took') Q (first >>= next) := by
  intro d b d' hs hok
  obtain ⟨a, mid, hfirst, hnext⟩ := bind_eq_ok_iff.mp hok
  obtain ⟨ha, f, bytes, hf, hpassed, hp⟩ := h hs hfirst
  obtain ⟨hb, f', bytes', hf', hpassed', hp'⟩ := h' a ha (hpassed.sound hs) hnext
  refine ⟨hb, f ++ f', bytes ++ bytes', ⟨f, f', hf, hf', rfl⟩, ?_, fun hsettled hd => ?_⟩
  · rw [Forest.elements_append]
    exact hpassed.trans hpassed'
  · rw [Bool.or_eq_true, or_assoc, or_left_comm] at hd
    exact hp' hsettled (hd.imp_right (hp hsettled))

/-- What follows without reading anything more. -/
theorem keeping (h : Reads settled layout took P first)
    (h' : ∀ a, P a → Keeps Q (next a)) : Reads settled layout took Q (first >>= next) := by
  intro d b d' hs hok
  obtain ⟨a, mid, hfirst, hnext⟩ := bind_eq_ok_iff.mp hok
  obtain ⟨ha, hread⟩ := h hs hfirst
  obtain ⟨rfl, hb⟩ := h' a ha hnext
  exact ⟨hb, hread⟩

theorem map {f : α → β} (h : Reads settled layout took P first) :
    Reads settled layout took (fun _ => True) (first >>= fun a => Pure.pure (f a)) :=
  h.keeping fun _ _ => .pure trivial

theorem make {second : α → Decoding β} {γ : Type} {make : β → γ}
    (h : Reads settled layout took Q (first >>= second)) :
    Reads settled layout took (fun _ => True)
      (first >>= fun a => second a >>= fun b => Pure.pure (make b)) := by
  rw [← bind_assoc]
  exact h.map

/-- One reading after another, each over its own layout. -/
theorem mapM {X : Type} {one : X → Decoding α} {layouts : List Layout} {list : List X}
    (h : List.Forall₂ (fun layout x => Reads settled layout true (fun _ => True) (one x)) layouts
      list) : Reads settled (.concat layouts) false (fun _ => True) (list.mapM one) := by
  induction h with
  | nil => exact .pure trivial
  | cons hone _ ih =>
    rw [List.mapM_cons]
    exact (hone.bind fun a _ => ih.map).weaken

theorem mapM_replicate {X : Type} {one : X → Decoding α} {x : X}
    (h : Reads settled layout true (fun _ => True) (one x)) (n : Nat) :
    Reads settled (.concat (List.replicate n layout)) false (fun _ => True)
      ((List.replicate n x).mapM one) :=
  mapM (forall₂_replicate (by exact h) n)

theorem foldlM {X : Type} {step : α → X → Decoding α} {layouts : List Layout} {list : List X}
    (h : List.Forall₂ (fun layout x => ∀ a, Reads settled layout true (fun _ => True) (step a x))
      layouts list) (a : α) :
    Reads settled (.concat layouts) false (fun _ => True) (list.foldlM step a) := by
  induction h generalizing a with
  | nil => exact .pure trivial
  | cons hstep _ ih =>
    rw [List.foldlM_cons]
    exact ((hstep a).bind fun b _ => ih b).weaken

/-- What is refused in the end is not read. -/
theorem refused (h : ∀ a, ∃ e, next a = MonadExcept.throw e) :
    Reads settled layout took Q (first >>= next) := by
  intro d b d' hs hok
  obtain ⟨a, mid, -, hlast⟩ := bind_eq_ok_iff.mp hok
  obtain ⟨e, hthrow⟩ := h a
  rw [hthrow] at hlast
  exact absurd hlast throw_ne_ok

end Decoding.Reads

open Decoding

variable {α β : Type} {settled : Prop}

/-- A reader that goes over elements of the layout on the wire, and over none in memory. -/
structure Reader.Reads (settled : Prop) (layout : Layout) (one : Reader α) : Prop where
  wire : Decoding.Reads settled layout true (fun _ => True) (one .wire)
  memory : one.Parallel .memory

namespace Items

variable {one : Reader α} {layout : Layout}

theorem readAll_reads (hone : one.Reads settled layout) (n : Nat) :
    Decoding.Reads settled (.concat (List.replicate n layout)) false (fun _ => True)
      (readAll one (.wire n n)) := by
  rw [readAll_eq]
  exact .mapM_replicate hone.wire n

/-- A tuple is read from an array with as many items as it has. -/
theorem readTuple_reads {readers : List (Reader α)} {layouts : List Layout}
    (h : List.Forall₂ (Reader.Reads settled) layouts readers) (expected : String) (n : Nat) :
    Decoding.Reads settled (.concat layouts) false (fun _ => n = layouts.length)
      (readTuple expected readers (.wire n n)) := by
  by_cases hn : n = readers.length
  · rw [readTuple_wire hn]
    have hwire := h.imp fun _ _ hone => hone.wire
    exact (Decoding.Reads.mapM hwire).mono (fun _ _ _ hf => hf) fun _ _ =>
      hn.trans h.length_eq.symm
  · have hkind : (Items.wire n n).areTokens = false := rfl
    obtain ⟨e, hclose⟩ := close_of_left_ne hkind hn
    rw [readTuple_eq, hclose]
    exact .refused fun list => ⟨e, rfl⟩

end Items

namespace Entries

open Decoder

variable {layout keyLayout itemLayout : Layout} {keyReader : Reader α} {itemReader : Reader β}

private theorem fieldKey_passed {fields : Fields} {d d' : Decoder} {input : Input} (hs : d.Sound)
    (h : fieldKey fields d = .ok input d') : input.InMemory ∧ ∃ f bytes, Layout.leaf f ∧
      d.Passed f.elements bytes d' ∧ d'.peeked = none := by
  rw [fieldKey_eq] at h
  obtain ⟨e, mid, hnext, hrest⟩ := bind_eq_ok_iff.mp h
  cases e with
  | raw len =>
    obtain ⟨data, last, hdata, hpure⟩ := bind_eq_ok_iff.mp hrest
    obtain ⟨rfl, rfl⟩ := pure_eq_ok_iff.mp hpure
    obtain ⟨header, -, hpassed, hp⟩ := passed_payload hs hnext (keyBytes_eq_ok_iff.mp hdata)
    exact ⟨rawKey_inMemory data, [.node (.raw data.length) []], _, ⟨_, rfl, rfl⟩, hpassed, hp⟩
  | _ => exact absurd hrest throw_ne_ok

/-- The key of an entry goes over one thing, whether the table of fields reads it or not. -/
theorem key_reads {P : α → Prop}
    (hwire : Decoding.Reads settled keyLayout true P (keyReader .wire))
    (hmemory : ∀ input, input.InMemory → Keeps P (keyReader input)) (fields : Option Fields)
    (hleaf : fields.isSome → ∀ f, Layout.leaf f → keyLayout f) :
    Decoding.Reads settled keyLayout true P (key fields >>= keyReader) := by
  cases fields with
  | none => exact hwire
  | some fields =>
    intro d a d' hs hok
    obtain ⟨input, last, hkey, hread⟩ := bind_eq_ok_iff.mp hok
    obtain ⟨marker, mid, hmarker, hrest⟩ := bind_eq_ok_iff.mp hkey
    obtain ⟨tag, mid', hpeek, hpure⟩ := bind_eq_ok_iff.mp hmarker
    obtain ⟨rfl, rfl⟩ := pure_eq_ok_iff.mp hpure
    have hlooked := passed_peekTag hs hpeek
    split at hrest
    · obtain ⟨hinput, f, bytes, hf, hpassed, hp⟩ := fieldKey_passed (hlooked.sound hs) hrest
      obtain ⟨rfl, ha⟩ := hmemory input hinput hread
      exact ⟨ha, f, bytes, hleaf rfl f hf, hlooked.trans hpassed, fun _ _ => hp⟩
    · obtain ⟨rfl, rfl⟩ := pure_eq_ok_iff.mp hrest
      obtain ⟨ha, f, bytes, hf, hpassed, hp⟩ := hwire (hlooked.sound hs) hread
      exact ⟨ha, f, bytes, hf, hlooked.trans hpassed, fun hsettled _ => hp hsettled (.inl rfl)⟩

/-- Part of a map is read only if that is all there is. -/
theorem readPart_reads (hkey : keyReader.Reads settled keyLayout)
    (hitem : itemReader.Reads settled itemLayout) (fields : Option Fields)
    (hleaf : fields.isSome → ∀ f, Layout.leaf f → keyLayout f) (count n : Nat) :
    Decoding.Reads settled (.concat (List.replicate n (.append keyLayout itemLayout))) false
      (fun _ => True) (readPart count keyReader itemReader (.wire n n fields)) := by
  by_cases hn : n ≤ count
  · have hentry : Decoding.Reads settled (.append keyLayout itemLayout) true (fun _ => True)
        (readEntry keyReader itemReader (key fields, .wire)) :=
      (key_reads hkey.wire (fun _ hin => hkey.memory.keeps hin) fields hleaf).bind
        fun _ _ => hitem.wire.map
    rw [readPart_of_le hn, readAll_eq]
    exact .mapM_replicate hentry n
  · have hlt : min count n < n := by omega
    obtain ⟨e, hfinish⟩ := finish_skip_wire_of_lt hlt n fields
    have hleft : (Entries.wire n n fields).left = n := rfl
    rw [readPart_eq, hleft, hfinish]
    exact .refused fun list => ⟨e, rfl⟩

end Entries

end MessagePack
