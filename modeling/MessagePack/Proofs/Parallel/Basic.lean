import MessagePack.Proofs.Readers.InMemory
import MessagePack.Proofs.Readers.Keys
import MessagePack.Proofs.Value.Fold
import MessagePack.Proofs.Wire.Inverse
import MessagePack.Proofs.Wire.Recast
import Mathlib.Data.List.Forall2

namespace MessagePack

open Decoding Decoder
open Wire (Element Marker)

theorem forall₂_replicate {X Y : Type} {R : X → Y → Prop} {x : X} {y : Y} (h : R x y) (n : Nat) :
    List.Forall₂ R (List.replicate n x) (List.replicate n y) := by
  induction n with
  | zero => exact .nil
  | succ n ih => exact .cons h ih

/-- How many bytes of payload come right behind the header of an element, if it is a raw. -/
def Wire.Element.owed? : Element → Option Nat
  | raw len => some len
  | _ => none

/-- What two parallel readings are made of, and how far apart they may be. -/
structure Terms where
  /-- They read from the session. -/
  live : Prop
  /-- The readings that codecs have a part in it with. -/
  codec : Decoding Value → Prop
  /-- What the first turns down, the second need not turn down. -/
  spare : Prop
  /-- The second may be given the unsigned form of a number where the first is given the signed. -/
  loose : Prop
  spare_of_loose : loose → spare

/-- What is in memory can always be read from, and what is not only with a session. -/
def Terms.Reaches (terms : Terms) (inMemory : Prop) : Prop := terms.live ∨ inMemory

namespace Decoding

/-- Two readings are parallel: both are put together from the same parts. Right behind the header of
a raw so many bytes are `owed`, which must be read next. Where one gets a table of fields the other
may do without. No error of theirs is like one of the source. -/
inductive Parallel (terms : Terms) : {α : Type} → Option Nat → Decoding α → Decoding α → Prop
  | pure {α : Type} (a : α) : Parallel terms none (Pure.pure a) (Pure.pure a)
  | throw {α : Type} (owed : Option Nat) {e : Error} (own : e.isReadFailure = false) :
      Parallel terms (α := α) owed (MonadExcept.throw e) (MonadExcept.throw e)
  | refused {α : Type} (owed : Option Nat) {e : Error} (own : e.isReadFailure = false)
      (spare : terms.spare) (second : Decoding α) :
      Parallel terms owed (MonadExcept.throw e) second
  /-- The second part need only go along with what the first can answer. -/
  | bind {α β : Type} {owed : Option Nat} {first first' : Decoding α} {next next' : α → Decoding β}
      (head : Parallel terms owed first first')
      (tail : ∀ a, (∃ d d', first d = .ok a d') → Parallel terms none (next a) (next' a)) :
      Parallel terms owed (first >>= next) (first' >>= next')
  | limit {α : Type} {next next' : Nat → Decoding α} (live : terms.live)
      (tail : ∀ levels levels', levels' = levels ∨ terms.spare ∧ levels ≤ levels' →
        Parallel terms none (next levels) (next' levels')) :
      Parallel terms none (Decoder.limit >>= next) (Decoder.limit >>= next')
  | peekMarker {α : Type} {next next' : Marker → Decoding α} (live : terms.live)
      (tail : ∀ marker marker', marker.Kin marker' →
        Parallel terms none (next marker) (next' marker')) :
      Parallel terms none (Decoder.peekMarker >>= next) (Decoder.peekMarker >>= next')
  | element {α : Type} {next next' : Element → Decoding α} (live : terms.live)
      (same : ∀ e, Parallel terms e.owed? (next e) (next' e))
      (number : terms.loose → ∀ v n, v.toInt = n.toNat →
        Parallel terms none (next (.int v)) (next' (.uint n))) :
      Parallel terms none (nextElement >>= next) (nextElement >>= next')
  | payload (len : Nat) :
      Parallel terms (some len) (Decoder.payload len) (Decoder.payload len)
  | keyBytes (fields : Fields) (len : Nat) :
      Parallel terms (some len) (Entries.keyBytes fields len) (Entries.keyBytes fields len)
  /-- What one reads as the key of a structure, the other may read like any raw. -/
  | key (fields : Fields) (len : Nat) :
      Parallel terms (some len) (Entries.keyBytes fields len) (Decoder.payload len)
  | fieldsOf {α : Type} {name : String} {names : List String} {next : Option Fields → Decoding α}
      (live : terms.live)
      (tail : ∀ table table', table' = table ∨ table' = none →
        Parallel terms none (next table) (next table')) :
      Parallel terms none (Decoder.fieldsOf name names >>= next)
        (Decoder.fieldsOf name names >>= next)
  | codec {decode : Decoding Value} (live : terms.live) (known : terms.codec decode) :
      Parallel terms none decode decode

namespace Parallel

variable {terms : Terms} {α β γ : Type} {owed : Option Nat} {first first' : Decoding α}
  {next next' : α → Decoding β}

theorem seq (head : Parallel terms owed first first')
    (tail : ∀ a, Parallel terms none (next a) (next' a)) :
    Parallel terms owed (first >>= next) (first' >>= next') :=
  .bind head fun a _ => tail a

theorem map {f : α → β} (h : Parallel terms owed first first') :
    Parallel terms owed (first >>= fun a => Pure.pure (f a))
      (first' >>= fun a => Pure.pure (f a)) :=
  h.seq fun a => .pure (f a)

theorem settled (h : first.Immediate) : Parallel terms none first first := by
  obtain ⟨a, rfl⟩ | ⟨e, own, rfl⟩ := h
  · exact .pure a
  · exact .throw none own

theorem refuse (o : Offer) (expected : String) :
    Parallel (α := α) terms owed (o.refuse expected) (o.refuse expected) :=
  .throw owed rfl

/-- Rows of parallel readings are parallel. -/
theorem mapM {X : Type} {one one' : X → Decoding α} {list list' : List X}
    (h : List.Forall₂ (fun x x' => Parallel terms none (one x) (one' x')) list list') :
    Parallel terms none (list.mapM one) (list'.mapM one') := by
  induction h with
  | nil => exact .pure []
  | cons hone _ ih =>
    rw [List.mapM_cons, List.mapM_cons]
    exact hone.seq fun a => ih.map

/-- Two rows over the same places are parallel if their readings are in each place. -/
theorem mapM_same {X : Type} {one one' : X → Decoding α} {list : List X}
    (h : ∀ x ∈ list, Parallel terms none (one x) (one' x)) :
    Parallel terms none (list.mapM one) (list.mapM one') :=
  mapM (List.forall₂_same.mpr h)

theorem foldlM {X : Type} {step step' : α → X → Decoding α} {list list' : List X}
    (h : List.Forall₂ (fun x x' => ∀ a, Parallel terms none (step a x) (step' a x')) list list')
    (a : α) : Parallel terms none (list.foldlM step a) (list'.foldlM step' a) := by
  induction h generalizing a with
  | nil => exact .pure a
  | cons hstep _ ih =>
    rw [List.foldlM_cons, List.foldlM_cons]
    exact (hstep a).seq ih

theorem replicate (h : Parallel terms none first first') (count : Nat) :
    Parallel terms none (Decoder.replicate count first) (Decoder.replicate count first') := by
  rw [replicate_eq, replicate_eq]
  exact mapM (forall₂_replicate h count)

end Parallel

end Decoding

variable {terms : Terms} {α : Type}

namespace Decoder

variable (hlive : terms.live)

include hlive

theorem nil_parallel : Parallel terms none nil nil := by
  refine .element hlive (fun e => ?_) fun free _ _ _ => ?_
  · cases e with
    | nil => exact .pure ()
    | _ => exact .throw _ rfl
  · exact .refused _ rfl (terms.spare_of_loose free) _

theorem mapLen_parallel : Parallel terms none mapLen mapLen := by
  refine .element hlive (fun e => ?_) fun free _ _ _ => ?_
  · cases e with
    | map len => exact .pure len
    | _ => exact .throw _ rfl
  · exact .refused _ rfl (terms.spare_of_loose free) _

theorem arrayLen_parallel : Parallel terms none arrayLen arrayLen := by
  refine .element hlive (fun e => ?_) fun free _ _ _ => ?_
  · cases e with
    | array len => exact .pure len
    | _ => exact .throw _ rfl
  · exact .refused _ rfl (terms.spare_of_loose free) _

theorem string_parallel : Parallel terms none string string := by
  refine .seq (.element hlive (fun e => ?_) fun free _ _ _ => ?_) fun bytes => ?_
  · cases e with
    | raw len => exact .payload len
    | _ => exact .throw _ rfl
  · exact .refused _ rfl (terms.spare_of_loose free) _
  · unfold decodeText
    split
    · exact .pure _
    · exact .throw none rfl

/-- Both forms of a number below 2^63 are the same number with a sign. -/
theorem i64_parallel : Parallel terms none i64 i64 := by
  refine .element hlive (fun e => ?_) fun _ v n h => ?_
  · cases e with
    | int n => exact .pure n
    | uint n =>
      dsimp only
      split
      · exact .pure _
      · exact .throw _ rfl
    | _ => exact .throw _ rfl
  · have hlt : n.toNat < 9223372036854775808 := by
      have := v.toInt_lt
      omega
    have hback : n.toInt64 = v := by
      rw [← Wire.toUInt64_of_toInt_eq h]
      rfl
    dsimp only
    rw [if_pos hlt, hback]
    exact .pure v

theorem time_parallel : Parallel terms none time time :=
  (i64_parallel hlive).seq fun _ => (i64_parallel hlive).map

end Decoder

end MessagePack
