import MessagePack.Proofs.Readers.Session
import MessagePack.Proofs.Value.Carries

namespace MessagePack

open Wire (Carries Element IsHeader)
open Decoder

/-- The error is right about bytes that should carry so many complete elements: they are cut short
where more bytes would complete them, and malformed where nothing after them would. -/
inductive Error.Judges (count : Nat) (bytes : List UInt8) : Error → Prop where
  | truncated {step : Step} {expected : Nat} {rest : List UInt8} (missing : rest ≠ [])
      (complete : Carries count bytes.length (bytes ++ rest)) :
      Judges count bytes (.truncated step expected)
  | malformed {cause : Malformed}
      (hopeless : ∀ {height : Nat} {whole after rest : List UInt8}, Carries count height whole →
        whole ++ after ≠ bytes ++ rest) :
      Judges count bytes (.malformed cause)

namespace Error.Judges

variable {m n : Nat} {bytes bytes' header : List UInt8} {err : Error}

/-- Where the first elements fail, all of them do. -/
theorem before (h : Judges m bytes err) (n : Nat) : Judges (m + n) bytes err := by
  cases h with
  | @truncated _ _ rest missing complete =>
    have hall : Carries (m + n) bytes.length (bytes ++ (rest ++ List.replicate n 0xc0)) := by
      rw [← List.append_assoc]
      exact complete.append ((Carries.nils n).mono (Nat.zero_le _))
    exact .truncated (by simp [missing]) hall
  | malformed hopeless =>
    refine .malformed fun h => ?_
    obtain ⟨first, second, rfl, hfirst, -⟩ := h.exists_append
    rw [List.append_assoc]
    exact hopeless hfirst

/-- What is wrong after the first elements is wrong with all of them. -/
theorem behind (h : Carries m bytes.length bytes) (hj : Judges n bytes' err) :
    Judges (m + n) (bytes ++ bytes') err := by
  cases hj with
  | truncated missing complete =>
    refine .truncated missing ?_
    rw [List.append_assoc, List.length_append]
    exact (h.mono (Nat.le_add_right _ _)).append (complete.mono (Nat.le_add_left _ _))
  | malformed hopeless =>
    refine .malformed fun hwhole heq => ?_
    obtain ⟨first, second, rfl, hfirst, hsecond⟩ := hwhole.exists_append
    rw [List.append_assoc, List.append_assoc] at heq
    exact hopeless hsecond (hfirst.append_inj h heq).2

/-- What is wrong with the contents of an element is wrong with the element. -/
theorem within {e : Element} (hheader : IsHeader e header) (he : e.payload = 0)
    (hj : Judges e.items bytes err) : Judges 1 (header ++ bytes) err := by
  have hpos := hheader.length_pos
  cases hj with
  | truncated missing complete =>
    refine .truncated missing ?_
    rw [List.append_assoc, List.length_append]
    exact (Carries.bare hheader he complete).mono (by omega)
  | malformed hopeless =>
    refine .malformed fun hwhole heq => ?_
    obtain ⟨e', header', data, body, hheader', hdata, hbody, rfl⟩ := hwhole.exists_node
    rw [List.append_assoc, List.append_assoc, List.append_assoc] at heq
    obtain ⟨rfl, rfl, hrest⟩ := hheader'.append_inj hheader heq
    obtain rfl := List.length_eq_zero_iff.mp (hdata.trans he)
    exact hopeless hbody hrest

/-- A raw is cut short where its bytes are. -/
theorem raw {len expected : Nat} {step : Step} (hheader : IsHeader (.raw len) header)
    (h : bytes.length < len) : Judges 1 (header ++ bytes) (.truncated step expected) := by
  have hpos := hheader.length_pos
  let missing := List.replicate (len - bytes.length) (0 : UInt8)
  have hmissing : missing ≠ [] := by
    simp only [missing, ne_eq, List.replicate_eq_nil_iff]
    omega
  have hlength : (bytes ++ missing).length = len := by
    rw [List.length_append, List.length_replicate]
    omega
  refine .truncated hmissing ?_
  rw [List.append_assoc, List.length_append]
  exact (Carries.raw hheader hlength).mono (by omega)

section

variable {room : Nat} (hj : Judges n bytes err)

include hj

theorem kinds : (∃ step expected, err = .truncated step expected) ∨
    ∃ cause, err = .malformed cause := by
  cases hj with
  | truncated _ _ => exact .inl ⟨_, _, rfl⟩
  | malformed _ => exact .inr ⟨_, rfl⟩

theorem truncated_iff (hroom : bytes.length ≤ room) :
    (∃ step expected, err = .truncated step expected) ↔
      ∃ rest, rest ≠ [] ∧ Carries n room (bytes ++ rest) := by
  cases hj with
  | truncated missing complete =>
    exact ⟨fun _ => ⟨_, missing, complete.mono hroom⟩, fun _ => ⟨_, _, rfl⟩⟩
  | malformed hopeless =>
    refine ⟨nofun, fun hcomplete => ?_⟩
    obtain ⟨rest, -, hcomplete⟩ := hcomplete
    exact absurd (List.append_nil _) (hopeless hcomplete)

theorem malformed_iff (hroom : bytes.length ≤ room) :
    (∃ cause, err = .malformed cause) ↔
      ¬∃ rest whole, whole <+: bytes ++ rest ∧ Carries n room whole := by
  cases hj with
  | truncated _ complete =>
    exact ⟨nofun, fun hno => absurd ⟨_, _, List.prefix_rfl, complete.mono hroom⟩ hno⟩
  | malformed hopeless =>
    refine ⟨fun _ hexists => ?_, fun _ => ⟨_, rfl⟩⟩
    obtain ⟨rest, whole, ⟨after, heq⟩, hwhole⟩ := hexists
    exact hopeless hwhole heq

end

end Error.Judges

namespace Decoder

/-- Nothing but what comes ahead can stop the session: its source ends without a failure, and the
limit has room for as many containers as there are bytes. -/
structure Ample (d : Decoder) : Prop where
  sound : d.Sound
  ends : d.source.failure = none
  room : d.nesting.depth + d.ahead.length ≤ d.nesting.limit

theorem ample_new {bytes : List UInt8} {config : Config} (h : bytes.length ≤ config.maxDepth) :
    Ample (new (.ofBytes bytes) config) where
  sound := sound_new bytes config
  ends := rfl
  room := by
    change 0 + bytes.length ≤ config.maxDepth
    omega

/-- A reading came out as it should where so many elements were to come: it went over them, or its
error is right about the bytes ahead. -/
inductive Took {α : Type} (count : Nat) (d : Decoder) : EStateM.Result Error Decoder α → Prop where
  | ok {a : α} {d' : Decoder} {bytes : List UInt8} (carries : Carries count bytes.length bytes)
      (ahead : d.ahead = bytes ++ d'.ahead) (ample : d'.Ample) : Took count d (.ok a d')
  | error {err : Error} {d' : Decoder} (judges : err.Judges count d.ahead) :
      Took count d (.error err d')

/-- Where the contents of an element come out as they should, the element does. -/
theorem Took.within {α : Type} {d d' : Decoder} {e : Element} {header : List UInt8}
    {result : EStateM.Result Error Decoder α} (hheader : IsHeader e header) (he : e.payload = 0)
    (hahead : d.ahead = header ++ d'.ahead) (h : Took e.items d' result) : Took 1 d result := by
  have hpos := hheader.length_pos
  cases h with
  | @ok _ _ bytes carries ahead ample =>
    refine .ok ((Carries.bare hheader he carries).mono ?_)
      (by rw [hahead, ahead, List.append_assoc]) ample
    rw [List.length_append]
    omega
  | error judges =>
    refine .error ?_
    rw [hahead]
    exact judges.within hheader he

end Decoder

namespace Decoding

variable {α β : Type} {first reading : Decoding α} {next : α → Decoding β} {levels m n : Nat}

/-- From every session with room for them, the reading takes so many complete elements, or fails
with an error that is right about the bytes ahead, as long as these are fewer than `levels`. -/
def Takes (levels count : Nat) (reading : Decoding α) : Prop :=
  ∀ ⦃d : Decoder⦄, d.Ample → d.ahead.length < levels → Took count d (reading d)

namespace Takes

theorem pure (a : α) : Takes levels 0 (Pure.pure a) :=
  fun _ hd _ => .ok (Carries.nothing.mono (Nat.zero_le _)) (List.nil_append _).symm hd

theorem bind (h : Takes levels m first) (h' : ∀ a, Takes levels n (next a)) :
    Takes levels (m + n) (first >>= next) := by
  intro d hd hlevels
  have hfirst := h hd hlevels
  cases hrun : first d with
  | error err d' =>
    rw [hrun] at hfirst
    rw [bind_of_error hrun]
    cases hfirst with
    | error judges => exact .error (judges.before n)
  | ok a mid =>
    rw [hrun] at hfirst
    rw [bind_of_ok hrun]
    cases hfirst with
    | @ok _ _ bytes carries ahead ample =>
      rw [ahead, List.length_append] at hlevels
      have hnext := h' a ample (Nat.lt_of_le_of_lt (Nat.le_add_left _ _) hlevels)
      cases hrun' : next a mid with
      | error err d' =>
        rw [hrun'] at hnext
        cases hnext with
        | error judges =>
          refine .error ?_
          rw [ahead]
          exact judges.behind carries
      | ok b d' =>
        rw [hrun'] at hnext
        cases hnext with
        | @ok _ _ bytes' carries' ahead' ample' =>
          have hall : d.ahead = bytes ++ bytes' ++ d'.ahead := by
            rw [ahead, ahead', List.append_assoc]
          refine .ok ?_ hall ample'
          rw [List.length_append]
          exact (carries.mono (Nat.le_add_right _ _)).append
            (carries'.mono (Nat.le_add_left _ _))

theorem map {f : α → β} (h : Takes levels n reading) :
    Takes levels n (reading >>= fun a => Pure.pure (f a)) :=
  h.bind fun a => .pure (f a)

theorem repeatFrom (h : Takes levels n reading) (done : List α) (count : Nat) :
    Takes levels (n * count) (Decoder.repeatFrom reading done count) := by
  induction count generalizing done with
  | zero => exact .pure _
  | succ count ih =>
    rw [Nat.mul_succ, Nat.add_comm]
    exact h.bind fun a => ih (a :: done)

end Takes

end Decoding

end MessagePack
