import MessagePack.Proofs.Typed.Shape

namespace MessagePack

open Decoding Decoder
open Wire (Element Forest IsHeader Streams)

namespace Codec

variable {codec : Codec}

/-- A codec keeps to whole elements if every run goes over some from which it always reads. -/
theorem Framed.of_yields (h : ∀ ⦃d : Decoder⦄ ⦃v : Value⦄ ⦃d' : Decoder⦄, d.Sound →
    codec.decode d = .ok v d' → ∃ (f : Forest) (bytes : List UInt8) (w : Value),
      f.Whole ∧ d.Passed f.elements bytes d' ∧ Yields codec.decode f.elements bytes w) :
    codec.Framed where
  whole d v d' hs hdecode := by
    obtain ⟨f, bytes, w, hwhole, hpassed, -⟩ := h hs hdecode
    exact ⟨f, bytes, hwhole, hpassed⟩
  again d v d' elements bytes hs hdecode hpassed e rest next he hahead hnext := by
    obtain ⟨f, bytes', w, -, hpassed', hyields⟩ := h hs hdecode
    obtain rfl := List.append_cancel_right (hpassed.ahead.symm.trans hpassed'.ahead)
    obtain rfl := hpassed.streams.unique hpassed'.streams
    obtain ⟨e', hread, hafter⟩ := hyields.exists_passed hpassed.streams he hahead hnext
    exact ⟨w, e', hread, hafter⟩

end Codec

namespace Decoder

/-- A signed integer is read from one element, and so wherever that comes next. -/
theorem i64_run {d d' : Decoder} {n : Int64} (hs : d.Sound) (h : i64 d = .ok n d') :
    ∃ e header, e.isContainer = false ∧ d.Passed [e] header d' ∧ Yields i64 [e] header n := by
  obtain ⟨e, mid, hnext, hrest⟩ := bind_eq_ok_iff.mp h
  cases e with
  | int v =>
    obtain ⟨rfl, rfl⟩ := pure_eq_ok_iff.mp hrest
    obtain ⟨header, hheader, hpassed, -⟩ := passed_nextElement hs hnext rfl
    exact ⟨_, header, rfl, hpassed, .scalar hheader rfl⟩
  | uint v =>
    obtain ⟨header, hheader, hpassed, -⟩ := passed_nextElement hs hnext rfl
    dsimp only at hrest
    split at hrest
    · rename_i hsmall
      obtain ⟨rfl, rfl⟩ := pure_eq_ok_iff.mp hrest
      exact ⟨_, header, rfl, hpassed, .scalar hheader (if_pos hsmall)⟩
    · exact absurd hrest throw_ne_ok
  | _ => exact absurd hrest throw_ne_ok

theorem time_run {d d' : Decoder} {t : Timestamp} (hs : d.Sound) (h : time d = .ok t d') :
    ∃ e e' bytes, e.isContainer = false ∧ e'.isContainer = false ∧
      d.Passed [e, e'] bytes d' ∧ Yields time [e, e'] bytes t := by
  obtain ⟨sec, mid, hsec, hrest⟩ := bind_eq_ok_iff.mp h
  obtain ⟨nsec, last, hnsec, hpure⟩ := bind_eq_ok_iff.mp hrest
  obtain ⟨rfl, rfl⟩ := pure_eq_ok_iff.mp hpure
  obtain ⟨e, header, he, hpassed, hyields⟩ := i64_run hs hsec
  obtain ⟨e', header', he', hpassed', hyields'⟩ := i64_run (hpassed.sound hs) hnsec
  exact ⟨e, e', header ++ header', he, he', hpassed.trans hpassed', hyields.bind hyields'.map⟩

end Decoder

/-- The codec for timestamps reads two elements, neither of them a container. -/
theorem Codec.framed_timestamp : Codec.timestamp.Framed := by
  refine .of_yields fun d v d' hs hdecode => ?_
  obtain ⟨t, last, htime, hpure⟩ := bind_eq_ok_iff.mp hdecode
  obtain ⟨rfl, rfl⟩ := pure_eq_ok_iff.mp hpure
  obtain ⟨e, e', bytes, he, he', hpassed, hyields⟩ := time_run hs htime
  have hitems {e : Element} (he : e.isContainer = false) : 0 = e.items := by
    cases e <;> first | rfl | cases he
  exact ⟨[.node e [], .node e' []], bytes, _,
    ⟨⟨hitems he, trivial⟩, ⟨hitems he', trivial⟩, trivial⟩, hpassed, hyields.map⟩

theorem Registry.framed_default : Registry.default.Framed := by
  intro name codec h
  obtain ⟨before, after, heq, -⟩ := List.lookup_eq_some_iff.mp h
  have hmem : (name, codec) ∈ Registry.default.entries := by rw [heq]; simp
  obtain ⟨-, rfl⟩ := Prod.mk.inj (List.mem_singleton.mp hmem)
  exact Codec.framed_timestamp

end MessagePack
