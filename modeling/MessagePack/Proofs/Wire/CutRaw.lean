import MessagePack.Proofs.Wire.Streams

namespace MessagePack.Wire

/-- The bytes carry elements up to the payload of the last one, which has so many bytes. -/
inductive Leads : Nat → List UInt8 → Prop where
  | whole {elements : List Element} {bytes : List UInt8} (streams : Streams elements bytes) :
      Leads 0 bytes
  | header {elements : List Element} {e : Element} {bytes header : List UInt8}
      (streams : Streams elements bytes) (head : IsHeader e header) :
      Leads e.payload (bytes ++ header)

/-- The bytes end in the payload of a raw of `len` bytes, and what they have of it is `present`. -/
inductive CutRaw : List UInt8 → Nat → List UInt8 → Prop where
  | intro {elements : List Element} {before header present : List UInt8} {len : Nat}
      (streams : Streams elements before) (head : IsHeader (.raw len) header)
      (short : present.length < len) : CutRaw (before ++ (header ++ present)) len present

variable {elements elements' : List Element} {e : Element} {len len' owed : Nat}
  {bytes before before' header header' data rest present present' : List UInt8}

namespace Leads

/-- With the payload the last element is whole. -/
theorem exists_streams (h : Leads owed bytes) (hdata : data.length = owed) :
    ∃ elements, Streams elements (bytes ++ data) := by
  cases h with
  | @whole elements _ streams =>
    obtain rfl := List.length_eq_zero_iff.mp hdata
    rw [List.append_nil]
    exact ⟨elements, streams⟩
  | @header elements e bytes header streams head =>
    have hone : Streams [e] (header ++ (data ++ [])) := .cons head hdata .nil
    rw [List.append_nil] at hone
    rw [List.append_assoc]
    exact ⟨elements ++ [e], streams.append hone⟩

/-- Nothing but a raw has a payload that bytes can end in. -/
theorem cutRaw (h : Leads len before) (short : present.length < len) :
    CutRaw (before ++ present) len present := by
  cases h with
  | whole streams => exact absurd short (Nat.not_lt_zero _)
  | @header elements e bytes header streams head =>
    cases e with
    | raw len =>
      rw [List.append_assoc]
      exact .intro streams head short
    | _ => exact absurd short (Nat.not_lt_zero _)

end Leads

/-- A raw that is cut short is none that is carried. -/
private theorem ne_of_short (head : IsHeader (.raw len) header) (short : present.length < len)
    (head' : IsHeader e header') (payload : data.length = e.payload) :
    header ++ present ≠ header' ++ (data ++ rest) := by
  intro heq
  obtain ⟨rfl, -, rfl⟩ := head.append_inj head' heq
  rw [List.length_append, payload] at short
  exact absurd short (Nat.not_lt.mpr (Nat.le_add_right _ _))

private theorem unique_behind (streams : Streams elements before)
    (streams' : Streams elements' before') (head : IsHeader (.raw len) header)
    (head' : IsHeader (.raw len') header') (short : present.length < len)
    (short' : present'.length < len')
    (heq : before ++ (header ++ present) = before' ++ (header' ++ present')) :
    len' = len ∧ present' = present := by
  induction streams generalizing elements' before' with
  | nil =>
    cases streams' with
    | nil =>
      obtain ⟨hraw, -, hpresent⟩ := head.append_inj head' heq
      exact ⟨(Element.raw.inj hraw).symm, hpresent.symm⟩
    | cons head₁ payload _ =>
      simp only [List.nil_append, List.append_assoc] at heq
      exact absurd heq (ne_of_short head short head₁ payload)
  | cons head₁ payload _ ih =>
    cases streams' with
    | nil =>
      simp only [List.nil_append, List.append_assoc] at heq
      exact absurd heq.symm (ne_of_short head' short' head₁ payload)
    | cons head₂ payload' tail' =>
      simp only [List.append_assoc] at heq
      obtain ⟨rfl, -, hafter⟩ := head₁.append_inj head₂ heq
      obtain ⟨-, hrest⟩ := List.append_inj hafter (payload.trans payload'.symm)
      exact ih tail' hrest

/-- Bytes end in the payload of one raw only. -/
theorem CutRaw.unique (h : CutRaw bytes len present) (h' : CutRaw bytes len' present') :
    len' = len ∧ present' = present := by
  cases h with
  | @intro _ before header _ _ streams head short =>
    generalize hbytes : before ++ (header ++ present) = bytes at h'
    cases h' with
    | intro streams' head' short' =>
      exact unique_behind streams streams' head head' short short' hbytes

end MessagePack.Wire
