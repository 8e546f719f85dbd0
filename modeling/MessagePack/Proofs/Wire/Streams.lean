import MessagePack.Proofs.Wire.Forest
import MessagePack.Proofs.Wire.IsHeader

namespace MessagePack.Wire

/-- The number of bytes that belong to an element after its header. -/
def Element.payload : Element → Nat
  | raw len => len
  | _ => 0

/-- The byte strings that carry elements one after another, each raw followed by its bytes. -/
inductive Streams : List Element → List UInt8 → Prop where
  | nil : Streams [] []
  | cons {e : Element} {elements : List Element} {header data bytes : List UInt8}
      (head : IsHeader e header) (payload : data.length = e.payload)
      (tail : Streams elements bytes) : Streams (e :: elements) (header ++ (data ++ bytes))

namespace Streams

variable {e : Element} {elements elements' : List Element} {bytes bytes' : List UInt8}

theorem header (h : IsHeader e bytes) (he : e.payload = 0) : Streams [e] bytes := by
  have hone : Streams [e] (bytes ++ ([] ++ [])) := .cons h he.symm .nil
  simpa using hone

theorem raw {data : List UInt8} (h : IsHeader (.raw data.length) bytes) :
    Streams [.raw data.length] (bytes ++ data) := by
  have hone := Streams.cons h (show data.length = (Element.raw data.length).payload from rfl) .nil
  rwa [List.append_nil] at hone

theorem append (h : Streams elements bytes) (h' : Streams elements' bytes') :
    Streams (elements ++ elements') (bytes ++ bytes') := by
  induction h with
  | nil => exact h'
  | cons head payload _ ih =>
    rw [List.cons_append, List.append_assoc, List.append_assoc]
    exact .cons head payload ih

theorem ne_nil (h : Streams elements bytes) (he : elements ≠ []) : bytes ≠ [] := by
  cases h with
  | nil => exact absurd rfl he
  | cons head _ _ =>
    obtain ⟨tag, field, rfl⟩ := head.exists_cons
    simp

theorem exists_append (h : Streams (elements ++ elements') bytes) :
    ∃ first second, bytes = first ++ second ∧ Streams elements first ∧
      Streams elements' second := by
  induction elements generalizing bytes with
  | nil => exact ⟨[], bytes, rfl, .nil, h⟩
  | cons e elements ih =>
    cases h with
    | cons head payload tail =>
      obtain ⟨first, second, rfl, hfirst, hsecond⟩ := ih tail
      exact ⟨_, second, by simp only [List.append_assoc], .cons head payload hfirst, hsecond⟩

/-- A byte string carries one sequence of elements only. -/
theorem unique (h : Streams elements bytes) (h' : Streams elements' bytes) :
    elements = elements' := by
  induction h generalizing elements' with
  | nil =>
    by_contra hne
    exact h'.ne_nil (Ne.symm hne) rfl
  | @cons e elements header data bytes head payload tail ih =>
    generalize hwhole : header ++ (data ++ bytes) = whole at h'
    cases h' with
    | nil =>
      obtain ⟨tag, field, rfl⟩ := head.exists_cons
      simp at hwhole
    | cons head' payload' tail' =>
      obtain ⟨rfl, rfl, hrest⟩ := head.append_inj head' hwhole
      obtain ⟨rfl, rfl⟩ := List.append_inj hrest (payload.trans payload'.symm)
      rw [ih tail']

end Streams

end MessagePack.Wire
