import MessagePack.Registry

namespace MessagePack

private theorem lookup_without {α : Type} {name other : String} (h : other ≠ name)
    (list : List (String × α)) :
    (list.filter fun entry => entry.1 != name).lookup other = list.lookup other := by
  induction list with
  | nil => rfl
  | cons entry list ih =>
    by_cases hname : entry.1 = name
    · have hother : (other == entry.1) = false := by simp [hname, h]
      rw [List.filter_cons_of_neg (by simp [hname]), ih, List.lookup_cons, hother]
    · rw [List.filter_cons_of_pos (by simp [hname]), List.lookup_cons, List.lookup_cons, ih]

/-- A name that is registered has its new codec, and every other name the one it had. -/
theorem Registry.get?_register (registry : Registry) (name : String) (codec : Codec)
    (other : String) : (registry.register name codec).get? other =
      if other = name then some codec else registry.get? other := by
  unfold register get?
  by_cases h : other = name
  · simp [h]
  · rw [List.lookup_cons, beq_eq_false_iff_ne.mpr h, if_neg h]
    exact lookup_without h registry.entries

/-- What holds of every codec of a registry and of a new one holds of every codec once the new one
is registered. -/
theorem Registry.forall_register {P : Codec → Prop} {registry : Registry}
    (h : ∀ name codec, registry.get? name = some codec → P codec) (name : String) {codec : Codec}
    (hcodec : P codec) (other : String) (found : Codec)
    (hget : (registry.register name codec).get? other = some found) : P found := by
  rw [get?_register] at hget
  split at hget
  · cases hget
    exact hcodec
  · exact h other found hget

end MessagePack
