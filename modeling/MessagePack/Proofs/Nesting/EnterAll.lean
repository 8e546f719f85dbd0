import MessagePack.Proofs.Nesting.CountOff

namespace MessagePack.Nesting

open Wire (Element ElementTree Forest)

/-- Takes note of elements one after another. -/
def enterAll (nesting : Nesting) : List Element → Except Error Nesting
  | [] => .ok nesting
  | e :: rest => nesting.enter e >>= fun next => next.enterAll rest

/-- No complete container is on top, and no more are open than the limit allows. -/
structure Sound (nesting : Nesting) : Prop where
  head_ne_zero : nesting.pending.head? ≠ some 0
  depth_le : nesting.depth ≤ nesting.limit

/-- The nesting after a number of items. -/
def counted (k : Nat) (nesting : Nesting) : Nesting :=
  { nesting with pending := countOff k nesting.pending }

/-- The nesting inside a container of so many items, right after its header. -/
def within (items : Nat) (nesting : Nesting) : Nesting :=
  { nesting with pending := (items :: countItem nesting.pending).dropWhile (· == 0) }

theorem sound_empty (limit : Nat) : Sound { limit } :=
  ⟨by simp, by simp [depth]⟩

theorem Sound.counted {nesting : Nesting} (h : nesting.Sound) (k : Nat) :
    (nesting.counted k).Sound :=
  ⟨countOff_head_ne_zero _ _, Nat.le_trans (countOff_length_le _ _) h.depth_le⟩

theorem counted_counted (a b : Nat) (nesting : Nesting) :
    (nesting.counted b).counted a = nesting.counted (a + b) := by
  simp [Nesting.counted, countOff_add]

theorem counted_zero {nesting : Nesting} (h : nesting.Sound) : nesting.counted 0 = nesting := by
  simp [Nesting.counted, countOff_zero_of_head h.head_ne_zero]

theorem depth_counted_le (k : Nat) (nesting : Nesting) :
    (nesting.counted k).depth ≤ nesting.depth :=
  countOff_length_le k nesting.pending

theorem enterAll_cons (nesting : Nesting) (e : Element) (rest : List Element) :
    nesting.enterAll (e :: rest) = nesting.enter e >>= fun next => next.enterAll rest := rfl

theorem enterAll_append (nesting : Nesting) (a b : List Element) :
    nesting.enterAll (a ++ b) = nesting.enterAll a >>= fun next => next.enterAll b := by
  induction a generalizing nesting with
  | nil => rfl
  | cons e rest ih =>
    simp only [List.cons_append, enterAll_cons]
    cases nesting.enter e with
    | error err => rfl
    | ok next => exact ih next

theorem countItem_length (stack : List Nat) : (countItem stack).length = stack.length := by
  rcases stack with - | ⟨- | n, outer⟩ <;> rfl

theorem length_opened (e : Element) (stack : List Nat) :
    (opened e stack).length = stack.length + if e.isContainer then 1 else 0 := by
  cases e <;> rfl

theorem depth_noted (nesting : Nesting) (e : Element) :
    (nesting.noted e).depth = nesting.depth + if e.isContainer then 1 else 0 := by
  rw [depth, noted, length_opened, countItem_length]
  rfl

/-- The session lets an element pass where the containers it stands in, itself included, are within
the limit. -/
theorem enter_eq (nesting : Nesting) (e : Element) :
    nesting.enter e =
      if nesting.depth + (if e.isContainer then 1 else 0) ≤ nesting.limit then
        .ok { nesting with pending := (opened e (countItem nesting.pending)).dropWhile (· == 0) }
      else .error .depthLimit := by
  simp only [enter, depth_noted]
  by_cases h : nesting.depth + (if e.isContainer then 1 else 0) ≤ nesting.limit
  · rw [if_pos h, if_neg (Nat.not_lt.mpr h)]
    rfl
  · rw [if_neg h, if_pos (Nat.lt_of_not_le h)]

/-- An element without contents is one item of the container around it. -/
theorem enter_scalar {nesting : Nesting} (h : nesting.Sound) {e : Element}
    (he : e.isContainer = false) : nesting.enter e = .ok (nesting.counted 1) := by
  have hopened : opened e (countItem nesting.pending) = countItem nesting.pending := by
    cases e <;> first | rfl | cases he
  rw [enter_eq, he, if_pos (by simpa using h.depth_le), hopened,
    dropWhile_countItem h.head_ne_zero]
  rfl

/-- A container opens one level more, if the limit has room for it. -/
theorem enter_container (nesting : Nesting) {e : Element} (he : e.isContainer = true) :
    nesting.enter e = if nesting.depth < nesting.limit then
      .ok (nesting.within e.items) else .error .depthLimit := by
  have hopened : opened e (countItem nesting.pending) = e.items :: countItem nesting.pending := by
    cases e <;> first | rfl | cases he
  rw [enter_eq, he, hopened]
  rfl

theorem depth_within_le (items : Nat) (nesting : Nesting) :
    (nesting.within items).depth ≤ nesting.depth + 1 := by
  have hlen := (List.dropWhile_sublist (· == 0)
    (l := items :: countItem nesting.pending)).length_le
  rwa [List.length_cons, countItem_length] at hlen

/-- Below the limit there is room for any element. -/
theorem Sound.exists_enter {nesting : Nesting} (h : nesting.Sound)
    (hroom : nesting.depth < nesting.limit) (e : Element) :
    ∃ next, nesting.enter e = .ok next ∧ next.depth ≤ nesting.depth + 1 := by
  by_cases he : e.isContainer = true
  · refine ⟨nesting.within e.items, ?_, depth_within_le _ _⟩
    rw [enter_container nesting he, if_pos hroom]
  · exact ⟨_, enter_scalar h (by simpa using he), Nat.le_succ_of_le (depth_counted_le 1 nesting)⟩

/-- Once all items of a container have come, it has been one item of the one around it. -/
theorem counted_within {k items : Nat} {nesting : Nesting} (h : nesting.Sound) (hk : items ≤ k) :
    (nesting.within items).counted k = nesting.counted (k - items + 1) := by
  simp only [counted, within, countOff_opened h.head_ne_zero hk]

theorem sound_within {nesting : Nesting} (h : nesting.depth < nesting.limit) (items : Nat) :
    (nesting.within items).Sound := by
  refine ⟨?_, Nat.le_trans (depth_within_le items nesting) h⟩
  simp only [within, ← countOff_zero]
  exact countOff_head_ne_zero 0 _

/-- Taking note of an element keeps the nesting sound. -/
theorem Sound.enter {nesting next : Nesting} (h : nesting.Sound) {e : Element}
    (hok : nesting.enter e = .ok next) : next.Sound ∧ next.limit = nesting.limit := by
  by_cases he : e.isContainer = true
  · rw [enter_container nesting he] at hok
    split at hok
    · cases hok
      exact ⟨sound_within ‹_› _, rfl⟩
    · cases hok
  · rw [enter_scalar h (by simpa using he)] at hok
    cases hok
    exact ⟨h.counted 1, rfl⟩

theorem Sound.enterAll {nesting next : Nesting} (h : nesting.Sound) {elements : List Element}
    (hok : nesting.enterAll elements = .ok next) :
    next.Sound ∧ next.limit = nesting.limit := by
  induction elements generalizing nesting with
  | nil => cases hok; exact ⟨h, rfl⟩
  | cons e rest ih =>
    rw [enterAll_cons] at hok
    cases hfirst : nesting.enter e with
    | error err => rw [hfirst] at hok; cases hok
    | ok mid =>
      rw [hfirst] at hok
      obtain ⟨hmid, hlimit⟩ := h.enter hfirst
      obtain ⟨hnext, hlimit'⟩ := ih hmid hok
      exact ⟨hnext, hlimit'.trans hlimit⟩

end MessagePack.Nesting
