import MessagePack.Proofs.Nesting.EnterAll
import MessagePack.Proofs.Wire.PartialForest
import Mathlib.Data.List.Induction

namespace MessagePack

namespace Wire.PartialForest

open Nesting (countItem countOff countOff_zero dropWhile_countItem)

variable {opened : List OpenContainer}

theorem length_unreadOf : (unreadOf opened).length = opened.length := by
  cases opened <;> simp [unreadOf]

/-- The innermost open container has items to come, or it would be complete. -/
theorem unreadOf_head_ne_zero : (unreadOf opened).head? ≠ some 0 := by
  cases opened with
  | nil => simp [unreadOf]
  | cons c outer =>
    have hleft := c.left_pos
    simp only [unreadOf, List.head?_cons, ne_eq, Option.some.injEq]
    omega

/-- Once the next item has begun, it is unread in none of the open containers. -/
theorem countItem_unreadOf : countItem (unreadOf opened) = opened.map (·.left - 1) := by
  cases opened with
  | nil => rfl
  | cons c outer => exact Nesting.countItem_of_pos c.left_pos _

theorem length_le_heightOf : opened.length ≤ heightOf opened := by
  cases opened with
  | nil => exact Nat.zero_le _
  | cons c outer =>
    simp only [heightOf, List.length_cons]
    omega

theorem depth_le_height (p : PartialForest) : p.depth ≤ p.height :=
  Nat.le_trans length_le_heightOf (Nat.le_max_right _ _)

/-- Where one item is left of a container, counting it leaves that container complete. -/
theorem countOff_of_last {c : OpenContainer} {outer : List OpenContainer} (hlast : c.left = 1) :
    countOff 1 (unreadOf (c :: outer)) = countOff 1 (unreadOf outer) := by
  have houter : (unreadOf outer).head? ≠ some 0 := unreadOf_head_ne_zero
  rw [← dropWhile_countItem houter, ← countOff_zero, countItem_unreadOf]
  simp [unreadOf, countOff, hlast]

/-- A whole tree behind what there is of a forest is the next item of the innermost open container.
Where it is the last one, that container is a whole tree itself, and so on outwards. -/
theorem exists_append_tree (p : PartialForest) {t : ElementTree} (ht : t.Whole) :
    ∃ q : PartialForest, q.elements = p.elements ++ t.elements ∧
      q.unread = countOff 1 p.unread ∧ q.height = max p.height (p.depth + t.height) := by
  obtain ⟨done, whole, opened⟩ := p
  induction opened generalizing t with
  | nil =>
    refine ⟨⟨done ++ [t], Forest.sized_append whole ⟨ht, trivial⟩, []⟩, ?_, rfl, ?_⟩
    · simp [elements, Forest.elements_append]
    · simp [height, heightOf, depth, Forest.height_append, Forest.height]
  | cons c outer ih =>
    have hunfinished := c.unfinished
    have hheight : Forest.height (c.done ++ [t]) = max (Forest.height c.done) t.height := by
      simp [Forest.height_append, Forest.height]
    by_cases hmore : c.done.length + 1 < c.head.items
    · refine ⟨⟨done, whole, c.add ht hmore :: outer⟩, ?_, ?_, ?_⟩
      · simp [elements, OpenContainer.elements_add]
      · have hone : 1 < c.left := Nat.lt_sub_of_add_lt (Nat.add_comm .. ▸ hmore)
        simp only [unread, unreadOf, countOff, if_pos hone, OpenContainer.left_add]
      · simp only [height, heightOf, depth, OpenContainer.add, hheight, List.length_cons]
        omega
    · have hfull : (c.done ++ [t]).length = c.head.items := by
        rw [List.length_append, List.length_singleton]
        omega
      have hlast : c.left = 1 := by
        simp only [OpenContainer.left]
        omega
      obtain ⟨q, helements, hunread, hq⟩ :=
        ih (t := .node c.head (c.done ++ [t])) ⟨hfull, c.whole_append ht⟩
      refine ⟨q, ?_, hunread.trans (countOff_of_last hlast).symm, ?_⟩
      · rw [helements]
        simp [elements, OpenContainer.elements, ElementTree.elements, Forest.elements_append]
      · rw [hq]
        simp only [height, heightOf, depth, ElementTree.height, hheight, c.isContainer, if_true,
          List.length_cons]
        omega

/-- One element more: it changes what is unread as the session has it, and is as deep as the
containers it stands in, itself included. -/
structure Extends (p : PartialForest) (e : Element) (q : PartialForest) : Prop where
  elements_eq : q.elements = p.elements ++ [e]
  unread_eq : q.unread = (Nesting.opened e (countItem p.unread)).dropWhile (· == 0)
  height_eq : q.height = max p.height (p.depth + if e.isContainer then 1 else 0)

/-- A scalar or an empty container is complete at once. -/
theorem exists_extends_leaf (p : PartialForest) {e : Element} (hitems : e.items = 0) :
    ∃ q, p.Extends e q := by
  obtain ⟨q, helements, hunread, hheight⟩ :=
    p.exists_append_tree (t := .node e []) ⟨hitems.symm, trivial⟩
  have hhead : p.unread.head? ≠ some 0 := unreadOf_head_ne_zero
  refine ⟨q, helements, ?_, by simpa [ElementTree.height, Forest.height] using hheight⟩
  rw [hunread, ← dropWhile_countItem hhead]
  cases e with
  | array len | map len =>
    have hlen : len = 0 := by
      simp only [Element.items] at hitems
      omega
    simp [Nesting.opened, hlen]
  | _ => rfl

/-- A container with contents is open, and is the innermost. -/
theorem exists_extends_head (p : PartialForest) {e : Element} (hitems : 0 < e.items) :
    ∃ q, p.Extends e q := by
  let c : OpenContainer := ⟨e, [], trivial, hitems⟩
  refine ⟨⟨p.done, p.whole, c :: p.opened⟩, ?_, ?_, ?_⟩
  · simp [elements, OpenContainer.elements, c]
  · have hcontainer := c.isContainer
    have hopened : Nesting.opened e (countItem p.unread) = e.items :: countItem p.unread := by
      cases e <;> first | rfl | cases hcontainer
    rw [hopened, List.dropWhile_cons_of_neg (by simpa using Nat.ne_of_gt hitems), unread, unread,
      countItem_unreadOf]
    rfl
  · have hcontainer : e.isContainer = true := c.isContainer
    simp only [height, heightOf, depth, c, Forest.height, hcontainer, if_true]
    omega

theorem exists_extends (p : PartialForest) (e : Element) : ∃ q, p.Extends e q := by
  rcases Nat.eq_zero_or_pos e.items with hitems | hitems
  · exact p.exists_extends_leaf hitems
  · exact p.exists_extends_head hitems

end Wire.PartialForest

namespace Nesting

open Wire (Element PartialForest)

theorem enterAll_singleton (nesting : Nesting) (e : Element) :
    nesting.enterAll [e] = nesting.enter e := by
  rw [enterAll_cons]
  cases nesting.enter e <;> rfl

/-- A session that lets a beginning of a stream pass knows of each container that is still open how
many items are unread; it lets it pass exactly if no container in it is beyond the limit. -/
theorem exists_enterAll_eq (elements : List Element) :
    ∃ p : PartialForest, p.elements = elements ∧ ∀ limit,
      ({ limit } : Nesting).enterAll elements =
        if p.height ≤ limit then .ok { pending := p.unread, limit } else .error .depthLimit := by
  -- the elements come one by one at the end
  induction elements using List.reverseRecOn with
  | nil => exact ⟨⟨[], trivial, []⟩, rfl, fun limit => (if_pos (Nat.zero_le limit)).symm⟩
  | append_singleton elements e ih =>
    obtain ⟨p, rfl, hp⟩ := ih
    obtain ⟨q, helements, hunread, hheight⟩ := p.exists_extends e
    refine ⟨q, helements, fun limit => ?_⟩
    have hdepth := p.depth_le_height
    rw [enterAll_append, hp limit]
    by_cases hbefore : p.height ≤ limit
    · have hpass : p.depth + (if e.isContainer then 1 else 0) ≤ limit ↔ q.height ≤ limit := by
        rw [hheight]
        omega
      have hstep := enter_eq { pending := p.unread, limit } e
      have hlength : Nesting.depth { pending := p.unread, limit } = p.depth :=
        PartialForest.length_unreadOf
      rw [hlength, ← hunread] at hstep
      rw [if_pos hbefore]
      change Nesting.enterAll { pending := p.unread, limit } [e] = _
      rw [enterAll_singleton, hstep]
      simp only [hpass]
    · rw [if_neg hbefore, if_neg (by omega)]
      rfl

end Nesting

end MessagePack
