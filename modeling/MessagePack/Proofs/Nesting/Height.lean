import MessagePack.Proofs.Nesting.EnterAll

namespace MessagePack

namespace Wire

mutual

/-- How many items of the container around it the session takes a tree for: one, and one more for
each of its contents past the number it announces. -/
def ElementTree.count : ElementTree → Nat
  | .node head contents => Forest.count contents - head.items + 1

def Forest.count : Forest → Nat
  | [] => 0
  | t :: rest => t.count + Forest.count rest

end

theorem ElementTree.count_pos (t : ElementTree) : 0 < t.count := by
  cases t
  simp [ElementTree.count]

theorem Forest.length_le_count (f : Forest) : f.length ≤ f.count := by
  induction f with
  | nil => simp
  | cons t rest ih =>
    have ht := t.count_pos
    simp only [List.length_cons, Forest.count]
    omega

mutual

theorem ElementTree.Sized.count_eq : {t : ElementTree} → t.Whole → t.count = 1
  | .node head contents, h => by
    have hcontents := Forest.Sized.count_eq h.2
    simp [ElementTree.count, hcontents, h.1]

theorem Forest.Sized.count_eq : {f : Forest} → f.Whole → f.count = f.length
  | [], _ => rfl
  | t :: rest, h => by
    have ht := ElementTree.Sized.count_eq h.1
    have hrest := Forest.Sized.count_eq h.2
    simp only [Forest.count, ht, hrest, List.length_cons, Nat.add_comm]

end

end Wire

namespace Nesting

open Wire (Element ElementTree Forest)

mutual

/-- Where every container gets the items it announces, the session follows as deep as its limit
allows, and takes the whole for the items it counts for. -/
theorem enterAll_tree_of_lavish : {t : ElementTree} → t.Lavish → {nesting : Nesting} →
    nesting.Sound → nesting.depth + t.height ≤ nesting.limit →
    nesting.enterAll t.elements = .ok (nesting.counted t.count)
  | .node head contents, h, nesting, hs, hroom => by
    simp only [ElementTree.height] at hroom
    rw [ElementTree.elements, enterAll_cons]
    by_cases hc : head.isContainer = true
    · have hlt : nesting.depth < nesting.limit := by simp only [hc, if_true] at hroom; omega
      have hdepth := depth_within_le head.items nesting
      have hcontents := enterAll_forest_of_lavish h.2 (sound_within hlt head.items)
        (by simp only [hc, if_true] at hroom; exact Nat.le_trans (by omega) hroom)
      have hitems : head.items ≤ Forest.count contents :=
        Nat.le_trans h.1 (Forest.length_le_count contents)
      rw [enter_container nesting hc, if_pos hlt]
      refine hcontents.trans ?_
      rw [counted_within hs hitems, ElementTree.count]
    · have hscalar : head.isContainer = false := by simpa using hc
      have hitems : head.items = 0 := by cases head <;> first | rfl | cases hscalar
      rw [enter_scalar hs hscalar]
      have hcontents := enterAll_forest_of_lavish h.2 (hs.counted 1)
        (by have := depth_counted_le 1 nesting
            simp only [hscalar] at hroom
            exact Nat.le_trans (Nat.add_le_add_right this _) hroom)
      refine hcontents.trans ?_
      rw [counted_counted, ElementTree.count, hitems, Nat.sub_zero]

theorem enterAll_forest_of_lavish : {f : Forest} → f.Lavish → {nesting : Nesting} →
    nesting.Sound → nesting.depth + f.height ≤ nesting.limit →
    nesting.enterAll f.elements = .ok (nesting.counted f.count)
  | [], _, nesting, hs, _ => by
    rw [Forest.count, counted_zero hs]
    rfl
  | t :: rest, h, nesting, hs, hroom => by
    simp only [Forest.height] at hroom
    have ht := enterAll_tree_of_lavish h.1 hs (by omega)
    have hdepth := depth_counted_le t.count nesting
    have hrest := enterAll_forest_of_lavish h.2 (hs.counted t.count)
      (Nat.le_trans (Nat.add_le_add_right hdepth _) (by
        change nesting.depth + Forest.height rest ≤ nesting.limit
        omega))
    rw [Forest.elements_cons, enterAll_append, ht]
    refine hrest.trans ?_
    rw [counted_counted, Forest.count, Nat.add_comm]

end

mutual

/-- Where no container gets more items than it announces, the session never loses sight of one that
is open, so whatever it lets pass is within its limit. -/
theorem height_le_of_thrifty : {t : ElementTree} → t.Thrifty → {nesting next : Nesting} →
    nesting.Sound → nesting.enterAll t.elements = .ok next →
    nesting.depth + t.height ≤ nesting.limit ∧
      Covers next.pending (countOff 1 nesting.pending)
  | .node head contents, h, nesting, next, hs, hok => by
    rw [ElementTree.elements, enterAll_cons] at hok
    simp only [ElementTree.height]
    by_cases hc : head.isContainer = true
    · have hfirst := enter_container nesting hc
      by_cases hlt : nesting.depth < nesting.limit
      · rw [if_pos hlt] at hfirst
        rw [hfirst] at hok
        obtain ⟨hheight, hcovers⟩ :=
          heights_le_of_thrifty h.2 (sound_within hlt head.items) hok
        have hall := countOff_opened (k := head.items) hs.head_ne_zero (Nat.le_refl _)
        rw [Nat.sub_self, Nat.zero_add] at hall
        refine ⟨?_, hcovers.trans (hall ▸ Covers.countOff_le h.1 _)⟩
        simp only [hc, if_true]
        cases contents with
        | nil =>
          simp only [Forest.height]
          omega
        | cons t rest =>
          have hitems : 0 < head.items := Nat.lt_of_lt_of_le (by simp) h.1
          have hlen : (countItem nesting.pending).length = nesting.depth := countItem_length _
          have hopen : (head.items :: countItem nesting.pending).dropWhile (· == 0) =
              head.items :: countItem nesting.pending := by
            rw [List.dropWhile_cons_of_neg (by simp; omega)]
          have hcov : Covers (nesting.within head.items).pending
              (head.items :: countItem nesting.pending) := by
            rw [within, hopen]
            exact Covers.refl _
          have hdeep := hheight head.items (countItem nesting.pending) hcov h.1
          rw [hlen] at hdeep
          simp only [within] at hdeep
          omega
      · rw [if_neg hlt] at hfirst
        rw [hfirst] at hok
        cases hok
    · have hscalar : head.isContainer = false := by simpa using hc
      have hitems : head.items = 0 := by cases head <;> first | rfl | cases hscalar
      obtain rfl : contents = [] := List.length_eq_zero_iff.mp (Nat.le_zero.mp (hitems ▸ h.1))
      rw [enter_scalar hs hscalar] at hok
      cases hok
      refine ⟨?_, Covers.refl _⟩
      simpa [hscalar, Forest.height] using hs.depth_le

/-- What is read inside the container on top of the stack `n :: outer` goes no deeper than the limit
leaves room for. -/
theorem heights_le_of_thrifty : {f : Forest} → f.Thrifty → {nesting next : Nesting} →
    nesting.Sound → nesting.enterAll f.elements = .ok next →
    (∀ n outer, Covers nesting.pending (n :: outer) → f.length ≤ n →
      outer.length + 1 + f.height ≤ nesting.limit) ∧
      Covers next.pending (countOff f.length nesting.pending)
  | [], _, nesting, next, hs, hok => by
    cases hok
    refine ⟨fun n outer hcov _ => ?_, ?_⟩
    · have hlen := hcov.length_le
      have hle := hs.depth_le
      simp only [List.length_cons] at hlen
      simp only [Forest.height, Nat.add_zero]
      exact Nat.le_trans hlen hle
    · rw [List.length_nil, countOff_zero_of_head hs.head_ne_zero]
      exact Covers.refl _
  | t :: rest, h, nesting, next, hs, hok => by
    rw [Forest.elements_cons, enterAll_append] at hok
    cases hfirst : nesting.enterAll t.elements with
    | error err => rw [hfirst] at hok; cases hok
    | ok mid =>
      rw [hfirst] at hok
      obtain ⟨hmid, hlimit⟩ := hs.enterAll hfirst
      obtain ⟨hheight, hcov⟩ := height_le_of_thrifty h.1 hs hfirst
      obtain ⟨hheights, hcovs⟩ := heights_le_of_thrifty h.2 hmid hok
      constructor
      · intro n outer houter hn
        rw [List.length_cons] at hn
        have hlen := houter.length_le
        simp only [List.length_cons] at hlen
        simp only [Forest.height]
        have hfits : outer.length + 1 + t.height ≤ nesting.limit :=
          Nat.le_trans (Nat.add_le_add_right hlen _) hheight
        cases rest with
        | nil =>
          simp only [Forest.height]
          omega
        | cons t' rest =>
          have htop : countOff 1 (n :: outer) = (n - 1) :: outer := by
            rw [countOff, if_pos (by simp at hn; omega)]
          have hstep := houter.countOff_one hs.head_ne_zero (by simp; omega)
          rw [htop] at hstep
          have hdeep := hheights (n - 1) outer (hcov.trans hstep) (by omega)
          rw [hlimit] at hdeep
          omega
      · have hstep := hcov.countOff hmid.head_ne_zero (countOff_head_ne_zero 1 _) rest.length
        rw [countOff_add] at hstep
        exact hcovs.trans hstep

end

/-- A complete element is accepted exactly when it fits under the limit, and is then one item of
the container around it. -/
theorem enterAll_whole_eq_ok_iff {t : ElementTree} (h : t.Whole) {nesting next : Nesting}
    (hs : nesting.Sound) : nesting.enterAll t.elements = .ok next ↔
      nesting.depth + t.height ≤ nesting.limit ∧ next = nesting.counted 1 := by
  have hlavish := h.lavish
  have hok (hroom : nesting.depth + t.height ≤ nesting.limit) :=
    h.count_eq ▸ enterAll_tree_of_lavish hlavish hs hroom
  constructor
  · intro hnext
    have hroom := (height_le_of_thrifty (h.mono fun a b => Nat.le_of_eq) hs hnext).1
    rw [hok hroom] at hnext
    exact ⟨hroom, (Except.ok.inj hnext).symm⟩
  · intro hparts
    obtain ⟨hroom, rfl⟩ := hparts
    exact hok hroom

end Nesting

end MessagePack
