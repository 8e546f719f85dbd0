import MessagePack.Nesting
import MessagePack.Proofs.Wire.Forest

namespace MessagePack.Nesting

/-- Counts off a number of items. A container whose items have all come closes, and the rest are
items of the one around it. -/
def countOff : Nat → List Nat → List Nat
  | _, [] => []
  | k, n :: outer => if k < n then (n - k) :: outer else countOff (k - n) outer

theorem countOff_add (a b : Nat) (stack : List Nat) :
    countOff a (countOff b stack) = countOff (a + b) stack := by
  induction stack generalizing b with
  | nil => rfl
  | cons n outer ih =>
    by_cases hb : b < n
    · by_cases hab : a + b < n
      · have ha : a < n - b := by omega
        have hsub : n - b - a = n - (a + b) := by omega
        simp only [countOff, hb, ha, hab, if_true, hsub]
      · have ha : ¬a < n - b := by omega
        have hsub : a - (n - b) = a + b - n := by omega
        simp only [countOff, hb, ha, hab, if_true, if_false, hsub]
    · have hab : ¬a + b < n := by omega
      have hsub : a + (b - n) = a + b - n := by omega
      simp only [countOff, hb, hab, if_false, ih, hsub]

theorem countOff_zero (stack : List Nat) : countOff 0 stack = stack.dropWhile (· == 0) := by
  induction stack with
  | nil => rfl
  | cons n outer ih =>
    cases n with
    | zero => simpa [countOff] using ih
    | succ n => simp [countOff]

theorem countOff_length_le (k : Nat) (stack : List Nat) :
    (countOff k stack).length ≤ stack.length := by
  induction stack generalizing k with
  | nil => simp [countOff]
  | cons n outer ih =>
    simp only [countOff]
    split
    · simp
    · exact Nat.le_trans (ih _) (by simp)

/-- No complete container is on top. -/
theorem countOff_head_ne_zero (k : Nat) (stack : List Nat) :
    (countOff k stack).head? ≠ some 0 := by
  induction stack generalizing k with
  | nil => simp [countOff]
  | cons n outer ih =>
    simp only [countOff]
    split
    · simp; omega
    · exact ih _

/-- Nothing changes where no item is counted and no complete container is on top. -/
theorem countOff_zero_of_head {stack : List Nat} (h : stack.head? ≠ some 0) :
    countOff 0 stack = stack := by
  cases stack with
  | nil => rfl
  | cons n outer =>
    have hn : 0 < n := by simp at h; omega
    simp [countOff, hn]

theorem countItem_of_pos {n : Nat} (hn : 0 < n) (outer : List Nat) :
    countItem (n :: outer) = (n - 1) :: outer := by
  cases n with
  | zero => cases hn
  | succ n => rfl

/-- Counting one item and closing what is complete is counting off one. -/
theorem dropWhile_countItem {stack : List Nat} (h : stack.head? ≠ some 0) :
    (countItem stack).dropWhile (· == 0) = countOff 1 stack := by
  cases stack with
  | nil => rfl
  | cons n outer =>
    have hn : 0 < n := by simp at h; omega
    rw [← countOff_zero, countItem_of_pos hn, countOff, countOff]
    by_cases h1 : 1 < n
    · rw [if_pos h1, if_pos (by omega)]
      simp
    · have hone : n = 1 := by omega
      simp [hone]

/-- Once all items of a container have come, it has been one item of the one around it. -/
theorem countOff_opened {k items : Nat} {stack : List Nat} (h : stack.head? ≠ some 0)
    (hk : items ≤ k) :
    countOff k ((items :: countItem stack).dropWhile (· == 0)) =
      countOff (k - items + 1) stack := by
  have hclosed : countOff k (items :: countItem stack) =
      countOff (k - items) (countItem stack) := by
    rw [countOff, if_neg (by omega)]
  rw [← countOff_zero, countOff_add, Nat.add_zero, hclosed, ← countOff_add, ← dropWhile_countItem h,
    ← countOff_zero, countOff_add, Nat.add_zero]

/-- The session knows of at least the containers that `stack` has open, and of as many items to
come in the innermost of them. -/
def Covers (known stack : List Nat) : Prop :=
  ∀ n outer, stack = n :: outer → ∃ inner m, known = inner ++ m :: outer ∧ n ≤ m

namespace Covers

theorem refl (stack : List Nat) : Covers stack stack :=
  fun n _ h => ⟨[], n, h, Nat.le_refl n⟩

theorem trans {a b c : List Nat} (hab : Covers a b) (hbc : Covers b c) : Covers a c := by
  intro n outer hc
  obtain ⟨inner, m, rfl, hnm⟩ := hbc n outer hc
  cases inner with
  | nil =>
    obtain ⟨inner', m', ha, hmm⟩ := hab m outer rfl
    exact ⟨inner', m', ha, Nat.le_trans hnm hmm⟩
  | cons x inner =>
    obtain ⟨inner', m', ha, -⟩ := hab x (inner ++ m :: outer) rfl
    exact ⟨inner' ++ m' :: inner, m, by simp [ha], hnm⟩

theorem cons {a b : List Nat} (x : Nat) (h : Covers a b) : Covers (x :: a) b := by
  intro n outer hb
  obtain ⟨inner, m, rfl, hnm⟩ := h n outer hb
  exact ⟨x :: inner, m, rfl, hnm⟩

theorem length_le {a b : List Nat} (h : Covers a b) : b.length ≤ a.length := by
  cases b with
  | nil => simp
  | cons n outer =>
    obtain ⟨inner, m, rfl, -⟩ := h n outer rfl
    simp

theorem countOff_self (k : Nat) (stack : List Nat) : Covers stack (countOff k stack) := by
  induction stack generalizing k with
  | nil => exact refl []
  | cons n outer ih =>
    simp only [countOff]
    split
    · intro m outer' hparts
      obtain ⟨rfl, rfl⟩ := hparts
      exact ⟨[], n, rfl, by omega⟩
    · exact (ih _).cons n

/-- Counting off fewer items leaves more to come. -/
theorem countOff_le {j k : Nat} (h : j ≤ k) (stack : List Nat) :
    Covers (countOff j stack) (countOff k stack) := by
  have hsplit : countOff k stack = countOff (k - j) (countOff j stack) := by
    rw [countOff_add, Nat.sub_add_cancel h]
  rw [hsplit]
  exact countOff_self _ _

theorem countOff_one {a b : List Nat} (h : Covers a b) (ha : a.head? ≠ some 0)
    (hb : b.head? ≠ some 0) : Covers (countOff 1 a) (countOff 1 b) := by
  cases b with
  | nil => intro n outer hnil; simp [countOff] at hnil
  | cons n outer =>
    have hn : 0 < n := by simp at hb; omega
    obtain ⟨inner, m, rfl, hnm⟩ := h n outer rfl
    cases inner with
    | nil =>
      -- the same container is on top of both
      by_cases hm : 1 < m
      · rw [List.nil_append, countOff, if_pos hm, countOff]
        split
        · intro p outer' hparts
          obtain ⟨rfl, rfl⟩ := hparts
          exact ⟨[], m - 1, rfl, by omega⟩
        · exact (countOff_self _ outer).cons _
      · obtain rfl : n = m := by omega
        exact refl _
    | cons x inner =>
      -- the item is counted further in, so what is known of `b` stays as it was
      have hx : 0 < x := by simp at ha; omega
      have hkeep : Covers (countOff 1 (x :: (inner ++ m :: outer))) (n :: outer) := by
        have hall : ∀ inner : List Nat, Covers (countOff 0 (inner ++ m :: outer)) (n :: outer) := by
          intro inner
          induction inner with
          | nil =>
            rw [List.nil_append, countOff, if_pos (by omega)]
            intro p outer' hparts
            obtain ⟨rfl, rfl⟩ := hparts
            exact ⟨[], m, rfl, hnm⟩
          | cons y inner ih =>
            rw [List.cons_append, countOff]
            split
            · intro p outer' hparts
              obtain ⟨rfl, rfl⟩ := hparts
              exact ⟨(y - 0) :: inner, m, rfl, hnm⟩
            · simpa using ih
        rw [countOff]
        split
        · intro p outer' hparts
          obtain ⟨rfl, rfl⟩ := hparts
          exact ⟨(x - 1) :: inner, m, rfl, hnm⟩
        · rw [show 1 - x = 0 by omega]
          exact hall inner
      exact hkeep.trans (countOff_self 1 _)

theorem countOff {a b : List Nat} (h : Covers a b) (ha : a.head? ≠ some 0)
    (hb : b.head? ≠ some 0) (k : Nat) : Covers (countOff k a) (countOff k b) := by
  induction k with
  | zero => rwa [countOff_zero_of_head ha, countOff_zero_of_head hb]
  | succ k ih =>
    have hstep := ih.countOff_one (countOff_head_ne_zero k a) (countOff_head_ne_zero k b)
    rwa [countOff_add, countOff_add, Nat.add_comm] at hstep

end Covers

end MessagePack.Nesting
