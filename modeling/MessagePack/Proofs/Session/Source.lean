import MessagePack.Source
import Mathlib.Tactic.Common

namespace MessagePack.Source

/-- Every read of the source brings something while there is anything left. -/
def Steady (source : Source) : Prop :=
  ∀ position wanted, 0 < wanted → 0 < source.piece position wanted

/-- The source after `n` more bytes. -/
def advance (n : Nat) (source : Source) : Source :=
  { source with rest := source.rest.drop n, position := source.position + n }

/-- How an attempt ends that needs more bytes than are left. -/
def exhausted (got : Nat) (source : Source) : Fill :=
  match source.failure with
  | some fault => .failed fault
  | none => .ended got

theorem steady_ofBytes (bytes : List UInt8) : Steady (ofBytes bytes) :=
  fun _ _ h => h

theorem advance_zero (source : Source) : source.advance 0 = source := rfl

theorem advance_advance (a b : Nat) (source : Source) :
    (source.advance a).advance b = source.advance (a + b) := by
  simp [advance, Nat.add_assoc]

theorem read_of_rest {source : Source} (hs : source.Steady) (hrest : source.rest ≠ [])
    {wanted : Nat} (hw : 0 < wanted) :
    ∃ k, 0 < k ∧ k ≤ wanted ∧ k ≤ source.rest.length ∧
      source.read wanted = (.ok (source.rest.take k), source.advance k) := by
  have hpiece := hs source.position wanted hw
  have hlen := List.length_pos_iff.mpr hrest
  let k := min (min wanted (source.piece source.position wanted)) source.rest.length
  have htake : source.rest.take (min wanted (source.piece source.position wanted)) =
      source.rest.take k := by
    rw [List.take_eq_take_min]
  have hlentake : (source.rest.take k).length = k := by
    rw [List.length_take]
    omega
  refine ⟨k, by omega, by omega, by omega, ?_⟩
  unfold read
  split
  · contradiction
  · contradiction
  · simp only [htake, hlentake]
    rfl

theorem read_of_no_rest {source : Source} (hrest : source.rest = []) (wanted : Nat) :
    source.read wanted = (match source.failure with
      | some fault => .error fault
      | none => .ok [], source) := by
  unfold read
  rw [hrest]
  cases source.failure <;> rfl

private theorem fillFrom_eq {source : Source} (hs : source.Steady) (got : List UInt8)
    {wanted reads : Nat} (hr : wanted ≤ reads) :
    fillFrom got wanted reads source =
      if wanted ≤ source.rest.length then
        (.full (got.reverse ++ source.rest.take wanted), source.advance wanted)
      else (source.exhausted (got.length + source.rest.length),
        source.advance source.rest.length) := by
  induction reads generalizing source got wanted with
  | zero =>
    obtain rfl : wanted = 0 := Nat.le_zero.mp hr
    simp [fillFrom, advance_zero]
  | succ reads ih =>
    rw [fillFrom]
    by_cases hw : wanted = 0
    · subst hw
      simp [advance_zero]
    rw [if_neg hw]
    by_cases hrest : source.rest = []
    · rw [read_of_no_rest hrest]
      obtain ⟨rest, position, piece, failure⟩ := source
      obtain rfl : rest = [] := hrest
      cases failure <;> simp [exhausted, advance, hw]
    · obtain ⟨k, hk, hkw, hklen, hread⟩ := read_of_rest hs hrest (Nat.pos_of_ne_zero hw)
      have hs' : (source.advance k).Steady := hs
      have htaken : (source.rest.take k).length = k := by rw [List.length_take]; omega
      have hleft : (source.advance k).rest.length = source.rest.length - k := by simp [advance]
      obtain ⟨b, bs, hcons⟩ : ∃ b bs, source.rest.take k = b :: bs :=
        List.exists_cons_of_length_pos (by omega)
      rw [hread, hcons]
      simp only
      rw [← hcons, ih hs' _ (by omega), htaken, hleft]
      by_cases hfull : wanted ≤ source.rest.length
      · rw [if_pos (by omega), if_pos hfull, advance_advance, Nat.add_sub_cancel' hkw]
        congr 2
        simp only [List.reverseAux_eq, List.reverse_append, List.reverse_reverse,
          List.append_assoc, advance]
        rw [← List.take_add, Nat.add_sub_cancel' hkw]
      · rw [if_neg (by omega), if_neg hfull, advance_advance, Nat.add_sub_cancel' hklen]
        congr 1
        simp only [exhausted, advance, List.reverseAux_eq, List.length_append, List.length_reverse,
          htaken]
        rw [show k + got.length + (source.rest.length - k) = got.length + source.rest.length by
          omega]

/-- A steady source fills a request exactly when it has that many bytes left, however it splits
them over its reads. -/
theorem fill_eq {source : Source} (hs : source.Steady) (wanted : Nat) :
    source.fill wanted = if wanted ≤ source.rest.length then
      (.full (source.rest.take wanted), source.advance wanted)
      else (source.exhausted source.rest.length, source.advance source.rest.length) := by
  simpa [fill] using fillFrom_eq hs [] (Nat.le_refl wanted)

private theorem fillFrom_length {got bytes : List UInt8} {wanted reads : Nat}
    {source source' : Source} (hr : wanted ≤ reads)
    (h : fillFrom got wanted reads source = (.full bytes, source')) :
    bytes.length = got.length + wanted := by
  induction reads generalizing got wanted source with
  | zero =>
    cases h
    simp
    omega
  | succ reads ih =>
    rw [fillFrom] at h
    split_ifs at h with hw
    · cases h
      simp [hw]
    · have hread : ∀ got' next, source.read wanted = (.ok got', next) → got'.length ≤ wanted := by
        intro got' next hread
        unfold read at hread
        split at hread
        · cases hread
        · cases hread
          exact Nat.zero_le _
        · cases hread
          simp only [List.length_take]
          omega
      split at h
      · cases h
      · cases h
      · rename_i more next hne hmore
        have hlen := hread more next hmore
        have hpos : 0 < more.length := List.length_pos_iff.mpr fun hnil => hne (hnil ▸ rfl)
        rw [ih (by omega) h, List.reverseAux_eq, List.length_append, List.length_reverse]
        omega

/-- A request that is filled has as many bytes as were wanted, however the source behaves. -/
theorem length_of_fill {wanted : Nat} {bytes : List UInt8} {source source' : Source}
    (h : source.fill wanted = (.full bytes, source')) : bytes.length = wanted := by
  rw [fillFrom_length (Nat.le_refl wanted) h, List.length_nil, Nat.zero_add]

end MessagePack.Source
