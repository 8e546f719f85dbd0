import MessagePack.Proofs.Timestamp.Instant

namespace MessagePack.Timestamp

/-- Two instants that fold over at an end of the range: their seconds are apart but come to the same
last second that can be held, and the earlier instant has more nanoseconds past its own. -/
structure Folds (n m : Int) : Prop where
  apart : n / 1000000000 < m / 1000000000
  together : Int64.maxValue.toInt ≤ n / 1000000000 ∨ m / 1000000000 ≤ Int64.minValue.toInt
  nanos : m % 1000000000 < n % 1000000000

theorem isLE_iff_instant (t u : Timestamp) :
    (compare t u).isLE = true ↔ t.instant ≤ u.instant := by
  rw [compare_eq_instant, Int.isLE_compare]

namespace StandsFor

variable {t u : Timestamp} {n m : Int}

/-- The second of an instant as it is held: itself, or the end of the range that lies nearer. -/
theorem toInt_seconds (h : t.StandsFor n) :
    t.seconds.toInt =
      Max.max Int64.minValue.toInt (Min.min (n / 1000000000) Int64.maxValue.toInt) := by
  have hends : Int64.minValue.toInt ≤ Int64.maxValue.toInt := by decide
  by_cases hbelow : n / 1000000000 < Int64.minValue.toInt
  · rw [h.below hbelow]
    omega
  by_cases habove : Int64.maxValue.toInt < n / 1000000000
  · rw [h.above habove]
    omega
  · have hholds : Holds (n / 1000000000) := ⟨Int.not_lt.mp hbelow, Int.not_lt.mp habove⟩
    rw [← second_instant, h.instant_eq hholds]
    omega

/-- Held seconds never go back. -/
theorem seconds_mono (h : t.StandsFor n) (h' : u.StandsFor m) (hle : n ≤ m) :
    t.seconds.toInt ≤ u.seconds.toInt := by
  have hfloor : n / 1000000000 ≤ m / 1000000000 := Int.ediv_le_ediv (by decide) hle
  rw [h.toInt_seconds, h'.toInt_seconds]
  omega

/-- The nanoseconds past a second that had to stop are kept, so later instants may come to lie
before earlier ones in that last second, and nowhere else. -/
theorem instant_le_iff (h : t.StandsFor n) (h' : u.StandsFor m) (hle : n ≤ m) :
    t.instant ≤ u.instant ↔ ¬Folds n m := by
  have hseconds := h.toInt_seconds
  have hseconds' := h'.toInt_seconds
  have hnanos := h.nanos
  have hnanos' := h'.nanos
  have hlt := t.nanos_lt
  have hlt' := u.nanos_lt
  have hends : Int64.minValue.toInt < Int64.maxValue.toInt := by decide
  simp only [instant]
  constructor
  · intro hkept hfolds
    have hapart := hfolds.apart
    have hlower := hfolds.nanos
    rcases hfolds.together with hlast | hfirst <;> omega
  · intro hstays
    by_contra hback
    -- the later instant came out earlier, so both are held in one second
    have hsame : t.seconds.toInt = u.seconds.toInt := by
      have hmono := h.seconds_mono h' hle
      omega
    refine hstays ⟨by omega, by omega, by omega⟩

end StandsFor

/-- A later instant never has an earlier second, and never makes an earlier timestamp unless the two
fold over at an end of the range; then it always does. -/
theorem new_keeps_order (a b c d : Int64) (h : instantAt a b ≤ instantAt c d) :
    (new a b).seconds.toInt ≤ (new c d).seconds.toInt ∧
    ((compare (new a b) (new c d)).isLE = true ↔ ¬Folds (instantAt a b) (instantAt c d)) := by
  have hfirst := new_standsFor a b
  have hlater := new_standsFor c d
  rw [isLE_iff_instant]
  exact ⟨hfirst.seconds_mono hlater h, hfirst.instant_le_iff hlater h⟩

/-- Two instants beyond the end of the range, and two on either side of its beginning. -/
theorem new_keeps_order_beyond :
    (instantAt Int64.maxValue 1000000000 ≤ instantAt Int64.maxValue 2000000005 ∧
      (compare (new Int64.maxValue 1000000000) (new Int64.maxValue 2000000005)).isLE = true) ∧
    (instantAt Int64.minValue (-1) ≤ instantAt Int64.minValue 1000000000 ∧
      (compare (new Int64.minValue (-1)) (new Int64.minValue 1000000000)).isLE = true) := by
  have hbeyond : instantAt Int64.maxValue 1000000000 ≤ instantAt Int64.maxValue 2000000005 := by
    decide
  have hacross : instantAt Int64.minValue (-1) ≤ instantAt Int64.minValue 1000000000 := by decide
  refine ⟨⟨hbeyond, (new_keeps_order _ _ _ _ hbeyond).2.mpr ?_⟩,
    ⟨hacross, (new_keeps_order _ _ _ _ hacross).2.mpr ?_⟩⟩
  · intro hfolds
    exact absurd hfolds.nanos (by decide)
  · intro hfolds
    rcases hfolds.together with hlast | hfirst
    · exact absurd hlast (by decide)
    · exact absurd hfirst (by decide)

/-- The last instant that can be held makes a later timestamp than the nanosecond after it. -/
theorem new_folds_back :
    ¬∀ a b c d : Int64, instantAt a b ≤ instantAt c d →
      (compare (new a b) (new c d)).isLE = true := by
  intro hkept
  have hlast := hkept Int64.maxValue 999999999 Int64.maxValue 1000000000 (by decide)
  rw [isLE_iff_instant] at hlast
  exact absurd hlast (by decide)

end MessagePack.Timestamp
