import MessagePack.Proofs.Timestamp.Instant
import MessagePack.Timestamp.SystemTime

namespace MessagePack

/-- A length of time in nanoseconds. -/
def Duration.toNanos (d : Duration) : Nat := d.seconds.toNat * 1000000000 + d.nanos

namespace SystemTime

theorem second_toNanos (t : SystemTime) : t.toNanos / 1000000000 = t.seconds.toInt := by
  have hlt := t.nanos_lt
  simp only [toNanos]
  omega

/-- The clock shows the instants of the seconds it can count, each in one way. -/
theorem ofNanos?_eq_some_iff {n : Int} {t : SystemTime} : ofNanos? n = some t ↔ t.toNanos = n := by
  constructor
  · intro hreached
    simp only [ofNanos?] at hreached
    split_ifs at hreached with hrange
    cases hreached
    simp only [toNanos]
    rw [Int64.toInt_ofInt_of_le hrange.1 hrange.2]
    omega
  · rintro rfl
    have hlow := t.seconds.le_toInt
    have hhigh := t.seconds.toInt_lt
    have hlt := t.nanos_lt
    have hsecond := second_toNanos t
    have hnanos : (t.toNanos % 1000000000).toNat = t.nanos := by
      simp only [toNanos]
      omega
    simp only [ofNanos?, hsecond, hnanos, Int64.ofInt_toInt]
    exact if_pos ⟨by omega, by omega⟩

variable {s t : SystemTime} {d : Duration}

theorem add?_eq_some_iff : t.add? d = some s ↔ s.toNanos = t.toNanos + d.toNanos :=
  ofNanos?_eq_some_iff

theorem sub?_eq_some_iff : t.sub? d = some s ↔ s.toNanos = t.toNanos - d.toNanos :=
  ofNanos?_eq_some_iff

theorem toNanos_distance (t : SystemTime) : t.distance.toNanos = t.toNanos.natAbs := by
  have hlow := t.seconds.le_toInt
  have hhigh := t.seconds.toInt_lt
  have hlt := t.nanos_lt
  have hbound : t.toNanos.natAbs / 1000000000 < UInt64.size := by
    change _ < 18446744073709551616
    simp only [toNanos]
    omega
  simp only [Duration.toNanos, distance, UInt64.toNat_ofNat_of_lt' hbound]
  omega

end SystemTime

namespace Timestamp

/-- The second is reached whole, on either side of the epoch, and the nanoseconds from there. -/
theorem toSystemTime?_eq_some_iff {t : Timestamp} {s : SystemTime} :
    t.toSystemTime? = some s ↔ s.toNanos = t.instant := by
  have hlow := t.seconds.le_toInt
  have hhigh := t.seconds.toInt_lt
  let whole : Duration := ⟨UInt64.ofNat t.seconds.toInt.natAbs, 0, no_nanos_lt⟩
  let second : SystemTime := ⟨t.seconds, 0, no_nanos_lt⟩
  have hwhole : whole.toNanos = t.seconds.toInt.natAbs * 1000000000 := by
    have hbound : t.seconds.toInt.natAbs < UInt64.size := by
      change _ < 18446744073709551616
      omega
    simp only [whole, Duration.toNanos, UInt64.toNat_ofNat_of_lt' hbound, Nat.add_zero]
  have hinstant : second.toNanos = t.seconds.toInt * 1000000000 := by
    simp only [second, SystemTime.toNanos, Int.natCast_zero, Int.add_zero]
  have hepoch : SystemTime.epoch.toNanos = 0 := rfl
  have hsecond : (if 0 ≤ t.seconds.toInt then SystemTime.epoch.add? whole
      else SystemTime.epoch.sub? whole) = some second := by
    split_ifs with hsign
    · rw [SystemTime.add?_eq_some_iff, hinstant, hepoch, hwhole]
      omega
    · rw [SystemTime.sub?_eq_some_iff, hinstant, hepoch, hwhole]
      omega
  have hnanos : Duration.toNanos ⟨0, t.nanos, t.nanos_lt⟩ = t.nanos := by simp [Duration.toNanos]
  change (ite _ _ _ : Option SystemTime).bind _ = some s ↔ _
  rw [hsecond, Option.bind_some, SystemTime.add?_eq_some_iff, hinstant, hnanos, instant]

theorem instantAt_ofInt {sec nsec : Int}
    (hsec : -9223372036854775808 ≤ sec ∧ sec < 9223372036854775808)
    (hnsec : -9223372036854775808 ≤ nsec ∧ nsec < 9223372036854775808) :
    instantAt (Int64.ofInt sec) (Int64.ofInt nsec) = sec * 1000000000 + nsec := by
  rw [instantAt, Int64.toInt_ofInt_of_le hsec.1 hsec.2, Int64.toInt_ofInt_of_le hnsec.1 hnsec.2]

/-- The two parts of which a timestamp is made are those of the clock's own instant. Before the
epoch both are taken back from it; only the very first second is too far away for that, and the
fallback is that second. -/
theorem exists_parts_ofSystemTime (s : SystemTime) :
    ∃ sec nsec : Int64, ofSystemTime s = new sec nsec ∧ instantAt sec nsec = s.toNanos := by
  have hlow := s.seconds.le_toInt
  have hhigh := s.seconds.toInt_lt
  have hlt := s.nanos_lt
  have hdistance := s.toNanos_distance
  have hnanos := s.distance.nanos_lt
  simp only [Duration.toNanos, SystemTime.toNanos] at hdistance
  simp only [ofSystemTime, SystemTime.isBeforeEpoch, decide_eq_true_eq, SystemTime.toNanos]
  by_cases hbefore : s.seconds.toInt < 0
  · rw [if_pos hbefore]
    refine ⟨_, _, rfl, ?_⟩
    split_ifs with hfits
    · rw [instantAt_ofInt (by omega) (by omega)]
      omega
    · have hfirst : Int64.minValue = Int64.ofInt (-9223372036854775808) := rfl
      rw [hfirst, instantAt_ofInt (by decide) (by omega)]
      omega
  · rw [if_neg hbefore]
    have hfits : (s.distance.seconds.toNat : Int) < 9223372036854775808 := by omega
    rw [if_pos hfits]
    refine ⟨_, _, rfl, ?_⟩
    rw [instantAt_ofInt (by omega) (by omega)]
    omega

theorem instant_ofSystemTime (s : SystemTime) : (ofSystemTime s).instant = s.toNanos := by
  obtain ⟨sec, nsec, hnew, hinstant⟩ := exists_parts_ofSystemTime s
  have hholds : Holds (instantAt sec nsec / 1000000000) := by
    rw [hinstant, s.second_toNanos]
    exact holds_toInt s.seconds
  rw [hnew, (new_standsFor sec nsec).instant_eq hholds, hinstant]

/-- Going over to the system's clock and coming back changes nothing, from either side: every
timestamp has its instant on the clock, and every instant of the clock is a timestamp's. -/
theorem systemTime_inverse (t : Timestamp) (s : SystemTime) :
    (∃ clock, t.toSystemTime? = some clock ∧ clock.toNanos = t.instant ∧
      ofSystemTime clock = t) ∧
    (ofSystemTime s).instant = s.toNanos ∧ (ofSystemTime s).toSystemTime? = some s := by
  let clock : SystemTime := ⟨t.seconds, t.nanos, t.nanos_lt⟩
  have hclock : clock.toNanos = t.instant := rfl
  have hback := instant_ofSystemTime s
  refine ⟨⟨clock, toSystemTime?_eq_some_iff.mpr hclock, hclock, ?_⟩, hback,
    toSystemTime?_eq_some_iff.mpr hback.symm⟩
  rw [eq_iff_instant, instant_ofSystemTime, hclock]

end Timestamp

end MessagePack
