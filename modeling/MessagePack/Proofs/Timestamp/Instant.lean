import MessagePack.Proofs.RoundTrip.Timestamp

namespace MessagePack.Timestamp

/-- The nanoseconds from the epoch to `nsec` nanoseconds after the second `sec`. -/
def instantAt (sec nsec : Int64) : Int := sec.toInt * 1000000000 + nsec.toInt

def instant (t : Timestamp) : Int := t.seconds.toInt * 1000000000 + t.nanos

/-- The seconds that a timestamp can hold. -/
def Holds (sec : Int) : Prop := Int64.minValue.toInt ≤ sec ∧ sec ≤ Int64.maxValue.toInt

instance (sec : Int) : Decidable (Holds sec) := inferInstanceAs (Decidable (_ ∧ _))

/-- `t` is the timestamp of the instant `n`: it is exactly `n` if the second in which `n` falls can
be held, and else the second stops at the end of the range that lies nearer. -/
structure StandsFor (t : Timestamp) (n : Int) : Prop where
  nanos : (t.nanos : Int) = n % 1000000000
  exact : Holds (n / 1000000000) → t.seconds.toInt * 1000000000 + t.nanos = n
  below : n / 1000000000 < Int64.minValue.toInt → t.seconds = Int64.minValue
  above : Int64.maxValue.toInt < n / 1000000000 → t.seconds = Int64.maxValue

theorem holds_toInt (v : Int64) : Holds v.toInt := ⟨v.minValue_le_toInt, v.toInt_le⟩

theorem toInt_clamp {sec : Int} (h : Holds sec) : (Int64.ofIntClamp sec).toInt = sec :=
  Int64.toInt_ofIntClamp h.1 h.2

theorem clamp_of_below {sec : Int} (h : sec < Int64.minValue.toInt) :
    Int64.ofIntClamp sec = Int64.minValue :=
  dif_neg (Int.not_le.2 h)

theorem clamp_of_above {sec : Int} (h : Int64.maxValue.toInt < sec) :
    Int64.ofIntClamp sec = Int64.maxValue := by
  have hlow : Int64.minValue.toInt ≤ sec :=
    Int.le_trans (by decide) (Int.le_of_lt h)
  rw [Int64.ofIntClamp, dif_pos hlow, dif_neg (Int.not_le.2 h)]

/-- The second in which an instant falls, clamped, and the nanoseconds past it. -/
theorem standsFor_of_parts {t : Timestamp} {n : Int}
    (hseconds : t.seconds = Int64.ofIntClamp (n / 1000000000))
    (hnanos : (t.nanos : Int) = n % 1000000000) : t.StandsFor n where
  nanos := hnanos
  exact h := by
    rw [hseconds, toInt_clamp h, hnanos]
    exact Int.ediv_mul_add_emod n 1000000000
  below h := hseconds.trans (clamp_of_below h)
  above h := hseconds.trans (clamp_of_above h)

theorem new_standsFor (sec nsec : Int64) : (new sec nsec).StandsFor (instantAt sec nsec) := by
  have hsecond : instantAt sec nsec / 1000000000 = sec.toInt + nsec.toInt / 1000000000 := by
    simp only [instantAt]
    omega
  refine standsFor_of_parts (by rw [hsecond]; rfl) ?_
  simp only [new, instantAt]
  omega

theorem second_instant (t : Timestamp) : t.instant / 1000000000 = t.seconds.toInt := by
  have hlt := t.nanos_lt
  simp only [instant]
  omega

theorem standsFor_instant (t : Timestamp) : t.StandsFor t.instant := by
  have hlt := t.nanos_lt
  refine standsFor_of_parts ?_ (by simp only [instant]; omega)
  rw [second_instant, ← Int64.toInt_inj, toInt_clamp (holds_toInt t.seconds)]

theorem StandsFor.instant_eq {t : Timestamp} {n : Int} (h : t.StandsFor n)
    (hholds : Holds (n / 1000000000)) : t.instant = n :=
  h.exact hholds

theorem eq_iff_instant (t u : Timestamp) : t = u ↔ t.instant = u.instant := by
  refine ⟨congrArg instant, fun h => ?_⟩
  have ht := t.nanos_lt
  have hu := u.nanos_lt
  have hseconds : t.seconds.toInt = u.seconds.toInt := by
    rw [← second_instant, ← second_instant, h]
  have hnanos : t.nanos = u.nanos := by
    simp only [instant] at h
    omega
  obtain ⟨seconds, nanos, hlt⟩ := t
  obtain ⟨seconds', nanos', hlt'⟩ := u
  obtain rfl : seconds = seconds' := Int64.toInt_inj.1 hseconds
  obtain rfl : nanos = nanos' := hnanos
  rfl

/-- The seconds decide first, and the nanoseconds never reach over into the next second. -/
theorem compare_eq_instant (t u : Timestamp) : compare t u = compare t.instant u.instant := by
  have ht := t.nanos_lt
  have hu := u.nanos_lt
  change (compare t.seconds.toInt u.seconds.toInt).then (compare t.nanos u.nanos) = _
  rcases Int.lt_trichotomy t.seconds.toInt u.seconds.toInt with hlt | heq | hgt
  · have hinstant : t.instant < u.instant := by simp only [instant]; omega
    rw [Int.compare_eq_lt.2 hlt, Int.compare_eq_lt.2 hinstant]
    rfl
  · rw [Int.compare_eq_eq.2 heq, Ordering.eq_then]
    rcases Nat.lt_trichotomy t.nanos u.nanos with hless | hsame | hmore
    · have hinstant : t.instant < u.instant := by simp only [instant]; omega
      rw [Nat.compare_eq_lt.2 hless, Int.compare_eq_lt.2 hinstant]
    · have hinstant : t.instant = u.instant := by simp only [instant]; omega
      rw [Nat.compare_eq_eq.2 hsame, Int.compare_eq_eq.2 hinstant]
    · have hinstant : u.instant < t.instant := by simp only [instant]; omega
      rw [Nat.compare_eq_gt.2 hmore, Int.compare_eq_gt.2 hinstant]
  · have hinstant : u.instant < t.instant := by simp only [instant]; omega
    rw [Int.compare_eq_gt.2 hgt, Int.compare_eq_gt.2 hinstant]
    rfl

/-- A shift moves the second that the instant falls in and keeps the nanoseconds past it. -/
theorem StandsFor.shift {t : Timestamp} {n : Int} (h : t.StandsFor n)
    (hholds : Holds (n / 1000000000)) (k : Int) :
    StandsFor { t with seconds := Int64.ofIntClamp (t.seconds.toInt + k) }
      (n + k * 1000000000) := by
  have hsecond : t.seconds.toInt = n / 1000000000 := by
    rw [← h.instant_eq hholds, second_instant]
  refine standsFor_of_parts ?_ (by rw [h.nanos]; omega)
  have hmoved : (n + k * 1000000000) / 1000000000 = n / 1000000000 + k := by omega
  rw [hmoved, hsecond]

theorem StandsFor.add {t : Timestamp} {n : Int} (h : t.StandsFor n)
    (hholds : Holds (n / 1000000000)) (k : Int64) :
    (t.add k).StandsFor (n + k.toInt * 1000000000) :=
  h.shift hholds k.toInt

theorem StandsFor.sub {t : Timestamp} {n : Int} (h : t.StandsFor n)
    (hholds : Holds (n / 1000000000)) (k : Int64) :
    (t.sub k).StandsFor (n - k.toInt * 1000000000) := by
  have hneg : n - k.toInt * 1000000000 = n + -k.toInt * 1000000000 := by omega
  rw [hneg]
  exact h.shift hholds (-k.toInt)

/-- The whole seconds in `nsec`, in 64 bits: what a division towards zero gives, one less where it
left a negative remainder. -/
def carried (nsec : Int64) : Int64 :=
  if nsec % 1000000000 < 0 then nsec / 1000000000 - 1 else nsec / 1000000000

/-- The nanoseconds past them, in 64 bits. -/
def remaining (nsec : Int64) : Int64 :=
  if nsec % 1000000000 < 0 then nsec % 1000000000 + 1000000000 else nsec % 1000000000

/-- The truncated division by a billion: what its quotient and its remainder add up to. -/
theorem truncated (n : Int) : 1000000000 * n.tdiv 1000000000 + n.tmod 1000000000 = n ∧
    -1000000000 < n.tmod 1000000000 ∧ n.tmod 1000000000 < 1000000000 := by
  have hlow : -1000000000 < n.tmod 1000000000 := Int.lt_tmod_of_pos n (by decide)
  have hhigh : n.tmod 1000000000 < 1000000000 := Int.tmod_lt_of_pos n (by decide)
  exact ⟨Int.mul_tdiv_add_tmod n 1000000000, hlow, hhigh⟩

theorem toInt_quotient (nsec : Int64) :
    (nsec / 1000000000).toInt = nsec.toInt.tdiv 1000000000 := by
  have hlow := nsec.le_toInt
  have hhigh := nsec.toInt_lt
  have hparts := truncated nsec.toInt
  have hbillion : Int64.toInt 1000000000 = 1000000000 := rfl
  rw [Int64.toInt_div, hbillion, Int.bmod_eq_of_le] <;> omega

theorem toInt_remainder (nsec : Int64) :
    (nsec % 1000000000).toInt = nsec.toInt.tmod 1000000000 :=
  Int64.toInt_mod nsec 1000000000

theorem remainder_neg_iff (nsec : Int64) :
    nsec % 1000000000 < 0 ↔ nsec.toInt.tmod 1000000000 < 0 := by
  rw [Int64.lt_iff_toInt_lt, toInt_remainder, Int64.toInt_zero]

theorem toInt_carried (nsec : Int64) : (carried nsec).toInt = nsec.toInt / 1000000000 := by
  have hlow := nsec.le_toInt
  have hhigh := nsec.toInt_lt
  have hparts := truncated nsec.toInt
  have hone : Int64.toInt 1 = 1 := rfl
  rw [carried]
  split_ifs with hneg
  · rw [remainder_neg_iff] at hneg
    rw [Int64.toInt_sub, toInt_quotient, hone, Int.bmod_eq_of_le] <;> omega
  · rw [remainder_neg_iff] at hneg
    rw [toInt_quotient]
    omega

theorem toInt_remaining (nsec : Int64) : (remaining nsec).toInt = nsec.toInt % 1000000000 := by
  have hparts := truncated nsec.toInt
  have hbillion : Int64.toInt 1000000000 = 1000000000 := rfl
  rw [remaining]
  split_ifs with hneg
  · rw [remainder_neg_iff] at hneg
    rw [Int64.toInt_add, toInt_remainder, hbillion, Int.bmod_eq_of_le] <;> omega
  · rw [remainder_neg_iff] at hneg
    rw [toInt_remainder]
    omega

theorem toNat_narrowed (nsec : Int64) :
    ((remaining nsec).toUInt64.toUInt32.toNat : Int) = nsec.toInt % 1000000000 := by
  have h := toInt_remaining nsec
  have hnat : ((remaining nsec).toUInt64.toNat : Int) = nsec.toInt % 1000000000 := by
    rw [Wire.toNat_toUInt64_of_nonneg (by omega)]
    omega
  rw [UInt64.toNat_toUInt32]
  omega

/-- A timestamp is exact, over the whole range of its two parts: `new` stands for the instant that
it is given, computes both parts without leaving 64 bits or narrowing away a bit, and gives back a
timestamp that is taken apart; timestamps of instants that can be held are equal as the instants are
and ordered as the instants are; and a shift by whole seconds stands for the shifted instant. -/
theorem new_normalises (sec nsec k : Int64) (t u : Timestamp) (n m : Int) :
    (new sec nsec).StandsFor (instantAt sec nsec) ∧
    ((carried nsec).toInt = nsec.toInt / 1000000000 ∧
      (new sec nsec).seconds = Int64.ofIntClamp (sec.toInt + (carried nsec).toInt) ∧
      (remaining nsec).toInt = nsec.toInt % 1000000000 ∧
      (new sec nsec).nanos = (remaining nsec).toUInt64.toUInt32.toNat) ∧
    (t.StandsFor t.instant ∧ t.nanos < 1000000000 ∧
      new t.seconds (Int64.ofNat t.nanos) = t) ∧
    (t.StandsFor n → u.StandsFor m → Holds (n / 1000000000) → Holds (m / 1000000000) →
      (t = u ↔ n = m) ∧ compare t u = compare n m) ∧
    (t.StandsFor n → Holds (n / 1000000000) →
      (t.add k).StandsFor (n + k.toInt * 1000000000) ∧
      (t.sub k).StandsFor (n - k.toInt * 1000000000)) := by
  have hwords : (new sec nsec).nanos = (remaining nsec).toUInt64.toUInt32.toNat := by
    have hnanos := (new_standsFor sec nsec).nanos
    have hnarrowed := toNat_narrowed nsec
    simp only [instantAt] at hnanos
    omega
  have hsecond : (new sec nsec).seconds = Int64.ofIntClamp (sec.toInt + (carried nsec).toInt) := by
    rw [toInt_carried]
    rfl
  refine ⟨new_standsFor sec nsec, ⟨toInt_carried nsec, hsecond, toInt_remaining nsec, hwords⟩,
    ⟨standsFor_instant t, t.nanos_lt, new_parts t⟩, ?_, ?_⟩
  · intro ht hu hn hm
    have htn := ht.instant_eq hn
    have hum := hu.instant_eq hm
    rw [eq_iff_instant, compare_eq_instant, htn, hum]
    exact ⟨Iff.rfl, rfl⟩
  · intro ht hn
    exact ⟨ht.add hn k, ht.sub hn k⟩

/-- Half a second before the epoch, written in two ways, and a second that stops at its end. -/
theorem new_normalises_negative :
    (new (-3) 2500000000 = new 0 (-500000000)) ∧
    ((new 0 (-500000000)).add 1).StandsFor 500000000 ∧
    (new Int64.maxValue 1000000000).seconds = Int64.maxValue := by
  have hheld : Holds (-500000000 / 1000000000) := by decide
  have hfirst : (new (-3) 2500000000).StandsFor (-500000000) := by
    have hinstant : instantAt (-3) 2500000000 = -500000000 := by decide
    exact hinstant ▸ (new_normalises (-3) 2500000000 0 (new 0 0) (new 0 0) 0 0).1
  have hsecond : (new 0 (-500000000)).StandsFor (-500000000) := by
    have hinstant : instantAt 0 (-500000000) = -500000000 := by decide
    exact hinstant ▸ (new_normalises 0 (-500000000) 0 (new 0 0) (new 0 0) 0 0).1
  have hlast : (new Int64.maxValue 1000000000).StandsFor 9223372036854775808000000000 := by
    have hinstant : instantAt Int64.maxValue 1000000000 = 9223372036854775808000000000 := by decide
    exact hinstant ▸ (new_normalises Int64.maxValue 1000000000 0 (new 0 0) (new 0 0) 0 0).1
  have hequal := (new_normalises 0 0 1 _ _ _ _).2.2.2.1 hfirst hsecond hheld hheld
  have hmoved := (new_normalises 0 0 1 _ (new 0 0) _ 0).2.2.2.2 hsecond hheld
  have hshift : -500000000 + Int64.toInt 1 * 1000000000 = 500000000 := by decide
  exact ⟨hequal.1.2 rfl, hshift ▸ hmoved.1, hlast.above (by decide)⟩

end MessagePack.Timestamp
