import MessagePack.Timestamp.Basic

namespace MessagePack

/-- A length of time. -/
structure Duration where
  seconds : UInt64
  nanos : Nat
  nanos_lt : nanos < 1000000000

/-- An instant of the system's clock: seconds since the epoch, rounded down, and nanoseconds past
that second. -/
structure SystemTime where
  seconds : Int64
  nanos : Nat
  nanos_lt : nanos < 1000000000

namespace SystemTime

def epoch : SystemTime := ⟨0, 0, Timestamp.no_nanos_lt⟩

/-- The instant that many nanoseconds from the epoch, if its second can be represented. -/
def ofNanos? (n : Int) : Option SystemTime :=
  let seconds := n / 1000000000
  if -9223372036854775808 ≤ seconds ∧ seconds < 9223372036854775808 then
    some ⟨Int64.ofInt seconds, (n % 1000000000).toNat, by omega⟩
  else none

def toNanos (t : SystemTime) : Int :=
  t.seconds.toInt * 1000000000 + t.nanos

def add? (t : SystemTime) (d : Duration) : Option SystemTime :=
  ofNanos? (t.toNanos + (d.seconds.toNat * 1000000000 + d.nanos : Nat))

def sub? (t : SystemTime) (d : Duration) : Option SystemTime :=
  ofNanos? (t.toNanos - (d.seconds.toNat * 1000000000 + d.nanos : Nat))

def isBeforeEpoch (t : SystemTime) : Bool :=
  t.seconds.toInt < 0

/-- How far an instant is from the epoch, on whichever side. -/
def distance (t : SystemTime) : Duration where
  seconds := UInt64.ofNat (t.toNanos.natAbs / 1000000000)
  nanos := t.toNanos.natAbs % 1000000000
  nanos_lt := by omega

end SystemTime

namespace Timestamp

/-- The instant on the system's clock: the second is reached first, then the nanoseconds. -/
def toSystemTime? (t : Timestamp) : Option SystemTime :=
  let whole : Duration := ⟨UInt64.ofNat t.seconds.toInt.natAbs, 0, no_nanos_lt⟩
  let second := if 0 ≤ t.seconds.toInt then SystemTime.epoch.add? whole
    else SystemTime.epoch.sub? whole
  second.bind (·.add? ⟨0, t.nanos, t.nanos_lt⟩)

/-- Seconds too many for the range count as the range's end. -/
def ofSystemTime (t : SystemTime) : Timestamp :=
  let d := t.distance
  let seconds : Int := d.seconds.toNat
  if t.isBeforeEpoch then
    new (if seconds < 9223372036854775808 then Int64.ofInt (-seconds) else Int64.minValue)
      (Int64.ofInt (-d.nanos))
  else
    new (if seconds < 9223372036854775808 then Int64.ofInt seconds else Int64.maxValue)
      (Int64.ofInt d.nanos)

end Timestamp

end MessagePack
