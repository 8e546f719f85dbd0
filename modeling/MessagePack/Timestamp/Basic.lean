namespace MessagePack

/-- A point in time: seconds since the epoch and nanoseconds past that second. -/
structure Timestamp where
  seconds : Int64
  nanos : Nat
  nanos_lt : nanos < 1000000000 := by decide
  deriving DecidableEq

namespace Timestamp

/-- The name under which the codec for timestamps is registered. -/
def typeName : String := "rawpack::Timestamp"

theorem no_nanos_lt : 0 < 1000000000 := by decide

/-- The instant `sec` seconds and `nsec` nanoseconds after the epoch. Whole seconds are carried out
of `nsec`, and seconds beyond the range stop at its end. -/
def new (sec nsec : Int64) : Timestamp where
  seconds := Int64.ofIntClamp (sec.toInt + nsec.toInt / 1000000000)
  nanos := (nsec.toInt % 1000000000).toNat
  nanos_lt := by omega

def ofSeconds (sec : Int64) : Timestamp := { seconds := sec, nanos := 0 }

def min : Timestamp := { seconds := Int64.minValue, nanos := 0 }

def max : Timestamp := { seconds := Int64.maxValue, nanos := 999999999 }

instance : Inhabited Timestamp := ⟨ofSeconds 0⟩

/-- The same moment of a later second, stopping at the end of the range. -/
def add (t : Timestamp) (sec : Int64) : Timestamp :=
  { t with seconds := Int64.ofIntClamp (t.seconds.toInt + sec.toInt) }

def sub (t : Timestamp) (sec : Int64) : Timestamp :=
  { t with seconds := Int64.ofIntClamp (t.seconds.toInt - sec.toInt) }

instance : Ord Timestamp :=
  ⟨fun a b => (compare a.seconds.toInt b.seconds.toInt).then (compare a.nanos b.nanos)⟩

def display (t : Timestamp) : String :=
  s!"UTC: {t.seconds.toInt} sec + {t.nanos} ns"

end Timestamp

end MessagePack
