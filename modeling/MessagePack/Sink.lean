import MessagePack.Error

namespace MessagePack

namespace Sink

/-- What a sink makes of the bytes offered in one call: it takes some from the front, or fails. -/
inductive Reply where
  | took (count : Nat)
  | failed (fault : IoFault)
  deriving DecidableEq, Repr

structure Call where
  offered : List UInt8
  reply : Reply
  deriving DecidableEq, Repr

def Call.taken (call : Call) : List UInt8 :=
  match call.reply with
  | .took count => call.offered.take count
  | .failed _ => []

end Sink

/-- Where encoded bytes go: any machine whose reply depends on the bytes offered, on the calls
before, of which the latest comes first, and on how many bytes they have handed over. -/
structure Sink where
  reply : Nat → List Sink.Call → List UInt8 → Sink.Reply
  position : Nat := 0
  calls : List Sink.Call := []

namespace Sink

/-- A sink that takes whatever it is offered. -/
def unlimited : Sink := { reply := fun _ _ data => .took data.length }

/-- The same sink with at most `size` bytes offered to it in a call. -/
def inPieces (size : Nat) (sink : Sink) : Sink :=
  { sink with reply := fun position calls data => sink.reply position calls (data.take size) }

/-- A sink that takes `count` bytes in all. When they have come it takes no more, or fails. -/
def total (count : Nat) (full : Option IoFault) : Sink where
  reply position _ data :=
    match count - position, full with
    | 0, some fault => .failed fault
    | left, _ => .took (min left data.length)

/-- All bytes the sink has taken, in order. -/
def written (sink : Sink) : List UInt8 :=
  sink.calls.foldl (fun rest call => call.taken ++ rest) []

/-- Offers the sink some bytes once. -/
def write (sink : Sink) (data : List UInt8) : Reply × Sink :=
  match sink.reply sink.position sink.calls data with
  | .took count =>
    let count := min count data.length
    (.took count, { sink with
      position := sink.position + count
      calls := ⟨data, .took count⟩ :: sink.calls })
  | .failed fault => (.failed fault, { sink with calls := ⟨data, .failed fault⟩ :: sink.calls })

end Sink

end MessagePack
