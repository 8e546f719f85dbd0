import MessagePack.Error

namespace MessagePack

/-- Where encoded bytes come from. A read at `position` hands over at most `piece position wanted`
of the wanted bytes; after the last byte it reports the end by handing over nothing, or fails. -/
structure Source where
  rest : List UInt8
  position : Nat := 0
  piece : Nat → Nat → Nat := fun _ wanted => wanted
  failure : Option IoFault := none

namespace Source

def ofBytes (bytes : List UInt8) : Source := { rest := bytes }

/-- The same bytes in pieces of at most `size`. -/
def inPieces (size : Nat) (source : Source) : Source :=
  { source with piece := fun position wanted => min size (source.piece position wanted) }

/-- The bytes before a position, and a failure there; bytes that end earlier end as usual. -/
def failingAt (position : Nat) (fault : IoFault) (bytes : List UInt8) : Source :=
  if position ≤ bytes.length then { rest := bytes.take position, failure := some fault }
  else ofBytes bytes

/-- One read of at most `wanted` bytes. -/
def read (source : Source) (wanted : Nat) : Except IoFault (List UInt8) × Source :=
  match source.rest, source.failure with
  | [], some fault => (.error fault, source)
  | [], none => (.ok [], source)
  | rest, _ =>
    let got := rest.take (min wanted (source.piece source.position wanted))
    (.ok got, { source with
      rest := rest.drop got.length
      position := source.position + got.length })

/-- How an attempt to read many bytes came out. -/
inductive Fill where
  | full (bytes : List UInt8)
  | ended (got : Nat)
  | failed (fault : IoFault)

/-- Reads until `wanted` bytes have come, the source hands over nothing, or it fails. The bytes got
so far come latest first, and every read brings at least one, so `wanted` bounds their number. -/
def fillFrom (got : List UInt8) (wanted : Nat) : Nat → Source → Fill × Source
  | 0, source => (.full got.reverse, source)
  | reads + 1, source =>
    if wanted = 0 then (.full got.reverse, source)
    else match source.read wanted with
      | (.error fault, source) => (.failed fault, source)
      | (.ok [], source) => (.ended got.length, source)
      | (.ok bytes, source) =>
        fillFrom (bytes.reverseAux got) (wanted - bytes.length) reads source

/-- Reads exactly `wanted` bytes, as many reads as that takes. -/
def fill (source : Source) (wanted : Nat) : Fill × Source :=
  fillFrom [] wanted wanted source

end Source

end MessagePack
