import MessagePack.Error

namespace MessagePack

/-- The containers that are open in a stream of elements, innermost first: of each, how many items
are still to come. -/
structure Nesting where
  pending : List Nat := []
  limit : Nat

namespace Nesting

def depth (nesting : Nesting) : Nat := nesting.pending.length

/-- Counts one item of the innermost container. A count is a word of 64 bits, and wraps around where
no item was to come. -/
def countItem : List Nat → List Nat
  | [] => []
  | 0 :: outer => 18446744073709551615 :: outer
  | (n + 1) :: outer => n :: outer

/-- Opens a container whose header has been read; an entry of a map is two items. -/
def opened (element : Wire.Element) (pending : List Nat) : List Nat :=
  match element with
  | .array len => len :: pending
  | .map len => 2 * len :: pending
  | _ => pending

/-- The next element counted, and opened if it is a container. -/
def noted (nesting : Nesting) (element : Wire.Element) : Nesting :=
  { nesting with pending := opened element (countItem nesting.pending) }

/-- Closes the containers that are complete, from the innermost on. -/
def closed (nesting : Nesting) : Nesting :=
  { nesting with pending := nesting.pending.dropWhile (· == 0) }

/-- Takes note of the next element. A container beyond the limit is refused. -/
def enter (nesting : Nesting) (element : Wire.Element) : Except Error Nesting :=
  if nesting.limit < (nesting.noted element).depth then .error .depthLimit
  else .ok (nesting.noted element).closed

end Nesting

end MessagePack
