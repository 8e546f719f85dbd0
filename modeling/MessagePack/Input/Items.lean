import MessagePack.Decoder.Basic
import MessagePack.Input.Basic

namespace MessagePack

/-- How a destination reads itself from an input. -/
abbrev Reader (α : Type) := Input → Decoding α

/-- Turns down an offer. -/
def Offer.refuse (offer : Offer) (expected : String) : Decoding α :=
  throw (.invalidType offer.found expected)

/-- A number of items taken from a sequence or map that has more. -/
def elementsIn (count : Nat) (whole : String) : String :=
  if count = 1 then "1 element in " ++ whole else s!"{count} elements in {whole}"

/-- A destination with so many elements, in the words of a length error. -/
def withElements (what : String) (count : Nat) : String :=
  if count = 1 then what ++ " with 1 element" else s!"{what} with {count} elements"

namespace Items

/-- A sequence must have been read to its end; a token does not mind. -/
def finish : Items → Decoding Unit
  | wire 0 _ | tree _ [] | bytes _ [] | tokens .. => pure ()
  | wire _ total => throw (.invalidLength total "fewer elements in array")
  | tree taken rest =>
    throw (.invalidLength (taken + rest.length) (elementsIn taken "sequence"))
  | bytes taken rest =>
    throw (.invalidLength (taken + rest.length) (elementsIn taken "sequence"))

/-- Reads up to `count` more items after those `done`, which come latest first. -/
def readUpTo (one : Reader α) (done : List α) : Nat → Items → Decoding (List α × Items)
  | 0, items => pure (done.reverse, items)
  | count + 1, items =>
    match items.next with
    | none => pure (done.reverse, items)
    | some (input, rest) => do
      let a ← one input
      readUpTo one (a :: done) count rest

/-- Reads every item. -/
def readAll (one : Reader α) (items : Items) : Decoding (List α) := do
  let (list, rest) ← readUpTo one [] items.left items
  rest.finish
  return list

/-- Reads one item for each reader; `short` is the error for the number of items there were. -/
def readEach (short : Nat → Error) : Nat → List (Reader α) → Items →
    Decoding (List α × Items)
  | _, [], items => pure ([], items)
  | count, one :: readers, items =>
    match items.next with
    | none => throw (short count)
    | some (input, rest) => do
      let a ← one input
      let (list, rest) ← readEach short (count + 1) readers rest
      return (a :: list, rest)

/-- Reads a sequence that has an item for each reader and no more. -/
def readTuple (expected : String) (readers : List (Reader α)) (items : Items) :
    Decoding (List α) := do
  let (list, rest) ← readEach (fun count => .invalidLength count expected) 0 readers items
  rest.finish
  return list

end Items

/-- Reads a sequence with an item for each reader; `short` says what was expected of one that has
too few, and `expected` what was expected of anything else. -/
def Offer.takeTuple (offer : Offer) (expected short : String) (readers : List (Reader α)) :
    Decoding (List α) :=
  match offer with
  | .seq items => items.readTuple short readers
  | offer => offer.refuse expected

end MessagePack
