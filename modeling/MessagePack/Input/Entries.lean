import MessagePack.Input.Items

namespace MessagePack.Entries

/-- A map must have been read to its end; a token does not mind. -/
def finish : Entries → Decoding Unit
  | wire 0 _ _ | tree _ [] | tokens .. => pure ()
  | wire _ total _ => throw (.invalidLength total "fewer elements in map")
  | tree taken rest => throw (.invalidLength (taken + rest.length) (elementsIn taken "map"))

/-- Keys up to this length are read all at once or not at all. -/
def shortKey : Nat := 64

/-- The key of a structure's entry that starts with a raw. A name in the table stands for itself,
and any other key is text or bytes. -/
def fieldKey (fields : Fields) : Decoding Input := do
  match ← Decoder.nextElement with
  | .raw len =>
    let key ← if len ≤ min fields.longest shortKey then Decoder.exactly .payload len
      else Decoder.payload len
    match fields.resolve? key with
    | some name => return .token (.text name)
    | none => match Text.ofUtf8? key with
      | some s => return .token (.text s)
      | none => return .token (.octets key)
  | e => throw (.typeMismatch "Raw" e.category)

/-- Where the next key is read from. -/
def key : Option Fields → Decoding Input
  | none => pure .wire
  | some fields => do
    if (← Decoder.peekMarker).isRaw then fieldKey fields else pure .wire

/-- The inputs of the next key and its value, and the entries after them. -/
def next : Entries → Decoding (Option (Input × Input × Entries))
  | wire (left + 1) total fields => do
    return some (← key fields, .wire, wire left total fields)
  | tree taken ((k, v) :: rest) => return some (.tree k, .tree v, tree (taken + 1) rest)
  | tokens hint ((k, v) :: rest) =>
    return some (.token k, .token v, tokens (hint.map (· - 1)) rest)
  | _ => return none

/-- Reads up to `count` more entries after those `done`, which come latest first. -/
def readUpTo (key : Reader α) (value : Reader β) (done : List (α × β)) :
    Nat → Entries → Decoding (List (α × β) × Entries)
  | 0, entries => pure (done.reverse, entries)
  | count + 1, entries => do
    match ← entries.next with
    | none => pure (done.reverse, entries)
    | some (keyInput, valueInput, rest) => do
      let k ← key keyInput
      let v ← value valueInput
      readUpTo key value ((k, v) :: done) count rest

/-- Reads at most `count` entries, which must be all there are. -/
def readPart (count : Nat) (key : Reader α) (value : Reader β) (entries : Entries) :
    Decoding (List (α × β)) := do
  let (list, rest) ← readUpTo key value [] (min count entries.left) entries
  rest.finish
  return list

/-- Reads every entry. -/
def readAll (key : Reader α) (value : Reader β) (entries : Entries) : Decoding (List (α × β)) :=
  readPart entries.left key value entries

end MessagePack.Entries
