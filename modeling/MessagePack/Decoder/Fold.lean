import MessagePack.Decoder.Basic
import MessagePack.Fold

namespace MessagePack.Decoder

/-- Reads one element with everything inside it, going down at most `levels` containers. -/
def foldLevels (f : Fold α) : Nat → Decoding α
  | 0 => throw .depthLimit
  | levels + 1 => do
    match ← nextElement with
    | .nil => pure f.unit
    | .bool b => pure (f.bool b)
    | .uint n => pure (f.unsigned n)
    | .int n => pure (f.signed n)
    | .f32 bits => pure (f.f32 bits)
    | .f64 bits => pure (f.f64 bits)
    | .raw len => return f.raw (← payload len)
    | .array len => return f.seq len (← replicate len (foldLevels f levels))
    | .map len =>
      return f.map len (← replicate len do
        let k ← foldLevels f levels
        let v ← foldLevels f levels
        return (k, v))

/-- Reads one element with everything inside it. A container too deep for the session's limit is
refused when it is entered, so one level more than the limit is never gone down. -/
def fold (f : Fold α) : Decoding α := fun decoder =>
  foldLevels f (decoder.nesting.limit + 1) decoder

def value : Decoding Value := fold .value

end MessagePack.Decoder
