import MessagePack.Wire.Header

namespace MessagePack

/-- How deep containers may nest unless told otherwise. -/
def defaultMaxDepth : Nat := 256

/-- The greatest depth a limit can name. -/
def unlimitedDepth : Nat := 18446744073709551615

structure Config where
  /-- How deep containers may nest in what is decoded. -/
  maxDepth : Nat := defaultMaxDepth
  /-- Write non-negative signed integers in the unsigned forms. -/
  compactInts : Bool := false
  deriving DecidableEq, Repr

namespace Config

instance : Inhabited Config := ⟨{}⟩

def intPolicy (config : Config) : Wire.IntPolicy :=
  if config.compactInts then .compact else .compatible

end Config

end MessagePack
