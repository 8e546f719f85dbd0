import MessagePack.Codec.Basic

namespace MessagePack

/-- Codecs by type name, each name once. -/
structure Registry where
  entries : List (String × Codec) := []

namespace Registry

def empty : Registry := {}

def get? (registry : Registry) (name : String) : Option Codec :=
  registry.entries.lookup name

def contains (registry : Registry) (name : String) : Bool :=
  (registry.get? name).isSome

def size (registry : Registry) : Nat := registry.entries.length

def isEmpty (registry : Registry) : Bool := registry.entries.isEmpty

/-- Installs a codec under a name, in place of the one that was there. -/
def register (registry : Registry) (name : String) (codec : Codec) : Registry :=
  { entries := (name, codec) :: registry.entries.filter fun entry => entry.1 != name }

/-- The registry that is used unless another is given: timestamps alone have a codec. -/
def default : Registry := empty.register Timestamp.typeName .timestamp

end Registry

end MessagePack
