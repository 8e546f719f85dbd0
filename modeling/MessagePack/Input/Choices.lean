import MessagePack.Input.Ask
import MessagePack.Input.Items

namespace MessagePack

/-- What a key can choose by its name or its position. -/
structure Choices (α : Type) where
  /-- What the keys name. -/
  kind : String
  choices : List (String × α)
  /-- The error for a name that is none of them. -/
  unknown : String → Rejection
  /-- What any other key stands for, where it is not an error. -/
  otherwise : Option α

namespace Choices

def byText? (known : Choices α) (s : String) : Option α :=
  known.choices.lookup s

def byBytes? (known : Choices α) (bytes : List UInt8) : Option α :=
  (known.choices.find? fun (name, _) => Text.utf8 name == bytes).map Prod.snd

def byPosition? (known : Choices α) (i : Nat) : Option α :=
  (known.choices[i]?).map Prod.snd

/-- A choice, or what becomes of a key that makes none. -/
def settle (known : Choices α) (choice : Option α) (rejection : Rejection) : Decoding α :=
  match choice.or known.otherwise with
  | some a => pure a
  | none => throw (.rejected rejection)

/-- Reads a key. -/
def read (known : Choices α) : Reader α := fun input => do
  match ← input.ask .empty .identifier with
  | .text s => known.settle (known.byText? s) (known.unknown s)
  | .octets bytes => known.settle (known.byBytes? bytes) (known.unknown (Text.mend bytes))
  | .unsigned n =>
    known.settle (known.byPosition? n.toNat) (.invalidValue (.integer n.toNat)
      s!"{known.kind} index 0 <= i < {known.choices.length}")
  | offer => offer.refuse (known.kind ++ " identifier")

end Choices

end MessagePack
