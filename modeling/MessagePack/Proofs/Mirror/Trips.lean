import Mathlib.Tactic.Common
import MessagePack.Shape.Basic
import MessagePack.Value.Access

namespace MessagePack

namespace Value

def items : Value → List Value
  | array items => items
  | _ => []

def entries : Value → List (Value × Value)
  | map entries => entries
  | _ => []

variable {α : Type}

/-- What a key picks by its name, in text or in bytes, or by its position. -/
def pick (list : List (String × α)) : Value → Option α
  | raw bytes => (list.find? fun entry => Text.utf8 entry.1 == bytes).map Prod.snd
  | int n => if 0 ≤ n.val then (list[n.val.toNat]?).map Prod.snd else none
  | _ => none

/-- One of the items trips the destination at its position. -/
def ItemTrips (trips : List (Value → Prop)) (v : Value) : Prop :=
  ∃ pair ∈ trips.zip v.items, pair.1 pair.2

theorem not_itemTrips {trips : List (Value → Prop)} (h : ∀ trip ∈ trips, ∀ w, ¬trip w) {v : Value} :
    ¬v.ItemTrips trips := by
  rintro ⟨pair, hmem, htrips⟩
  exact h pair.1 (List.of_mem_zip hmem).1 pair.2 htrips

/-- One of the entries trips the destination that its key picks. -/
def EntryTrips (trips : List (String × (Value → Prop))) (v : Value) : Prop :=
  ∃ entry ∈ v.entries, ∃ picked, entry.1.pick trips = some picked ∧ picked entry.2

end Value

mutual

/-- A raw stands in the value where the type reads a tuple, a tuple struct or a timestamp. -/
def Shape.Trips : Shape → Value → Prop
  | .timestamp, v => v.isRaw = true
  | .option content, v => v.isNil = false ∧ content.Trips v
  | .seq item, v => ∃ w ∈ v.items, item.Trips w
  | .map key item, v | .mapPart _ key item, v =>
    ∃ entry ∈ v.entries, key.Trips entry.1 ∨ item.Trips entry.2
  | .tuple items, v | .tupleStruct _ items, v => v.isRaw = true ∨ v.ItemTrips (Shape.allTrips items)
  | .newtype _ content, v => content.Trips v
  | .struct _ fields _, v =>
    v.ItemTrips ((Shape.fieldTrips fields).map Prod.snd) ∨ v.EntryTrips (Shape.fieldTrips fields)
  | .enumeration _ variants, v => v.EntryTrips (Shape.variantTrips variants)
  | _, _ => False

def Shape.allTrips : List Shape → List (Value → Prop)
  | [] => []
  | shape :: rest => shape.Trips :: Shape.allTrips rest

def Shape.fieldTrips : List (String × Shape) → List (String × (Value → Prop))
  | [] => []
  | (name, shape) :: rest => (name, shape.Trips) :: Shape.fieldTrips rest

/-- A variant's unnamed fields may be a raw themselves. -/
def Content.Trips : Content → Value → Prop
  | .unit, _ => False
  | .newtype content, v => content.Trips v
  | .tuple items, v => v.ItemTrips (Shape.allTrips items)
  | .struct fields, v =>
    v.ItemTrips ((Shape.fieldTrips fields).map Prod.snd) ∨ v.EntryTrips (Shape.fieldTrips fields)

def Shape.variantTrips : List (String × Content) → List (String × (Value → Prop))
  | [] => []
  | (name, content) :: rest => (name, content.Trips) :: Shape.variantTrips rest

end

end MessagePack
