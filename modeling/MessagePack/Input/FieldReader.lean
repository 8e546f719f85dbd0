import MessagePack.Input.Choices
import MessagePack.Input.Entries
import MessagePack.Item

namespace MessagePack

/-- A field of a structure: its name, whether it may be missing, and how its value is read. -/
structure FieldReader where
  name : String
  isOption : Bool
  read : Reader Item

namespace FieldReader

/-- The keys of a structure. A key that is no field's has no slot, and is an error in a strict
structure. -/
def keys (fields : List FieldReader) (strict : Bool) : Choices (Option (Nat × FieldReader)) where
  kind := "field"
  choices := fields.zipIdx.map fun (field, slot) => (field.name, some (slot, field))
  unknown key := .unknownField key (fields.map name)
  otherwise := if strict then none else some none

/-- Reads the rest of the entries into the slots of their fields. Unknown ones are read over, and a
field may come only once. -/
def fillSlots (keys : Choices (Option (Nat × FieldReader))) :
    Nat → Entries → List (Option Item) → Decoding (List (Option Item) × Entries)
  | 0, entries, slots => pure (slots, entries)
  | count + 1, entries, slots => do
    match ← entries.next with
    | none => pure (slots, entries)
    | some (keyInput, valueInput, rest) =>
      match ← keys.read keyInput with
      | none =>
        valueInput.fold .ignored
        fillSlots keys count rest slots
      | some (slot, field) =>
        if (slots.getD slot none).isSome then throw (.rejected (.duplicateField field.name))
        let item ← field.read valueInput
        fillSlots keys count rest (slots.set slot (some item))

/-- The fields with what was read; a missing one must be an option. -/
def collect : List FieldReader → List (Option Item) → Except Error (List (String × Item))
  | field :: fields, slot :: slots => do
    let item ← match slot with
      | some item => .ok item
      | none =>
        if field.isOption then .ok .absent else .error (.rejected (.missingField field.name))
    return (field.name, item) :: (← collect fields slots)
  | _, _ => .ok []

/-- Reads the fields from a map, in any order. -/
def readEntries (fields : List FieldReader) (strict : Bool) (entries : Entries) :
    Decoding (List (String × Item)) := do
  let empty := List.replicate fields.length none
  let (slots, rest) ← fillSlots (keys fields strict) entries.left entries empty
  let items ← Decoding.ofExcept (collect fields slots)
  rest.finish
  return items

/-- Reads the fields from a sequence, in the order they were declared. -/
def readItems (fields : List FieldReader) (expected : String) (items : Items) :
    Decoding (List (String × Item)) := do
  let list ← items.readTuple (withElements expected fields.length) (fields.map read)
  return (fields.map name).zip list

/-- Reads the fields from either. -/
def readOffer (fields : List FieldReader) (strict : Bool) (expected : String) :
    Offer → Decoding (List (String × Item))
  | .map entries => readEntries fields strict entries
  | .seq items => readItems fields expected items
  | offer => offer.refuse expected

end FieldReader

end MessagePack
