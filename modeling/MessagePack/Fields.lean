import MessagePack.Text.Utf8

namespace MessagePack

/-- Enters a value under a name. A name that has one keeps it. -/
def enterNew {α : Type} (table : List (String × α)) (entry : String × α) : List (String × α) :=
  match table.lookup entry.1 with
  | some _ => table
  | none => entry :: table

/-- The declared field names of one structure type, with what is worked out about them once. -/
structure Fields where
  names : List String
  /-- The position of each name; a repeated name has its first one. -/
  index : List (String × Nat)
  /-- The byte length of the longest name. -/
  longest : Nat
  index_eq : index = names.zipIdx.foldl enterNew []
  longest_eq : longest = names.foldl (fun len name => max len name.utf8ByteSize) 0
  deriving DecidableEq, Repr

namespace Fields

def ofNames (names : List String) : Fields where
  names
  index := names.zipIdx.foldl enterNew []
  longest := names.foldl (fun len name => max len name.utf8ByteSize) 0
  index_eq := rfl
  longest_eq := rfl

def length (fields : Fields) : Nat := fields.names.length

def isEmpty (fields : Fields) : Bool := fields.names.isEmpty

def name? (fields : Fields) (i : Nat) : Option String := fields.names[i]?

/-- The position of the name whose bytes are exactly `key`. -/
def position? (fields : Fields) (key : List UInt8) : Option Nat :=
  (Text.ofUtf8? key).bind fun name => fields.index.lookup name

/-- The name whose bytes are exactly `key`. -/
def resolve? (fields : Fields) (key : List UInt8) : Option String :=
  (fields.position? key).bind fields.name?

end Fields

/-- The tables made so far, by type name. -/
structure FieldCache where
  tables : List (String × Fields) := []

namespace FieldCache

def lookup (cache : FieldCache) (type : String) : Option Fields :=
  cache.tables.lookup type

/-- The table for a type. The first one asked for under a name is kept; a type of another shape
under that name gets a table of its own that is not. -/
def fieldsOf (cache : FieldCache) (type : String) (names : List String) : Fields × FieldCache :=
  match cache.lookup type with
  | some fields => if fields.names = names then (fields, cache) else (.ofNames names, cache)
  | none => (.ofNames names, { tables := (type, .ofNames names) :: cache.tables })

end FieldCache

end MessagePack
