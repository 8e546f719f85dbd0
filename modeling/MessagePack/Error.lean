import MessagePack.Float.Shortest
import MessagePack.Text.Quoted
import MessagePack.Text.Utf8
import MessagePack.Wire.Element

namespace MessagePack

/-- A failure reported by a source or a sink. -/
structure IoFault where
  message : String
  /-- The failure says that the input has ended. -/
  isEnd : Bool := false
  deriving DecidableEq, Repr

/-- What was being read when the input ended. -/
inductive Step where
  | tag
  | field (marker : Wire.Marker)
  | payload
  | other (text : String)
  deriving DecidableEq, Repr

def Step.text : Step → String
  | tag => "read tag"
  | field marker => "decode " ++ marker.fieldName
  | payload => "read raw payload"
  | other text => text

/-- Bytes that mean nothing in the format or to the destination. -/
inductive Malformed where
  | unknownTag (tag : UInt8)
  | notUtf8 (fault : Text.Utf8Fault)
  | other (text : String)
  deriving DecidableEq, Repr

/-- Two lower case hexadecimal digits. -/
def hexByte (b : UInt8) : String :=
  String.ofList [Nat.digitChar (b.toNat / 16), Nat.digitChar (b.toNat % 16)]

def Malformed.text : Malformed → String
  | unknownTag tag => "unrecognized tag 0x" ++ hexByte tag
  | notUtf8 fault => "raw is not UTF-8: " ++ fault.message
  | other text => text

/-- What was met where a destination expected something else. -/
inductive Found where
  | bool (value : Bool)
  | integer (n : Int)
  | wideInteger (n : Int) (type : String)
  | float (bits : UInt64)
  | text (s : String)
  | octets
  | unit
  | option
  | newtypeStruct
  | sequence
  | map
  | unitVariant
  | newtypeVariant
  deriving DecidableEq, Repr

def Found.display : Found → String
  | bool value => s!"boolean `{value}`"
  | integer n => s!"integer `{n}`"
  | wideInteger n type => s!"integer `{n}` as {type}"
  | float bits => s!"floating point `{Float.text bits}`"
  | text s => "string " ++ Text.quote s
  | octets => "byte array"
  | unit => "unit value"
  | option => "Option value"
  | newtypeStruct => "newtype struct"
  | sequence => "sequence"
  | map => "map"
  | unitVariant => "unit variant"
  | newtypeVariant => "newtype variant"

/-- Why data does not suit its destination, or a destination its data. -/
inductive Rejection where
  | invalidType (found : Found) (expected : String)
  | invalidValue (found : Found) (expected : String)
  | invalidLength (len : Nat) (expected : String)
  | unknownVariant (name : String) (known : List String)
  | unknownField (name : String) (known : List String)
  | missingField (name : String)
  | duplicateField (name : String)
  | unsupported (type : String)
  | variantEntries (found : Nat)
  | preencoded (found : Wire.Category)
  | announcedItems (announced actual : Nat)
  | announcedEntries (announced actual : Nat)
  | custom (text : String)
  deriving DecidableEq, Repr

/-- The names to choose from: one, either of two, or one of more. -/
def alternatives (names : List String) : String :=
  match names.map fun name => s!"`{name}`" with
  | [a] => a
  | [a, b] => a ++ " or " ++ b
  | all => "one of " ++ ", ".intercalate all

def Rejection.message : Rejection → String
  | invalidType found expected => s!"invalid type: {found.display}, expected {expected}"
  | invalidValue found expected => s!"invalid value: {found.display}, expected {expected}"
  | invalidLength len expected => s!"invalid length {len}, expected {expected}"
  | unknownVariant name [] => s!"unknown variant `{name}`, there are no variants"
  | unknownVariant name known => s!"unknown variant `{name}`, expected {alternatives known}"
  | unknownField name [] => s!"unknown field `{name}`, there are no fields"
  | unknownField name known => s!"unknown field `{name}`, expected {alternatives known}"
  | missingField name => s!"missing field `{name}`"
  | duplicateField name => s!"duplicate field `{name}`"
  | unsupported type => s!"{type} is not supported"
  | variantEntries found =>
    s!"expected a map with one entry for an enum, found {found} entries"
  | preencoded found => s!"pre-encoded value must be bytes, got {found.name}"
  | announcedItems announced actual =>
    s!"sequence announced {announced} items but yielded {actual}"
  | announcedEntries announced actual =>
    s!"map announced {announced} entries but yielded {actual}"
  | custom text => text

inductive Error where
  | io (fault : IoFault)
  | shortWrite (expected actual : Nat)
  | unsupported (type : String)
  | truncated (step : Step) (expected : Nat)
  | malformed (cause : Malformed)
  | typeMismatch (expected : String) (found : Wire.Category)
  | lengthTooLong (limit actual : Nat)
  | parseLimit (text : String)
  | rejected (cause : Rejection)
  deriving DecidableEq, Repr

namespace Error

def message : Error → String
  | io fault => s!"I/O failure: {fault.message}"
  | shortWrite expected actual => s!"Short write: sink took {actual} of {expected} bytes"
  | unsupported type => s!"Unsupported type {type}"
  | truncated step expected =>
    s!"Input ended early: needed {expected} more bytes on step [{step.text}]"
  | malformed cause => s!"Malformed data: {cause.text}"
  | typeMismatch expected found => s!"Type mismatch: expected {expected}, found {found.name}"
  | lengthTooLong limit actual =>
    s!"Data too long: was {actual} items, maximum allowed is {limit}"
  | parseLimit text => s!"Hit parsing limit: {text}"
  | rejected cause => cause.message

def isTruncated : Error → Bool
  | truncated .. => true
  | _ => false

/-- The failure of a source or sink behind the error. -/
def source : Error → Option IoFault
  | io fault => some fault
  | _ => none

/-- Containers nest deeper than the limit. -/
def depthLimit : Error := parseLimit "Depth limit exceeded"

/-- A read of `expected` bytes for `step` failed; an end of input cuts the data short. -/
def ofRead (step : Step) (expected : Nat) (fault : IoFault) : Error :=
  if fault.isEnd then truncated step expected else io fault

def custom (text : String) : Error := rejected (.custom text)

def invalidType (found : Found) (expected : String) : Error :=
  rejected (.invalidType found expected)

def invalidValue (found : Found) (expected : String) : Error :=
  rejected (.invalidValue found expected)

def invalidLength (len : Nat) (expected : String) : Error :=
  rejected (.invalidLength len expected)

end Error

end MessagePack
