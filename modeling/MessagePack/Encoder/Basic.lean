import MessagePack.Config
import MessagePack.Integer.Kind
import MessagePack.Sink
import MessagePack.Timestamp.Basic
import MessagePack.Value.Basic

namespace MessagePack

/-- Writing to a sink. What the sink took before an error stays taken. -/
abbrev Encoding := EStateM Error Sink

namespace Encoder

/-- Offers bytes in a single call; a sink that does not take them all is an error. -/
def write (data : List UInt8) : Encoding Unit := fun sink =>
  match sink.write data with
  | (.failed fault, sink) => .error (.io fault) sink
  | (.took count, sink) =>
    if count < data.length then .error (.shortWrite data.length count) sink else .ok () sink

/-- Offers bytes until the sink has taken them all. Each call takes at least one or is the last,
so their number bounds the calls. -/
def writeOn : Nat → List UInt8 → Encoding Unit
  | 0, _ => pure ()
  | _, [] => pure ()
  | calls + 1, data => fun sink =>
    match sink.write data with
    | (.failed fault, sink) => .error (.io fault) sink
    | (.took 0, sink) => .error (.io { message := "failed to write whole buffer" }) sink
    | (.took count, sink) => writeOn calls (data.drop count) sink

def writeAll (data : List UInt8) : Encoding Unit :=
  writeOn data.length data

/-- The bytes that an encoding leaves in a sink that takes everything. -/
def buffered (encoding : Encoding Unit) : Except Error (List UInt8) :=
  match encoding Sink.unlimited with
  | .ok _ sink => .ok sink.written
  | .error e _ => .error e

variable (config : Config)

/-- One tag with its field, in the narrowest form. -/
def element (e : Wire.Element) : Encoding Unit :=
  match e.header? config.intPolicy with
  | some bytes => write bytes
  | none => throw (.lengthTooLong Wire.maxLength e.length)

def nil : Encoding Unit := element config .nil

def bool (b : Bool) : Encoding Unit := element config (.bool b)

def uint (n : UInt64) : Encoding Unit := element config (.uint n)

def int (n : Int64) : Encoding Unit := element config (.int n)

/-- An integer of a named kind. -/
def kind (k : IntKind) (n : Int) : Encoding Unit :=
  if k.isWide then throw (.unsupported k.name)
  else if k.isSigned then int config (Int64.ofInt n)
  else uint config (UInt64.ofNat n.toNat)

def f32 (bits : UInt32) : Encoding Unit := element config (.f32 bits)

def f64 (bits : UInt64) : Encoding Unit := element config (.f64 bits)

def arrayLen (len : Nat) : Encoding Unit := element config (.array len)

def mapLen (len : Nat) : Encoding Unit := element config (.map len)

/-- A raw: its header, then its bytes in one call unless there are none. -/
def bytes (data : List UInt8) : Encoding Unit := do
  element config (.raw data.length)
  if data.isEmpty then pure () else write data

def text (s : String) : Encoding Unit := bytes config (Text.utf8 s)

def integer (n : Integer) : Encoding Unit :=
  match n.form with
  | .unsigned v => uint config v
  | .negative v => int config v

def texts : List String → Encoding Unit
  | [] => pure ()
  | s :: rest => do
    text config s
    texts rest

/-- An array of texts. -/
def strings (list : List String) : Encoding Unit := do
  arrayLen config list.length
  texts config list

def textPairs : List (String × String) → Encoding Unit
  | [] => pure ()
  | (k, v) :: rest => do
    text config k
    text config v
    textPairs rest

/-- A map from texts to texts. -/
def stringMap (list : List (String × String)) : Encoding Unit := do
  mapLen config list.length
  textPairs config list

/-- A timestamp as two bare signed integers. -/
def time (t : Timestamp) : Encoding Unit := do
  int config t.seconds
  int config (Int64.ofNat t.nanos)

/-- A timestamp as an array of the two. -/
def timePair (t : Timestamp) : Encoding Unit := do
  arrayLen config 2
  time config t

/-- Opens the map of one entry that a variant with contents is written as. -/
def variant (name : String) : Encoding Unit := do
  mapLen config 1
  text config name

mutual

def value : Value → Encoding Unit
  | .nil => nil config
  | .bool b => bool config b
  | .int n => integer config n
  | .f32 bits => f32 config bits
  | .f64 bits => f64 config bits
  | .raw data => bytes config data
  | .array items => do
    arrayLen config items.length
    values items
  | .map entries => do
    mapLen config entries.length
    valuePairs entries

def values : List Value → Encoding Unit
  | [] => pure ()
  | v :: rest => do
    value v
    values rest

def valuePairs : List (Value × Value) → Encoding Unit
  | [] => pure ()
  | (k, v) :: rest => do
    value k
    value v
    valuePairs rest

end

end Encoder

end MessagePack
