import MessagePack.Data.Encode
import MessagePack.Proofs.Registry.Register
import Mathlib.Tactic.SplitIfs

namespace MessagePack

/-- A property that single offers of bytes and failures have, and that encodings one after the
other keep. Whatever is put together from these has it. -/
structure Encoding.Stable (P : Encoding Unit → Prop) : Prop where
  nothing : P (pure ())
  throw (e : Error) : P (MonadExcept.throw e)
  write (data : List UInt8) : P (Encoder.write data)
  seq {first second : Encoding Unit} : P first → P second → P (first >>= fun _ => second)

/-- Whatever the codec is handed, it writes it with the property. -/
def Codec.Respects (P : Encoding Unit → Prop) (codec : Codec) : Prop :=
  ∀ config v, P (codec.encode config v)

def Registry.Respects (P : Encoding Unit → Prop) (registry : Registry) : Prop :=
  ∀ name codec, registry.get? name = some codec → codec.Respects P

open Encoder

namespace Encoding.Stable

variable {P : Encoding Unit → Prop} (config : Config)

/-- A test of what is known without the sink. -/
theorem check (h : Stable P) (test : Prop) [Decidable test] (e : Error) :
    P (if test then MonadExcept.throw e else pure PUnit.unit) := by
  split_ifs
  · exact h.throw e
  · exact h.nothing

theorem element (h : Stable P) (e : Wire.Element) : P (element config e) := by
  unfold Encoder.element
  split
  · exact h.write _
  · exact h.throw _

theorem kind (h : Stable P) (k : IntKind) (n : Int) : P (kind config k n) := by
  unfold Encoder.kind
  split_ifs
  · exact h.throw _
  · exact h.element config _
  · exact h.element config _

/-- The rest of a header: bytes in one offer, unless there are none. -/
theorem body (h : Stable P) (data : List UInt8) :
    P (if data.isEmpty then pure () else Encoder.write data) := by
  split_ifs
  · exact h.nothing
  · exact h.write data

theorem bytes (h : Stable P) (data : List UInt8) : P (bytes config data) :=
  h.seq (h.element config _) (h.body data)

theorem integer (h : Stable P) (n : Integer) : P (integer config n) := by
  unfold Encoder.integer
  split <;> exact h.element config _

theorem time (h : Stable P) (t : Timestamp) : P (time config t) :=
  h.seq (h.element config _) (h.element config _)

theorem timePair (h : Stable P) (t : Timestamp) : P (timePair config t) :=
  h.seq (h.element config _) (h.time config t)

theorem variant (h : Stable P) (name : String) : P (variant config name) :=
  h.seq (h.element config _) (h.bytes config _)

mutual

theorem value (h : Stable P) : (v : Value) → P (value config v)
  | .nil => h.element config .nil
  | .bool b => h.element config (.bool b)
  | .int n => h.integer config n
  | .f32 bits => h.element config (.f32 bits)
  | .f64 bits => h.element config (.f64 bits)
  | .raw data => h.bytes config data
  | .array items => h.seq (h.element config _) (h.values items)
  | .map entries => h.seq (h.element config _) (h.valuePairs entries)

theorem values (h : Stable P) : (items : List Value) → P (values config items)
  | [] => h.nothing
  | v :: rest => h.seq (h.value v) (h.values rest)

theorem valuePairs (h : Stable P) : (entries : List (Value × Value)) →
    P (valuePairs config entries)
  | [] => h.nothing
  | (k, v) :: rest => h.seq (h.value k) (h.seq (h.value v) (h.valuePairs rest))

end

/-- What was captured before has nothing to do with the sink. -/
theorem through (h : Stable P) {codec : Codec} (hcodec : codec.Respects P)
    (captured : Except Error Value) : P (through codec config captured) := by
  cases captured with
  | ok v => exact hcodec config v
  | error e => exact h.throw e

theorem verbatim (h : Stable P) (captured : Except Error Value) : P (verbatim captured) := by
  unfold Encoder.verbatim
  split
  · exact h.write _
  · exact h.throw _
  · exact h.throw _

/-- Nor has what was written to the side. -/
theorem afterwards (h : Stable P) {header : Encoding Unit} (hheader : P header)
    (body : Except Error (List UInt8)) : P (afterwards header body) := by
  cases body with
  | ok body => exact h.seq hheader (h.body body)
  | error e => exact h.throw e

theorem coder (h : Stable P) (encoding : Encoding Unit) : P (coder config encoding) := by
  unfold Encoder.coder
  split
  · exact h.verbatim _
  · exact h.throw _

theorem codec_timestamp (h : Stable P) : Codec.timestamp.Respects P := by
  intro config v
  unfold Codec.timestamp
  dsimp only
  split
  · split
    · exact h.time config _
    · exact h.throw _
  · exact h.throw _

end Encoding.Stable

namespace Registry

variable {P : Encoding Unit → Prop}

theorem respects_empty (P : Encoding Unit → Prop) : empty.Respects P := fun _ _ h => nomatch h

theorem Respects.register {registry : Registry} (h : registry.Respects P) (name : String)
    {codec : Codec} (hcodec : codec.Respects P) : (registry.register name codec).Respects P :=
  forall_register h name hcodec

theorem respects_default (h : Encoding.Stable P) : Registry.default.Respects P :=
  (respects_empty P).register _ h.codec_timestamp

end Registry

namespace Data

variable (config : Config) {registry : Registry} {P : Encoding Unit → Prop}

mutual

/-- Data is put together in this way, whatever its types, as far as the codecs keep to that. -/
theorem encode_stable (hP : Encoding.Stable P) (hregistry : registry.Respects P) :
    (d : Data) → P (d.encode config registry)
  | .bool b => hP.element config (.bool b)
  | .int k n => hP.kind config k n
  | .f32 bits => hP.element config (.f32 bits)
  | .f64 bits => hP.element config (.f64 bits)
  | .unit | .absent => hP.element config .nil
  | .human => hP.element config (.bool false)
  | .char _ | .text _ | .bytes _ | .unitVariant _ _ => hP.bytes config _
  | .present content => content.encode_stable hP hregistry
  | .value v => hP.value config v
  | .integer n => hP.integer config n
  | .timestamp t => by
    rw [encode]
    split
    · exact hP.through config (hregistry _ _ ‹_›) _
    · exact hP.timePair config t
  | .seq (some _) items => hP.seq (hP.element config _) (items_stable hP hregistry items)
  | .seq none items => hP.afterwards (hP.element config _) _
  | .map (some _) entries => hP.seq (hP.element config _) (entries_stable hP hregistry entries)
  | .map none entries => hP.afterwards (hP.element config _) _
  | .collectSeq _ items =>
    hP.seq (hP.element config _) (hP.seq (items_stable hP hregistry items) (hP.check _ _))
  | .collectMap _ entries =>
    hP.seq (hP.element config _) (hP.seq (entries_stable hP hregistry entries) (hP.check _ _))
  | .tuple items => hP.seq (hP.element config _) (items_stable hP hregistry items)
  | .tupleStruct name items => by
    rw [encode]
    split
    · exact hP.through config (hregistry _ _ ‹_›) _
    · exact hP.seq (hP.element config _) (items_stable hP hregistry items)
  | .unitStruct name => by
    rw [encode]
    split
    · exact hregistry _ _ ‹_› config .nil
    · exact hP.element config _
  | .newtype name content => by
    rw [encode]
    split_ifs
    · exact hP.verbatim _
    · split
      · exact hP.through config (hregistry _ _ ‹_›) _
      · exact content.encode_stable hP hregistry
  | .struct name fields => by
    rw [encode]
    split
    · exact hP.through config (hregistry _ _ ‹_›) _
    · exact hP.seq (hP.element config _) (fields_stable hP hregistry fields)
  | .newtypeVariant _ name content =>
    hP.seq (hP.variant config name) (content.encode_stable hP hregistry)
  | .tupleVariant _ name items => hP.seq (hP.variant config name) <|
    hP.seq (hP.element config _) (items_stable hP hregistry items)
  | .structVariant _ name fields => hP.seq (hP.variant config name) <|
    hP.seq (hP.element config _) (fields_stable hP hregistry fields)
  | .coder write => hP.coder config write

theorem items_stable (hP : Encoding.Stable P) (hregistry : registry.Respects P) :
    (items : List Data) → P (encodeItems config registry items)
  | [] => hP.nothing
  | d :: rest => hP.seq (d.encode_stable hP hregistry) (items_stable hP hregistry rest)

theorem entries_stable (hP : Encoding.Stable P) (hregistry : registry.Respects P) :
    (entries : List (Data × Data)) → P (encodeEntries config registry entries)
  | [] => hP.nothing
  | (k, v) :: rest => hP.seq (k.encode_stable hP hregistry) <|
    hP.seq (v.encode_stable hP hregistry) (entries_stable hP hregistry rest)

theorem fields_stable (hP : Encoding.Stable P) (hregistry : registry.Respects P) :
    (fields : List (String × Data)) → P (encodeFields config registry fields)
  | [] => hP.nothing
  | (_, d) :: rest => hP.seq (hP.bytes config _) <|
    hP.seq (d.encode_stable hP hregistry) (fields_stable hP hregistry rest)

end

end Data

end MessagePack
