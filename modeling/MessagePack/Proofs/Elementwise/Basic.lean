import MessagePack.Proofs.InStep.Shape

namespace MessagePack

open Decoding Decoder
open Wire (Element)

namespace Decoding

/-- The reading goes from one element to the next. It takes the bytes of a raw right after the
header that announces them, and nothing else brings it to such bytes; `owed` are those that it has
before it where it begins. No error of its own is like one of the source. -/
inductive Elementwise : {α : Type} → Nat → Decoding α → Prop
  | pure {α : Type} (a : α) : Elementwise 0 (Pure.pure a)
  | throw {α : Type} (owed : Nat) {e : Error} (own : e.isReadFailure = false) :
      Elementwise (α := α) owed (MonadExcept.throw e)
  /-- The second part need only go along with what the first can answer. -/
  | bind {α β : Type} {owed : Nat} {first : Decoding α} {next : α → Decoding β}
      (head : Elementwise owed first)
      (tail : ∀ a, (∃ d d', first d = .ok a d') → Elementwise 0 (next a)) :
      Elementwise owed (first >>= next)
  | limit : Elementwise 0 Decoder.limit
  | peekMarker : Elementwise 0 Decoder.peekMarker
  | element {α : Type} {next : Element → Decoding α}
      (after : ∀ e, Elementwise e.payload (next e)) : Elementwise 0 (nextElement >>= next)
  | payload (len : Nat) : Elementwise len (Decoder.payload len)
  | key (fields : Fields) (len : Nat) : Elementwise len (Entries.keyBytes fields len)
  | fieldsOf {α : Type} {name : String} {names : List String} {next : Option Fields → Decoding α}
      (tail : ∀ table, Elementwise 0 (next table))
      (along : ∀ table table', table' = table ∨ table' = none →
        InStep (next table) (next table')) :
      Elementwise 0 (Decoder.fieldsOf name names >>= next)

variable {α : Type}

/-- Elements are read in steps of a session. -/
theorem Elementwise.stepwise {owed : Nat} {reading : Decoding α} (h : Elementwise owed reading) :
    Stepwise reading := by
  induction h with
  | pure a => exact .pure a
  | throw _ _ => exact .throw _
  | bind _ _ ihHead ihTail => exact .bind ihHead ihTail
  | limit => exact .inside _
  | peekMarker => exact peekMarker_stepwise
  | element _ ih => exact nextElement_bind_stepwise ih
  | payload len => exact .payload len
  | key fields len => exact Entries.keyBytes_stepwise fields len
  | fieldsOf _ along _ => exact .fieldsOf along

end Decoding

/-- What two readings may be that go alike from one element to the next. -/
def Terms.elements : Terms where
  live := True
  codec := Elementwise 0
  spare := False
  loose := False
  spare_of_loose := id

/-- What is owed behind an element is its payload. -/
theorem Wire.Element.owed?_getD (e : Element) : e.owed?.getD 0 = e.payload := by
  cases e <;> rfl

variable {α : Type}

theorem Decoding.Parallel.elementwise {owed : Option Nat} {first second : Decoding α}
    (h : Parallel .elements owed first second) : Elementwise (owed.getD 0) first := by
  induction h with
  | pure a => exact .pure a
  | throw _ own => exact .throw _ own
  | refused _ _ spare => exact spare.elim
  | bind _ _ ihHead ihTail => exact .bind ihHead ihTail
  | limit _ _ ih => exact .bind .limit fun levels _ => ih levels levels (.inl rfl)
  | peekMarker _ _ ih => exact .bind .peekMarker fun marker _ => ih marker marker (.refl marker)
  | element _ _ _ ih => exact .element fun e => e.owed?_getD ▸ ih e
  | payload len => exact .payload len
  | keyBytes fields len | key fields len => exact .key fields len
  | fieldsOf _ tail ih =>
    refine .fieldsOf (fun table => ih table table (.inl rfl)) fun table table' h => ?_
    exact (tail table table' h).inStep id fun _ => Elementwise.stepwise
  | codec _ known => exact known

/-- The codec reads element by element, as the functions of a session for its use do. -/
def Codec.Elementwise (codec : Codec) : Prop := Decoding.Elementwise 0 codec.decode

/-- Every codec of the registry is such a codec. -/
def Registry.Elementwise (registry : Registry) : Prop :=
  ∀ name codec, registry.get? name = some codec → codec.Elementwise

/-- The codec for timestamps reads two integers, one after the other. -/
theorem Codec.elementwise_timestamp : timestamp.Elementwise :=
  (Parallel.map (time_parallel trivial)).elementwise

namespace Registry

theorem elementwise_empty : Registry.empty.Elementwise := nofun

theorem Elementwise.register {registry : Registry} (h : registry.Elementwise) (name : String)
    {codec : Codec} (hcodec : codec.Elementwise) :
    (registry.register name codec).Elementwise :=
  forall_register h name hcodec

theorem elementwise_default : Registry.default.Elementwise :=
  elementwise_empty.register _ Codec.elementwise_timestamp

end Registry

/-- Whatever type is read, it is read from element to element. -/
theorem Shape.read_elementwise {registry : Registry} (hregistry : registry.Elementwise)
    (shape : Shape) (input : Input) : Elementwise 0 (shape.read registry input) := by
  have hcodecs : registry.Parallel .elements := hregistry
  exact (shape.read_parallel hcodecs False.elim input (.inl trivial)).elementwise

end MessagePack
