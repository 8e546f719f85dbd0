import MessagePack.Proofs.InStep.Basic
import MessagePack.Proofs.Parallel.Shape

namespace MessagePack

open Decoding Decoder

/-- What two readings may be that take the same steps of a session. -/
def Terms.steps : Terms where
  live := True
  codec := Stepwise
  spare := False
  loose := False
  spare_of_loose := id

/-- Where nothing is spared the second, parallel readings take the same steps. -/
theorem Decoding.Parallel.inStep {terms : Terms} (hspare : ¬terms.spare)
    (hcodec : ∀ decode, terms.codec decode → Stepwise decode) {α : Type} {owed : Option Nat}
    {first second : Decoding α} (h : Parallel terms owed first second) : InStep first second := by
  induction h with
  | pure a => exact .pure a
  | throw => exact .throw _
  | refused _ _ spare => exact absurd spare hspare
  | bind _ _ ihHead ihTail => exact .bind ihHead ihTail
  | limit _ _ ih => exact .seq (.inside _) fun levels => ih levels levels (.inl rfl)
  | peekMarker _ _ ih =>
    exact .seq peekMarker_stepwise fun marker => ih marker marker (.refl marker)
  | element _ _ _ ih => exact .seq nextElement_stepwise ih
  | payload len => exact .payload len
  | keyBytes fields len => exact Entries.keyBytes_stepwise fields len
  | key fields len => exact .key fields len
  | fieldsOf _ _ ih => exact .fieldsOf ih
  | codec _ known => exact hcodec _ known

theorem Decoding.Parallel.stepwise {α : Type} {reading : Decoding α}
    (h : Parallel .steps none reading reading) : Stepwise reading :=
  h.inStep id fun _ => id

/-- The codec for timestamps reads two integers, one after the other. -/
theorem Codec.stepwise_timestamp : Codec.timestamp.Stepwise :=
  Parallel.stepwise (.map (time_parallel trivial))

theorem Registry.stepwise_default : Registry.default.Stepwise :=
  stepwise_empty.register _ Codec.stepwise_timestamp

/-- Whatever type is read, it is read in steps. -/
theorem Shape.read_stepwise {registry : Registry} (hregistry : registry.Stepwise) (shape : Shape)
    (input : Input) : Stepwise (shape.read registry input) := by
  have hcodecs : registry.Parallel .steps := hregistry
  exact (shape.read_parallel hcodecs False.elim input (.inl trivial)).stepwise

end MessagePack
