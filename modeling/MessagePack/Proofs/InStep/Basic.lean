import MessagePack.Proofs.Readers.Keys
import MessagePack.Proofs.Registry.Register

namespace MessagePack

open Wire (Element Marker)

namespace Decoding

/-- Two readings take the same steps of a session, one after another. They may use the tables of
fields differently: where one reads a key of a structure the other may read it like any raw, and
where one gets a table the other may do without. A failure of the source ends them, and they may go
on in the same way after any other error. -/
inductive InStep : {α : Type} → Decoding α → Decoding α → Prop
  | pure {α : Type} (a : α) : InStep (Pure.pure a) (Pure.pure a)
  | throw {α : Type} (e : Error) : InStep (α := α) (MonadExcept.throw e) (MonadExcept.throw e)
  /-- The second part need only go along with what the first can answer. -/
  | bind {α β : Type} {first first' : Decoding α} {next next' : α → Decoding β}
      (head : InStep first first')
      (tail : ∀ a, (∃ d d', first d = .ok a d') → InStep (next a) (next' a)) :
      InStep (first >>= next) (first' >>= next')
  | rescue {α : Type} {first first' : Decoding α} {next next' : Error → Decoding α}
      (head : InStep first first') (tail : ∀ e, InStep (next e) (next' e))
      (failure : ∀ e, e.isReadFailure = true →
        next e = MonadExcept.throw e ∧ next' e = MonadExcept.throw e) :
      InStep (tryCatch first next) (tryCatch first' next')
  | inside {α : Type}
      (step : Nesting → Option UInt8 → Except Error α × Nesting × Option UInt8) :
      InStep (Decoder.inside step) (Decoder.inside step)
  | exactly (step : Step) (count : Nat) :
      InStep (Decoder.exactly step count) (Decoder.exactly step count)
  | payload (len : Nat) : InStep (Decoder.payload len) (Decoder.payload len)
  | key (fields : Fields) (len : Nat) : InStep (Entries.keyBytes fields len) (Decoder.payload len)
  | fieldsOf {α : Type} {name : String} {names : List String}
      {next next' : Option Fields → Decoding α}
      (tail : ∀ table table', table' = table ∨ table' = none →
        InStep (next table) (next' table')) :
      InStep (Decoder.fieldsOf name names >>= next) (Decoder.fieldsOf name names >>= next')

/-- The reading is put together from steps of a session, and hands on any failure of the source. -/
def Stepwise {α : Type} (reading : Decoding α) : Prop := InStep reading reading

variable {α β : Type}

theorem InStep.seq {first first' : Decoding α} {next next' : α → Decoding β}
    (head : InStep first first') (tail : ∀ a, InStep (next a) (next' a)) :
    InStep (first >>= next) (first' >>= next') :=
  .bind head fun a _ => tail a

theorem InStep.map {first first' : Decoding α} {f : α → β} (h : InStep first first') :
    InStep (first >>= fun a => Pure.pure (f a)) (first' >>= fun a => Pure.pure (f a)) :=
  .seq h fun a => .pure (f a)

end Decoding

open Decoding

theorem Entries.keyBytes_stepwise (fields : Fields) (len : Nat) :
    Stepwise (Entries.keyBytes fields len) := by
  unfold keyBytes
  split
  · exact .exactly _ _
  · exact .payload _

namespace Decoder

variable {α : Type}

theorem peekTag_stepwise : Stepwise peekTag := by
  rw [peekTag_eq]
  refine .seq (.inside _) fun tag? => ?_
  cases tag? with
  | some tag => exact .pure tag
  | none => exact .seq (.exactly _ _) fun bytes => .seq (.inside _) fun _ => .pure _

theorem peekMarker_stepwise : Stepwise peekMarker :=
  peekTag_stepwise.map

theorem field_stepwise (marker : Marker) : Stepwise (field marker) := by
  unfold field
  split
  · exact .pure 0
  · exact .map (.exactly _ _)

theorem enter_stepwise (e : Element) : Stepwise (enter e) := by
  have h : enter e = inside fun nesting peeked => ((nesting.enter e).map fun _ => (),
      (nesting.enter e).toOption.getD (nesting.noted e), peeked) := by
    funext d
    simp only [enter, inside]
    cases d.nesting.enter e <;> rfl
  rw [h]
  exact .inside _

theorem nextElement_stepwise : Stepwise nextElement := by
  rw [nextElement_eq]
  refine .seq peekTag_stepwise fun tag => .seq (.inside _) fun _ => ?_
  refine .seq (field_stepwise _) fun n => ?_
  split
  · exact .throw _
  · exact .seq (enter_stepwise _) fun _ => .pure _

/-- What comes after the next element is taken in steps whichever element that is. -/
theorem nextElement_bind_stepwise {after : Element → Decoding α} (h : ∀ e, Stepwise (after e)) :
    Stepwise (nextElement >>= after) :=
  .seq nextElement_stepwise h

end Decoder

/-- The codec reads by steps of the session and hands on any failure of the source. -/
def Codec.Stepwise (codec : Codec) : Prop := Decoding.Stepwise codec.decode

/-- Every codec of the registry is such a codec. -/
def Registry.Stepwise (registry : Registry) : Prop :=
  ∀ name codec, registry.get? name = some codec → codec.Stepwise

theorem Registry.stepwise_empty : Registry.empty.Stepwise := nofun

theorem Registry.Stepwise.register {registry : Registry} (h : registry.Stepwise) (name : String)
    {codec : Codec} (hcodec : codec.Stepwise) : (registry.register name codec).Stepwise :=
  forall_register h name hcodec

end MessagePack
