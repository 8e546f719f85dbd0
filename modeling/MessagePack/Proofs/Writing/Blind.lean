import MessagePack.Proofs.Writing.Stable
import MessagePack.Proofs.Writing.Writes

namespace MessagePack

namespace Encoding

/-- How the encoding ends on every sink that takes everything: well, with these bytes handed over,
or in this error. -/
def Ends (encoding : Encoding Unit) : Except Error (List UInt8) → Prop
  | .ok bytes => encoding.Writes bytes
  | .error e => ∀ ⦃sink : Sink⦄, sink.TakesAll → ∃ sink', encoding sink = .error e sink'

/-- The encoding does not see which sink it is that takes all it is offered. -/
def Blind (encoding : Encoding Unit) : Prop :=
  ∃ outcome, encoding.Ends outcome

namespace Ends

variable {encoding first second : Encoding Unit} {outcome outcome' : Except Error (List UInt8)}

/-- What is left to the side, where everything is taken. -/
theorem buffered (h : Ends encoding outcome) : Encoder.buffered encoding = outcome := by
  cases outcome with
  | ok bytes => exact Writes.buffered h
  | error e =>
    obtain ⟨sink', hencoding⟩ := h Sink.takesAll_unlimited
    simp only [Encoder.buffered, hencoding]

theorem throw (e : Error) : Ends (MonadExcept.throw e) (.error e) := by
  intro sink _
  exact ⟨sink, rfl⟩

/-- The second encoding is reached if the first ends well, and its bytes come after. -/
theorem seq (h : Ends first outcome) (h' : Ends second outcome') :
    Ends (first >>= fun _ => second)
      (do let bytes ← outcome; let bytes' ← outcome'; return bytes ++ bytes') := by
  cases outcome with
  | error e =>
    intro sink hsink
    obtain ⟨mid, hfirst⟩ := h hsink
    exact ⟨mid, by simp only [bind, EStateM.bind, hfirst]⟩
  | ok bytes =>
    cases outcome' with
    | ok bytes' => exact Writes.bind h h'
    | error e =>
      intro sink hsink
      obtain ⟨mid, hfirst, hmid, -⟩ := h hsink
      obtain ⟨last, hsecond⟩ := h' hmid
      exact ⟨last, by simp only [bind, EStateM.bind, hfirst, hsecond]⟩

end Ends

namespace Blind

variable {encoding first second : Encoding Unit}

/-- It ends as it does where the bytes are left to the side. -/
theorem ends (h : Blind encoding) : encoding.Ends (Encoder.buffered encoding) := by
  obtain ⟨outcome, hends⟩ := h
  rwa [hends.buffered]

theorem writes (h : Blind encoding) {bytes : List UInt8}
    (hbuffered : Encoder.buffered encoding = .ok bytes) : Writes encoding bytes := by
  have hends := h.ends
  rwa [hbuffered] at hends

theorem stable : Stable Blind where
  nothing := ⟨.ok [], Writes.nothing⟩
  throw e := ⟨.error e, Ends.throw e⟩
  write data := ⟨.ok data, Writes.write data⟩
  seq h h' := ⟨_, h.ends.seq h'.ends⟩

theorem buffered_seq (h : Blind first) (h' : Blind second) :
    Encoder.buffered (first >>= fun _ => second) = do
      let bytes ← Encoder.buffered first
      let bytes' ← Encoder.buffered second
      return bytes ++ bytes' :=
  (h.ends.seq h'.ends).buffered

/-- What the two have written is what each has. -/
theorem exists_writes (h : Blind first) (h' : Blind second) {bytes : List UInt8}
    (hwrites : Writes (first >>= fun _ => second) bytes) :
    ∃ bytes' bytes'', Writes first bytes' ∧ Writes second bytes'' ∧ bytes' ++ bytes'' = bytes := by
  obtain ⟨outcome, hends⟩ := h
  obtain ⟨outcome', hends'⟩ := h'
  have hboth := (hends.seq hends').buffered.symm.trans hwrites.buffered
  cases outcome with
  | error e => exact nomatch hboth
  | ok bytes' =>
    cases outcome' with
    | error e => exact nomatch hboth
    | ok bytes'' => exact ⟨bytes', bytes'', hends, hends', Except.ok.inj hboth⟩

end Blind

end Encoding

open Encoding

namespace Encoder

variable (config : Config)

theorem buffered_throw (e : Error) : buffered (throw e) = .error e :=
  (Ends.throw e).buffered

/-- An error leaves no bytes. -/
theorem not_writes_throw {e : Error} {bytes : List UInt8} : ¬Encoding.Writes (throw e) bytes :=
  fun hwrites => nomatch (buffered_throw e).symm.trans hwrites.buffered

/-- A header that is written last has no part in the errors of what was written to the side. -/
theorem buffered_afterwards {header : Encoding Unit} (h : Blind header)
    (body : Except Error (List UInt8)) :
    buffered (afterwards header body) = do
      let bytes' ← body
      let bytes ← buffered header
      return bytes ++ bytes' := by
  cases body with
  | error e => exact buffered_throw e
  | ok bytes' =>
    have hrest : Ends (if bytes'.isEmpty then pure () else write bytes') (.ok bytes') :=
      Writes.rest bytes'
    exact (h.ends.seq hrest).buffered

theorem buffered_through (codec : Codec) (captured : Except Error Value) :
    buffered (through codec config captured) =
      captured >>= fun v => buffered (codec.encode config v) := by
  cases captured with
  | ok v => rfl
  | error e => exact buffered_throw e

theorem buffered_verbatim (captured : Except Error Value) :
    buffered (verbatim captured) = captured >>= fun v => buffered (verbatim (.ok v)) := by
  cases captured with
  | ok v => rfl
  | error e => exact buffered_throw e

end Encoder

/-- No codec of the registry sees what sink it writes to. -/
def Registry.Blind (registry : Registry) : Prop :=
  registry.Respects Encoding.Blind

theorem Registry.blind_empty : Registry.empty.Blind := respects_empty _

theorem Registry.blind_default : Registry.default.Blind := respects_default Blind.stable

theorem Registry.blind_of_bundled {registry : Registry}
    (h : registry = .empty ∨ registry = .default) : registry.Blind := by
  rcases h with rfl | rfl
  · exact blind_empty
  · exact blind_default

end MessagePack
