import MessagePack.Proofs.Parallel.Shape

namespace MessagePack

/-- A successful reading leaves the session as it was, and `P` holds of what it answers. -/
def Decoding.Keeps {α : Type} (P : α → Prop) (reading : Decoding α) : Prop :=
  ∀ ⦃d : Decoder⦄ ⦃a : α⦄ ⦃d' : Decoder⦄, reading d = .ok a d' → d' = d ∧ P a

namespace Decoding.Keeps

variable {α β : Type} {P : α → Prop} {Q : β → Prop}

theorem pure {a : α} (h : P a) : Keeps P (Pure.pure a) := by
  intro d b d' hok
  obtain ⟨rfl, rfl⟩ := pure_eq_ok_iff.mp hok
  exact ⟨rfl, h⟩

theorem throw {e : Error} : Keeps P (MonadExcept.throw e) :=
  fun _ _ _ hok => absurd hok throw_ne_ok

theorem ofExcept {r : Except Error α} (h : ∀ a, r = .ok a → P a) :
    Keeps P (Decoding.ofExcept r) := by
  intro d a d' hok
  obtain ⟨hr, rfl⟩ := ofExcept_eq_ok_iff.mp hok
  exact ⟨rfl, h a hr⟩

theorem bind {first : Decoding α} {next : α → Decoding β} (h : Keeps P first)
    (h' : ∀ a, P a → Keeps Q (next a)) : Keeps Q (first >>= next) := by
  intro d b d' hok
  obtain ⟨a, mid, hfirst, hnext⟩ := bind_eq_ok_iff.mp hok
  obtain ⟨rfl, ha⟩ := h hfirst
  exact h' a ha hnext

/-- What is answered may be made something of. -/
theorem map {first : Decoding α} {f : α → β} (h : Keeps P first) :
    Keeps (fun _ => True) (first >>= fun a => Pure.pure (f a)) :=
  h.bind fun _ _ => .pure trivial

theorem mono {P' : α → Prop} {reading : Decoding α} (h : Keeps P reading)
    (hP : ∀ a, P a → P' a) : Keeps P' reading :=
  fun _ _ _ hok => ⟨(h hok).1, hP _ (h hok).2⟩

end Decoding.Keeps

open Decoding

/-- What two readings may be that read nothing from the session. -/
def Terms.memory : Terms where
  live := False
  codec _ := True
  spare := False
  loose := False
  spare_of_loose := id

variable {α : Type}

namespace Decoding

/-- Without a session to read from, what is read is in memory. -/
theorem Parallel.keeps {owed : Option Nat} {reading reading' : Decoding α}
    (h : Parallel .memory owed reading reading') (howed : owed = none) :
    Keeps (fun _ => True) reading := by
  induction h with
  | pure a => exact .pure trivial
  | throw | refused => exact .throw
  | bind _ _ ihHead ihTail =>
    intro d b d' hok
    obtain ⟨a, mid, hfirst, hnext⟩ := bind_eq_ok_iff.mp hok
    obtain ⟨rfl, -⟩ := ihHead howed hfirst
    exact ihTail a ⟨_, _, hfirst⟩ rfl hnext
  | limit live | peekMarker live | element live | fieldsOf live | codec live => exact live.elim
  | payload | keyBytes | key => cases howed

theorem Immediate.keeps {reading : Decoding α} (h : reading.Immediate) :
    Keeps (fun _ => True) reading := by
  obtain ⟨a, rfl⟩ | ⟨e, -, rfl⟩ := h
  · exact .pure trivial
  · exact .throw

end Decoding

/-- From an input in memory the reader leaves the session alone. -/
theorem Reader.Parallel.keeps {one : Reader α} (h : one.Parallel .memory) {input : Input}
    (hin : input.InMemory) : Keeps (fun _ => True) (one input) :=
  (h input (.inr hin)).keeps rfl

/-- Nothing is read from the session to take what is in memory. -/
theorem Offer.Takes.keeps {request : Request} {take : Offer → Decoding α}
    (h : Takes .memory request take) {o : Offer} (ho : o.InMemory) :
    Keeps (fun _ => True) (take o) :=
  (h.same o (.inr ho)).keeps rfl

section

variable (registry : Registry)

theorem Registry.parallel_memory : registry.Parallel .memory :=
  fun _ _ _ => trivial

theorem Shape.read_memory (shape : Shape) : (shape.read registry).Parallel .memory :=
  shape.read_parallel registry.parallel_memory nofun

theorem Content.read_memory (type variant : String) (content : Content) :
    (content.read registry type variant).Parallel .memory :=
  content.read_parallel registry.parallel_memory type variant nofun

end

namespace Input

variable {input : Input} (h : input.InMemory)

include h

theorem ask_keeps (registry : Registry) (request : Request) :
    Keeps Offer.InMemory (input.ask registry request) := by
  cases input with
  | wire => exact h.elim
  | tree v => exact .ofExcept fun _ => Value.offer_inMemory
  | token t => exact .pure t.offer_inMemory

theorem askVariant_keeps : Keeps VariantOffer.InMemory input.askVariant := by
  cases input with
  | wire => exact h.elim
  | tree v => exact .ofExcept fun _ => Value.offerVariant_inMemory
  | token t => exact .pure t.offer_inMemory

end Input

theorem Offer.TakesScalar.keeps {take : Offer → Decoding α} (h : TakesScalar take) (o : Offer) :
    Keeps (fun _ => o.IsScalar) (take o) := by
  rcases h.immediate o with ⟨hscalar, himmediate⟩ | ⟨expected, hrefuse⟩
  · exact himmediate.keeps.mono fun _ _ => hscalar
  · rw [hrefuse]
    exact .throw

namespace Choices

variable (known : Choices α)

theorem take_keeps (o : Offer) : Keeps (fun a => o.IsScalar ∧ known.Offers a) (known.take o) := by
  rcases known.take_cases o with ⟨hscalar, a, ha, hpure⟩ | ⟨e, -, hthrow⟩
  · rw [hpure]
    exact .pure ⟨hscalar, ha⟩
  · rw [hthrow]
    exact .throw

theorem read_keeps {input : Input} (h : input.InMemory) :
    Keeps known.Offers (known.read input) := by
  rw [read_eq]
  exact (Input.ask_keeps h _ _).bind fun o _ => (known.take_keeps o).mono fun _ h => h.2

end Choices

end MessagePack
