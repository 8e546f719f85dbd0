import MessagePack.Proofs.Session.Yields
import MessagePack.Value.Offer

namespace MessagePack

open Decoder
open Wire (Element IsHeader Marker)

/-- A raw in memory is turned down, as what it is when nothing in particular is asked for. -/
def Error.RefusesRaw (e : Error) : Prop :=
  ∃ data expected, e = .invalidType (Value.raw data).offerAny.found expected

namespace Decoding

theorem pure_inj {α : Type} {a b : α} (h : (pure a : Decoding α) = pure b) : a = b :=
  (pure_eq_ok_iff.mp (congrFun h (ofBytes []))).1

theorem throw_ne_pure {α : Type} {a : α} {e : Error} : (throw e : Decoding α) ≠ pure a :=
  fun h => throw_ne_ok (congrFun h (ofBytes []))

/-- Where a reading in memory and one of the session over `bytes` both have an answer, the relation
holds of the two answers and of what the session has left of these bytes. -/
def Mirrors {α β : Type} (R : α → β → List UInt8 → Prop) (reading : Decoding α)
    (reading' : Decoding β) (bytes : List UInt8) : Prop :=
  ∀ ⦃s : Decoder⦄ ⦃a : α⦄ ⦃s' d : Decoder⦄ ⦃b : β⦄ ⦃d' : Decoder⦄ ⦃rest : List UInt8⦄,
    reading s = .ok a s' → d.Sound → d.ahead = bytes ++ rest → reading' d = .ok b d' →
    ∃ left, R a b left ∧ d'.Sound ∧ d'.ahead = left ++ rest

/-- The answers are the same, and nothing is left. -/
def Same {α : Type} (a b : α) (left : List UInt8) : Prop := b = a ∧ left = []

/-- Where a reading of the session over `bytes` has an answer, one in memory has its own whatever
the session, and the relation holds of the two; only if it trips, it turns down a raw. -/
def MirrorsUnless {α β : Type} (trips : Prop) (R : α → β → List UInt8 → Prop)
    (reading : Decoding α) (reading' : Decoding β) (bytes : List UInt8) : Prop :=
  ∀ ⦃d : Decoder⦄ ⦃b : β⦄ ⦃d' : Decoder⦄ ⦃rest : List UInt8⦄,
    d.Sound → d.ahead = bytes ++ rest → reading' d = .ok b d' →
    (trips ∧ ∃ e, e.RefusesRaw ∧ reading = throw e) ∨
      ¬trips ∧ ∃ a left, reading = pure a ∧ R a b left ∧ d'.Sound ∧ d'.ahead = left ++ rest

namespace MirrorsUnless

variable {α β γ δ : Type} {R : α → β → List UInt8 → Prop} {Q : γ → δ → List UInt8 → Prop}
  {trips trips' : Prop} {reading : Decoding α} {reading' : Decoding β}
  {bytes more header body : List UInt8}

theorem of_iff (h : MirrorsUnless trips R reading reading' bytes) (hiff : trips' ↔ trips) :
    MirrorsUnless trips' R reading reading' bytes :=
  propext hiff ▸ h

/-- Where both have an answer it is that of a reading that does not trip. -/
theorem mirrors (h : MirrorsUnless trips R reading reading' bytes) :
    Mirrors R reading reading' bytes := by
  intro s a s' d b d' rest hleft hs hahead hright
  rcases h hs hahead hright with ⟨-, e, -, hthrow⟩ | ⟨-, a', left, hpure, hab, hs', hahead'⟩
  · rw [hthrow] at hleft
    exact absurd hleft throw_ne_ok
  · rw [hpure] at hleft
    obtain ⟨rfl, -⟩ := pure_eq_ok_iff.mp hleft
    exact ⟨left, hab, hs', hahead'⟩

theorem pure {a : α} {b : β} (h : R a b bytes) :
    MirrorsUnless False R (Pure.pure a) (Pure.pure b) bytes := by
  intro d b d' rest hs hahead hright
  obtain ⟨rfl, rfl⟩ := pure_eq_ok_iff.mp hright
  exact .inr ⟨id, a, bytes, rfl, h, hs, hahead⟩

theorem throw_right {e : Error} :
    MirrorsUnless trips R reading (MonadExcept.throw e) bytes :=
  fun _ _ _ _ _ _ hright => absurd hright throw_ne_ok

theorem trip {e : Error} (htrips : trips) (he : e.RefusesRaw) :
    MirrorsUnless trips R (MonadExcept.throw e) reading' bytes :=
  fun _ _ _ _ _ _ _ => .inl ⟨htrips, e, he, rfl⟩

/-- Where either part trips, both do. The second need only go along with the first's answer. -/
theorem bind {first : Decoding α} {first' : Decoding β} {next : α → Decoding γ}
    {next' : β → Decoding δ} (h : MirrorsUnless trips R first first' bytes)
    (h' : ∀ a b left, first = Pure.pure a → R a b left →
      MirrorsUnless trips' Q (next a) (next' b) left) :
    MirrorsUnless (trips ∨ trips') Q (first >>= next) (first' >>= next') bytes := by
  intro d c d' rest hs hahead hright
  obtain ⟨b, mid, hfirst, hnext⟩ := bind_eq_ok_iff.mp hright
  rcases h hs hahead hfirst with
    ⟨htrips, e, he, hthrow⟩ | ⟨hstays, a, left, hpure, hab, hmid, hleft⟩
  · exact .inl ⟨.inl htrips, e, he, by rw [hthrow]; rfl⟩
  · rw [hpure, pure_bind]
    exact (h' a b left hpure hab hmid hleft hnext).imp (fun h => ⟨.inr h.1, h.2⟩)
      fun h => ⟨not_or.mpr ⟨hstays, h.1⟩, h.2⟩

/-- What does not trip itself is as the rest is. -/
theorem after {first : Decoding α} {first' : Decoding β} {next : α → Decoding γ}
    {next' : β → Decoding δ} (h : MirrorsUnless False R first first' bytes)
    (h' : ∀ a b left, first = Pure.pure a → R a b left →
      MirrorsUnless trips Q (next a) (next' b) left) :
    MirrorsUnless trips Q (first >>= next) (first' >>= next') bytes :=
  (h.bind h').of_iff (false_or trips).to_iff.symm

/-- Bytes that come behind are left behind. -/
theorem widen (h : MirrorsUnless trips R reading reading' bytes) (more : List UInt8) :
    MirrorsUnless trips (fun a b left => ∃ before, R a b before ∧ left = before ++ more) reading
      reading' (bytes ++ more) := by
  intro d b d' rest hs hahead hright
  rw [List.append_assoc] at hahead
  refine (h hs hahead hright).imp_right fun hpart => ?_
  obtain ⟨hstays, a, left, hpure, hab, hs', hahead'⟩ := hpart
  exact ⟨hstays, a, left ++ more, hpure, ⟨left, hab, rfl⟩, hs', by rw [hahead', List.append_assoc]⟩

/-- One reading after another, over bytes after bytes. -/
theorem seq {first first' : Decoding α} {next : α → Decoding γ} {next' : α → Decoding δ}
    (h : MirrorsUnless trips Same first first' bytes)
    (h' : ∀ a, first = Pure.pure a → MirrorsUnless trips' Q (next a) (next' a) more) :
    MirrorsUnless (trips ∨ trips') Q (first >>= next) (first' >>= next') (bytes ++ more) := by
  refine (h.widen more).bind fun a b left hpure hsame => ?_
  obtain ⟨_, ⟨rfl, rfl⟩, rfl⟩ := hsame
  exact h' b hpure

/-- What follows without any bytes of its own. -/
theorem follow {first first' : Decoding α} {next : α → Decoding γ} {next' : α → Decoding δ}
    (h : MirrorsUnless trips Same first first' bytes)
    (h' : ∀ a, first = Pure.pure a → MirrorsUnless False Q (next a) (next' a) []) :
    MirrorsUnless trips Q (first >>= next) (first' >>= next') bytes := by
  have hall := (h.seq h').of_iff (or_false trips).to_iff.symm
  rwa [List.append_nil] at hall

theorem map {first first' : Decoding α} {f : α → γ}
    (h : MirrorsUnless trips Same first first' bytes) :
    MirrorsUnless trips Same (first >>= fun a => Pure.pure (f a))
      (first' >>= fun a => Pure.pure (f a)) bytes :=
  h.follow fun _ _ => .pure ⟨rfl, rfl⟩

/-- What depends on no session is the same twice. -/
theorem ofExcept (r : Except Error α) :
    MirrorsUnless False Same (Decoding.ofExcept r) (Decoding.ofExcept r) [] := by
  cases r with
  | ok a => exact .pure ⟨rfl, rfl⟩
  | error e => exact .throw_right

/-- The next element is known from its header. -/
theorem element {e : Element} {next : Element → Decoding β} (hheader : IsHeader e header)
    (h : MirrorsUnless trips R reading (next e) body) :
    MirrorsUnless trips R reading (nextElement >>= next) (header ++ body) := by
  intro d b d' rest hs hahead hright
  obtain ⟨e', mid, helement, hnext⟩ := bind_eq_ok_iff.mp hright
  obtain ⟨header', rest', nesting, hheader', hahead', henter, rfl⟩ :=
    (nextElement_eq_ok_iff hs.steady).mp helement
  rw [hahead, List.append_assoc] at hahead'
  obtain ⟨rfl, rfl, -⟩ := hheader.append_inj hheader' hahead'
  rw [List.append_assoc] at hahead
  have hmid : Sound { d.past header.length with nesting } :=
    ⟨past_steady hs.steady _, (hs.nesting.enter henter).1⟩
  exact h hmid (ahead_past hahead) hnext

/-- An element that nothing else belongs to. -/
theorem scalar {e : Element} {next : Element → Decoding β} (hheader : IsHeader e header)
    (h : MirrorsUnless trips R reading (next e) []) :
    MirrorsUnless trips R reading (nextElement >>= next) header := by
  have hall := element hheader h
  rwa [List.append_nil] at hall

/-- A raw is known from its header and its payload, however that is read. -/
theorem raw {data : List UInt8} {next : Element → Decoding β} {step : Decoding (List UInt8)}
    {use : List UInt8 → Decoding β} (hheader : IsHeader (.raw data.length) header)
    (hnext : next (.raw data.length) = step >>= use)
    (hstep : ∀ {d d' : Decoder} {bytes : List UInt8}, step d = .ok bytes d' →
      payload data.length d = .ok bytes d')
    (h : MirrorsUnless trips R reading (use data) []) :
    MirrorsUnless trips R reading (nextElement >>= next) (header ++ data) := by
  intro d b d' rest hs hahead hright
  obtain ⟨e, mid, helement, hrest⟩ := bind_eq_ok_iff.mp hright
  obtain ⟨header', rest', nesting, hheader', hahead', -, -⟩ :=
    (nextElement_eq_ok_iff hs.steady).mp helement
  have hsame := hahead
  rw [hahead', List.append_assoc] at hsame
  obtain ⟨rfl, -, -⟩ := hheader'.append_inj hheader hsame
  rw [hnext] at hrest
  obtain ⟨data', last, hdata, huse⟩ := bind_eq_ok_iff.mp hrest
  obtain ⟨header'', hheader'', hpassed, -⟩ := passed_payload hs helement (hstep hdata)
  have hboth := hpassed.ahead
  rw [hahead, List.append_assoc, List.append_assoc] at hboth
  obtain ⟨hlen, -, htail⟩ := hheader.append_inj hheader'' hboth
  obtain ⟨rfl, hlast⟩ := List.append_inj htail (Element.raw.inj hlen)
  exact h (hpassed.sound hs) hlast.symm huse

/-- A look at the next tag leaves everything to be read. If a header comes next, the tag begins
it. -/
theorem peek {next : Marker → Decoding β}
    (h : ∀ marker, (∀ {e header body}, IsHeader e header → bytes = header ++ body →
      ∃ n, Element.ofField n marker = some e) → MirrorsUnless trips R reading (next marker) bytes) :
    MirrorsUnless trips R reading (peekMarker >>= next) bytes := by
  intro d b d' rest hs hahead hright
  obtain ⟨marker, mid, hpeek, hnext⟩ := bind_eq_ok_iff.mp hright
  obtain ⟨tag, last, htag, hmarker⟩ := bind_eq_ok_iff.mp hpeek
  obtain ⟨rfl, rfl⟩ := pure_eq_ok_iff.mp hmarker
  obtain ⟨⟨tail, htail⟩, -⟩ := (peekTag_eq_ok_iff hs.steady).mp htag
  have hpassed := passed_peekTag hs htag
  have hmid := hpassed.ahead
  rw [hahead, List.nil_append] at hmid
  refine h _ ?_ (hpassed.sound hs) hmid.symm hnext
  intro e header body hheader hbytes
  obtain ⟨tag', field, rfl⟩ := hheader.exists_cons
  rw [htail, hbytes] at hahead
  obtain ⟨rfl, -⟩ := List.cons.inj hahead
  exact ⟨_, (Wire.isHeader_cons_iff.mp hheader).2⟩

/-- What is looked up in the tables makes no difference. -/
theorem fieldsOf {name : String} {names : List String} {next : Option Fields → Decoding β}
    (h : ∀ table, MirrorsUnless trips R reading (next table) bytes) :
    MirrorsUnless trips R reading (Decoder.fieldsOf name names >>= next) bytes := by
  intro d b d' rest hs hahead hright
  obtain ⟨table, mid, htable, hnext⟩ := bind_eq_ok_iff.mp hright
  obtain ⟨tables, hlook, -⟩ := fieldsOf_eq name names d
  obtain ⟨rfl, rfl⟩ := EStateM.Result.ok.inj (hlook.symm.trans htable)
  exact h _ (d := { d with tables }) ⟨hs.steady, hs.nesting⟩ hahead hnext

end MirrorsUnless

end Decoding

end MessagePack
