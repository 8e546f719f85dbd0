import MessagePack.Decoder.Offer
import MessagePack.Proofs.Fields.History
import MessagePack.Proofs.Session.Passed

namespace MessagePack

open Wire (Element IsHeader Streams)
open Decoder

namespace Decoder

/-- A session with tables gives the same table whatever has been made before. -/
theorem fieldsOf_eq (name : String) (names : List String) (d : Decoder) :
    ∃ tables, fieldsOf name names d =
        .ok (d.tables.map fun _ => .ofNames names) { d with tables } ∧
      (tables = none ↔ d.tables = none) := by
  obtain ⟨source, nesting, peeked, tables⟩ := d
  cases tables with
  | none => exact ⟨none, rfl, Iff.rfl⟩
  | some cache =>
    refine ⟨some (cache.fieldsOf name names).2, ?_, by simp⟩
    rw [Option.map_some, ← cache.fieldsOf_answer name names]
    rfl

end Decoder

/-- From wherever these bytes come next and the nesting has room for their elements, the reading
answers `a` and leaves the session right after them. -/
def Decoding.Yields {α : Type} (reading : Decoding α) (elements : List Element)
    (bytes : List UInt8) (a : α) : Prop :=
  ∀ ⦃d : Decoder⦄ ⦃rest : List UInt8⦄ ⦃next : Nesting⦄, d.Sound → d.ahead = bytes ++ rest →
    d.nesting.enterAll elements = .ok next →
    ∃ tables, reading d = .ok a { d.past bytes.length with nesting := next, tables }

namespace Decoding.Yields

variable {α β : Type} {reading first : Decoding α} {k : α → Decoding β} {a : α} {b : β}
  {elements elements' : List Element} {bytes bytes' : List UInt8}

theorem pure (a : α) : Yields (Pure.pure a) [] [] a := by
  intro d rest next _ _ hnext
  cases hnext
  exact ⟨d.tables, rfl⟩

theorem bind (h : Yields first elements bytes a) (h' : Yields (k a) elements' bytes' b) :
    Yields (first >>= k) (elements ++ elements') (bytes ++ bytes') b := by
  intro d rest after hs hahead hnext
  rw [List.append_assoc] at hahead
  rw [Nesting.enterAll_append] at hnext
  cases hmid : d.nesting.enterAll elements with
  | error err => rw [hmid] at hnext; cases hnext
  | ok mid =>
    rw [hmid] at hnext
    obtain ⟨tables, hfirst⟩ := h hs hahead hmid
    obtain ⟨tables', hsecond⟩ := h' (d := { d.past bytes.length with nesting := mid, tables })
      ⟨past_steady hs.steady _, (hs.nesting.enterAll hmid).1⟩ (ahead_past hahead) hnext
    refine ⟨tables', ?_⟩
    rw [bind_of_ok hfirst, hsecond, past_update, past_past, List.length_append]

/-- Where the session is afterwards. -/
theorem exists_run {d : Decoder} {rest : List UInt8} {next : Nesting}
    (h : Yields reading elements bytes a) (hs : d.Sound) (hahead : d.ahead = bytes ++ rest)
    (hnext : d.nesting.enterAll elements = .ok next) :
    ∃ d', reading d = .ok a d' ∧ d'.Sound ∧ d'.ahead = rest ∧ d'.nesting = next := by
  obtain ⟨tables, hok⟩ := h hs hahead hnext
  exact ⟨_, hok, ⟨past_steady hs.steady _, (hs.nesting.enterAll hnext).1⟩, ahead_past hahead, rfl⟩

theorem exists_passed {d : Decoder} {rest : List UInt8} {next : Nesting}
    (h : Yields reading elements bytes a) (hstreams : Streams elements bytes) (hs : d.Sound)
    (hahead : d.ahead = bytes ++ rest) (hnext : d.nesting.enterAll elements = .ok next) :
    ∃ d', reading d = .ok a d' ∧ d.Passed elements bytes d' := by
  obtain ⟨tables, hok⟩ := h hs hahead hnext
  exact ⟨_, hok, (passed_past hs hstreams hahead hnext).tables tables⟩

/-- What only makes something of the result reads nothing more. -/
theorem follow (h : Yields reading elements bytes a) (hk : k a = Pure.pure b) :
    Yields (reading >>= k) elements bytes b := by
  have hall := h.bind (hk ▸ Yields.pure b)
  rwa [List.append_nil, List.append_nil] at hall

theorem map {f : α → β} (h : Yields reading elements bytes a) :
    Yields (reading >>= fun a => Pure.pure (f a)) elements bytes (f a) :=
  h.follow rfl

/-- What only looks something up in the tables reads the same afterwards. -/
theorem fieldsOf {name : String} {names : List String} {k : Option Fields → Decoding α}
    (h : ∀ table, Yields (k table) elements bytes a) :
    Yields (Decoder.fieldsOf name names >>= k) elements bytes a := by
  intro d rest next hs hahead hnext
  obtain ⟨tables, hlook, -⟩ := fieldsOf_eq name names d
  obtain ⟨tables', hok⟩ := h _ (d := { d with tables }) ⟨hs.steady, hs.nesting⟩ hahead hnext
  refine ⟨tables', ?_⟩
  rw [bind_of_ok hlook, hok, ← past_update, ← past_update]

/-- A look at the tag that comes next leaves it to be read. -/
theorem peekMarker {k : Wire.Marker → Decoding α} {tag : UInt8} {tail : List UInt8}
    (hbytes : bytes = tag :: tail) (h : Yields (k (.ofByte tag)) elements bytes a) :
    Yields (Decoder.peekMarker >>= k) elements bytes a := by
  intro d rest next hs hahead hnext
  have htag : d.ahead = tag :: (tail ++ rest) := by rw [hahead, hbytes, List.cons_append]
  have hpeek : Decoder.peekMarker d = .ok (.ofByte tag) (d.looked tag) :=
    bind_of_ok ((peekTag_eq_ok_iff hs.steady).mpr ⟨⟨_, htag⟩, rfl⟩)
  have hlooked : (d.looked tag).ahead = bytes ++ rest := by
    rw [ahead_looked htag, hbytes, List.cons_append]
  obtain ⟨tables, hok⟩ := h ((passed_looked hs htag).sound hs) hlooked hnext
  refine ⟨tables, ?_⟩
  rw [bind_of_ok hpeek, hok, past_looked (by simp [hbytes])]

theorem nextElement {e : Element} {header : List UInt8} (h : IsHeader e header) :
    Yields Decoder.nextElement [e] header e := by
  intro d rest next hs hahead hnext
  have henter : d.nesting.enter e = .ok next := by
    rw [Nesting.enterAll_cons] at hnext
    cases henter : d.nesting.enter e with
    | error err => rw [henter] at hnext; cases hnext
    | ok mid => rw [henter] at hnext; cases hnext; rfl
  exact ⟨_, (nextElement_eq_ok_iff hs.steady).mpr ⟨header, rest, next, h, hahead, henter, rfl⟩⟩

/-- A reading that begins with an element goes on with what it makes of that element. -/
theorem element {k : Element → Decoding β} {e : Element} {header : List UInt8}
    (h : IsHeader e header) (h' : Yields (k e) elements bytes b) :
    Yields (Decoder.nextElement >>= k) (e :: elements) (header ++ bytes) b :=
  (nextElement h).bind h'

theorem scalar {k : Element → Decoding β} {e : Element} {header : List UInt8}
    (h : IsHeader e header) (h' : k e = Pure.pure b) :
    Yields (Decoder.nextElement >>= k) [e] header b := by
  have hall := element (k := k) h (h' ▸ Yields.pure b)
  rwa [List.append_nil] at hall

/-- The payload of a raw whose header has been read. -/
private theorem payload_run {data rest : List UInt8} {d : Decoder} (hs : d.source.Steady)
    (hp : d.peeked = none) (hahead : d.ahead = data ++ rest) :
    Decoder.payload data.length d = .ok data (d.past data.length) :=
  (payload_eq_ok_iff hs hp).mpr ⟨rest, hahead, rfl, rfl⟩

/-- A raw is read by whatever goes on as the reading of its payload does. -/
theorem raw {k : Element → Decoding β} {data header : List UInt8}
    (h : IsHeader (.raw data.length) header)
    (hk : ∀ {d d' : Decoder}, Decoder.payload data.length d = .ok data d' →
      k (.raw data.length) d = .ok b d') :
    Yields (Decoder.nextElement >>= k) [.raw data.length] (header ++ data) b := by
  intro d rest after hs hahead hafter
  rw [List.append_assoc] at hahead
  obtain ⟨tables, hfirst⟩ := nextElement h hs hahead hafter
  refine ⟨tables, ?_⟩
  have hpayload := payload_run (d := { d.past header.length with nesting := after, tables })
    (past_steady hs.steady _) (past_peeked h.length_pos d) (ahead_past hahead)
  rw [bind_of_ok hfirst, hk hpayload, past_update, past_past, List.length_append]

end Decoding.Yields

end MessagePack
