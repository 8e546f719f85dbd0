import MessagePack.Input.Content
import MessagePack.Proofs.Fields.Position
import MessagePack.Proofs.Readers.Entries
import MessagePack.Proofs.Readers.Session

namespace MessagePack

open Decoding Decoder
open Wire (Element)

variable {α : Type}

/-- A structure is asked for, by the names of its fields. -/
def Request.isStruct : Request → Bool
  | struct .. => true
  | _ => false

/-- A request without a codec for its type is put to the session itself. -/
theorem Input.ask_wire {registry : Registry} {request : Request}
    (h : request.typeName?.bind registry.get? = none) :
    ask registry request .wire = Decoder.offer request := by
  simp only [ask, h]

namespace Entries

/-- The bytes of a structure's key whose length is known. -/
def keyBytes (fields : Fields) (len : Nat) : Decoding (List UInt8) :=
  if len ≤ min fields.longest shortKey then Decoder.exactly .payload len else Decoder.payload len

/-- What the bytes of a raw stand for as a key. -/
def rawKey (bytes : List UInt8) : Input :=
  match Text.ofUtf8? bytes with
  | some s => .token (.text s)
  | none => .token (.octets bytes)

/-- The key of an entry that starts with a raw, read like any other raw. -/
def plainKey : Decoding Input :=
  nextElement >>= fun e => match e with
    | .raw len => do return rawKey (← payload len)
    | e => throw (.typeMismatch "Raw" e.category)

/-- The table only decides how the bytes of a key are read, not what they stand for. -/
theorem fieldKey_eq (fields : Fields) :
    fieldKey fields = nextElement >>= fun e => match e with
      | .raw len => do return rawKey (← keyBytes fields len)
      | e => throw (.typeMismatch "Raw" e.category) := by
  rw [fieldKey]
  congr 1
  funext e
  cases e with
  | raw len =>
    have hkey (key : List UInt8) : (match fields.resolve? key with
        | some name => pure (.token (.text name))
        | none => match Text.ofUtf8? key with
          | some s => pure (.token (.text s))
          | none => pure (.token (.octets key)) : Decoding Input) = pure (rawKey key) := by
      unfold rawKey
      split
      · rename_i name hname
        rw [← Fields.utf8_of_resolve? hname, Text.ofUtf8?_utf8]
      · cases Text.ofUtf8? key <;> rfl
    dsimp only
    unfold keyBytes
    split <;> exact congrArg (Bind.bind _) (funext hkey)
  | _ => rfl

/-- However the bytes of a key are read, they are the payload of a raw. -/
theorem keyBytes_eq_ok_iff {fields : Fields} {len : Nat} {d d' : Decoder} {data : List UInt8} :
    keyBytes fields len d = .ok data d' ↔ payload len d = .ok data d' := by
  unfold keyBytes
  split
  · exact (payload_eq_ok_iff_exactly .payload).symm
  · exact Iff.rfl

end Entries

/-- From a session, the reader makes of a raw what it makes of the text or the bytes that the raw
stands for. -/
def Reader.ReadsRaws (one : Reader α) : Prop :=
  ∃ next : Element → Decoding α, one .wire = nextElement >>= next ∧
    ∀ len, next (.raw len) = payload len >>= fun bytes => one (Entries.rawKey bytes)

theorem Input.fold_readsRaws (f : Fold α) : Reader.ReadsRaws (Input.fold f) := by
  refine ⟨fun e => limit >>= fun levels => foldInside f levels e, ?_, fun len => ?_⟩
  · rw [← nextElement_limit_bind]
    change Decoder.fold f = _
    simp only [fold_eq, foldLevels_succ]
  · change (payload len >>= fun bytes => pure (f.raw bytes)) = _
    congr 1
    funext bytes
    unfold Fold.raw Entries.rawKey
    cases Text.ofUtf8? bytes <;> rfl

namespace Choices

variable (known : Choices α)

/-- What a key can come to stand for. -/
def Offers (known : Choices α) (a : α) : Prop :=
  (∃ name, (name, a) ∈ known.choices) ∨ known.otherwise = some a

variable {known} in
theorem mem_of_byText? {s : String} {a : α} (h : known.byText? s = some a) :
    ∃ name, (name, a) ∈ known.choices := by
  obtain ⟨before, after, heq, -⟩ := List.lookup_eq_some_iff.mp h
  exact ⟨s, by rw [heq]; simp⟩

variable {known} in
theorem mem_of_byBytes? {bytes : List UInt8} {a : α} (h : known.byBytes? bytes = some a) :
    ∃ name, (name, a) ∈ known.choices := by
  obtain ⟨⟨name, b⟩, hfind, rfl⟩ := Option.map_eq_some_iff.mp h
  exact ⟨name, List.mem_of_find?_eq_some hfind⟩

variable {known} in
theorem mem_of_byPosition? {i : Nat} {a : α} (h : known.byPosition? i = some a) :
    ∃ name, (name, a) ∈ known.choices := by
  obtain ⟨⟨name, b⟩, hget, rfl⟩ := Option.map_eq_some_iff.mp h
  exact ⟨name, List.mem_of_getElem? hget⟩

theorem settle_cases {choice : Option α} (rejection : Rejection)
    (h : ∀ a, choice = some a → ∃ name, (name, a) ∈ known.choices) :
    (∃ a, known.Offers a ∧ known.settle choice rejection = pure a) ∨
      ∃ e : Error, e.isReadFailure = false ∧ known.settle choice rejection = throw e := by
  unfold settle
  split
  · rename_i a heq
    refine .inl ⟨a, ?_, rfl⟩
    rcases Option.or_eq_some_iff.mp heq with hchoice | ⟨-, hotherwise⟩
    · exact .inl (h a hchoice)
    · exact .inr hotherwise
  · exact .inr ⟨_, rfl, rfl⟩

/-- What the answer to a key's request is taken for. -/
def take (known : Choices α) : Offer → Decoding α
  | .text s => known.settle (known.byText? s) (known.unknown s)
  | .octets bytes => known.settle (known.byBytes? bytes) (known.unknown (Text.mend bytes))
  | .unsigned n =>
    known.settle (known.byPosition? n.toNat) (.invalidValue (.integer n.toNat)
      s!"{known.kind} index 0 <= i < {known.choices.length}")
  | offer => offer.refuse (known.kind ++ " identifier")

theorem read_eq (input : Input) :
    known.read input = input.ask .empty .identifier >>= known.take := rfl

/-- A key stands for one of the choices, or it is turned down. -/
theorem take_cases (o : Offer) :
    (o.IsScalar ∧ ∃ a, known.Offers a ∧ known.take o = pure a) ∨
      ∃ e : Error, e.isReadFailure = false ∧ known.take o = throw e := by
  cases o with
  | text s => exact (known.settle_cases _ fun _ => mem_of_byText?).imp_left fun h => ⟨trivial, h⟩
  | octets bytes =>
    exact (known.settle_cases _ fun _ => mem_of_byBytes?).imp_left fun h => ⟨trivial, h⟩
  | unsigned n =>
    exact (known.settle_cases _ fun _ => mem_of_byPosition?).imp_left fun h => ⟨trivial, h⟩
  | _ => exact .inr ⟨_, rfl, rfl⟩

theorem take_immediate (o : Offer) : (known.take o).Immediate :=
  (known.take_cases o).imp_left fun ⟨_, a, _, h⟩ => ⟨a, h⟩

variable {known} in
theorem offers_of_read {input : Input} {a : α} {d d' : Decoder}
    (h : known.read input d = .ok a d') : known.Offers a := by
  rw [read_eq] at h
  obtain ⟨o, mid, -, htake⟩ := bind_eq_ok_iff.mp h
  rcases known.take_cases o with ⟨-, b, hoffers, hpure⟩ | ⟨e, -, hthrow⟩
  · rw [hpure] at htake
    obtain ⟨rfl, -⟩ := pure_eq_ok_iff.mp htake
    exact hoffers
  · rw [hthrow] at htake
    exact absurd htake throw_ne_ok

/-- What the wire offers for an identifier that is this element. -/
def identifierAt : Element → Decoding Offer
  | .raw len => offerRaw len
  | .uint n => pure (.unsigned n)
  | e => throw (.typeMismatch "identifier" e.category)

theorem offer_identifier : Decoder.offer .identifier = nextElement >>= identifierAt := by
  unfold Decoder.offer identifierAt
  rfl

theorem read_readsRaws : Reader.ReadsRaws known.read := by
  refine ⟨fun e => identifierAt e >>= known.take, ?_, fun len => ?_⟩
  · have hwire : known.read .wire = Decoder.offer .identifier >>= known.take := by
      rw [read_eq, Input.ask_wire rfl]
    exact hwire.trans (by rw [offer_identifier, bind_assoc])
  · change offerRaw len >>= known.take = _
    rw [offerRaw, bind_assoc]
    congr 1
    funext bytes
    rw [read_eq]
    unfold Entries.rawKey
    cases Text.ofUtf8? bytes <;> rfl

end Choices

theorem ContentReader.mem_of_offers {variants : List (String × ContentReader)}
    {read : ContentReader} (h : (keys variants).Offers read) :
    ∃ variant ∈ variants, variant.2 = read := by
  rcases h with ⟨name, hmem⟩ | hnone
  · exact ⟨(name, read), hmem, rfl⟩
  · cases hnone

theorem FieldReader.mem_of_offers {fields : List FieldReader} {strict : Bool} {slot : Nat}
    {field : FieldReader} (h : (keys fields strict).Offers (some (slot, field))) :
    field ∈ fields := by
  rcases h with ⟨name, hmem⟩ | hnone
  · obtain ⟨⟨field', slot'⟩, hzip, heq⟩ := List.mem_map.mp hmem
    cases heq
    exact List.fst_mem_of_mem_zipIdx hzip
  · cases strict <;> cases hnone

end MessagePack
