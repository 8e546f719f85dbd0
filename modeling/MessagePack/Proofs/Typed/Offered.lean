import MessagePack.Proofs.Typed.InMemory
import MessagePack.Proofs.Typed.Layout
import MessagePack.Proofs.Value.Reading

namespace MessagePack

open Decoding
open Wire (Element Forest)

/-- Nothing more of what is offered has to be read from the session: it is a scalar, or the bytes of
a raw one by one. -/
def Offer.FromLeaf : Offer → Prop
  | seq (.bytes ..) => True
  | o => o.IsScalar

theorem Offer.FromLeaf.inMemory {o : Offer} (h : o.FromLeaf) : o.InMemory := by
  cases o with
  | seq items => cases items <;> trivial
  | present _ | newtype _ | map _ => exact h.elim
  | _ => trivial

/-- Only a map, or the items of an array, can answer the request. -/
def Request.forFields : Request → Bool
  | map | struct .. => true
  | _ => false

namespace Decoder

/-- What the session offers on a request without a codec, and how far it has gone for that. -/
inductive Offered (request : Request) (d : Decoder) : Offer → Decoder → Prop where
  | leaf {o : Offer} {d' : Decoder} {f : Forest} {bytes : List UInt8}
      (request_eq : request.forFields = false) (offer : o.FromLeaf) (layout : Layout.leaf f)
      (passed : d.Passed f.elements bytes d') (peeked : d'.peeked = none) :
      Offered request d o d'
  | items {n : Nat} {d' : Decoder} {bytes : List UInt8} (passed : d.Passed [.array n] bytes d')
      (peeked : d'.peeked = none) : Offered request d (.seq (.wire n n)) d'
  | entries {n : Nat} {fields : Option Fields} {d' : Decoder} {bytes : List UInt8}
      (passed : d.Passed [.map n] bytes d') (peeked : d'.peeked = none)
      (named : fields.isSome → ∃ name names, request = .struct name names) :
      Offered request d (.map (.wire n n fields)) d'
  | present {d' : Decoder} (request_eq : request = .option) (passed : d.Passed [] [] d') :
      Offered request d (.present .wire) d'
  | newtype (name : String) (request_eq : request = .newtype name) :
      Offered request d (.newtype .wire) d

variable {request : Request} {d mid d' : Decoder} {e : Element} {o : Offer}

private theorem offered_scalar (hr : request.forFields = false) (hs : d.Sound)
    (hnext : nextElement d = .ok e mid) (he : e.payload = 0) (hc : e.isContainer = false)
    {a : Offer}
    (h : (pure a : Decoding Offer) mid = .ok o d') (ha : a.FromLeaf) :
    Offered request d o d' := by
  obtain ⟨rfl, rfl⟩ := pure_eq_ok_iff.mp h
  obtain ⟨header, -, hpassed, hp⟩ := passed_nextElement hs hnext he
  exact .leaf (f := [.node e []]) hr ha ⟨e, hc, rfl⟩ hpassed hp

private theorem offered_raw {len : Nat} (hr : request.forFields = false) (hs : d.Sound)
    (hnext : nextElement d = .ok (.raw len) mid)
    {more : List UInt8 → Decoding Offer} (h : (payload len >>= more) mid = .ok o d')
    (hmore : ∀ bytes, Keeps Offer.FromLeaf (more bytes)) : Offered request d o d' := by
  obtain ⟨data, last, hdata, hrest⟩ := bind_eq_ok_iff.mp h
  obtain ⟨rfl, ho⟩ := hmore data hrest
  obtain ⟨header, -, hpassed, hp⟩ := passed_payload hs hnext hdata
  exact .leaf (f := [.node (.raw data.length) []]) hr ho ⟨_, rfl, rfl⟩ hpassed hp

private theorem offered_items {n : Nat} (hs : d.Sound) (hnext : nextElement d = .ok (.array n) mid)
    (h : (pure (offerItems n) : Decoding Offer) mid = .ok o d') : Offered request d o d' := by
  obtain ⟨rfl, rfl⟩ := pure_eq_ok_iff.mp h
  obtain ⟨header, -, hpassed, hp⟩ := passed_nextElement hs hnext rfl
  exact .items hpassed hp

private theorem offered_entries {n : Nat} (hs : d.Sound) (hnext : nextElement d = .ok (.map n) mid)
    (h : (pure (offerEntries n none) : Decoding Offer) mid = .ok o d') :
    Offered request d o d' := by
  obtain ⟨rfl, rfl⟩ := pure_eq_ok_iff.mp h
  obtain ⟨header, -, hpassed, hp⟩ := passed_nextElement hs hnext rfl
  exact .entries hpassed hp nofun

private theorem offerRaw_keeps (bytes : List UInt8) :
    Keeps Offer.FromLeaf (match Text.ofUtf8? bytes with
      | some s => pure (.text s)
      | none => pure (.octets bytes) : Decoding Offer) := by
  split <;> exact .pure trivial

private theorem offerText_keeps (bytes : List UInt8) :
    Keeps Offer.FromLeaf (match Text.ofUtf8? bytes with
      | some s => pure (.text s)
      | none => throw (.malformed (.notUtf8 ((Text.utf8Fault? bytes).getD ⟨0, none⟩))) :
        Decoding Offer) := by
  split
  · exact .pure trivial
  · exact .throw

/-- After a look at the tag of nil comes nil. -/
private theorem element_of_nil {tag : UInt8} {rest : List UInt8} (hs : d.Sound)
    (hahead : d.ahead = tag :: rest) (hnil : Wire.Marker.ofByte tag = .nil)
    (h : nextElement (d.looked tag) = .ok e mid) : e = .nil := by
  obtain ⟨header, after, nesting, hheader, hafter, -, -⟩ :=
    (nextElement_eq_ok_iff (d := d.looked tag) hs.steady).mp h
  rw [ahead_looked hahead] at hafter
  obtain ⟨tag', field, rfl⟩ := hheader.exists_cons
  obtain ⟨rfl, -⟩ := List.cons.inj hafter
  obtain ⟨-, hfield⟩ := Wire.isHeader_cons_iff.mp hheader
  rw [hnil] at hfield
  exact (Option.some.inj hfield).symm

theorem offered_of_offerAny (hr : request.forFields = false) (hs : d.Sound)
    (h : offerAny d = .ok o d') :
    Offered request d o d' := by
  obtain ⟨e, mid, hnext, hrest⟩ := bind_eq_ok_iff.mp h
  cases e with
  | raw len => exact offered_raw hr hs hnext hrest offerRaw_keeps
  | array len => exact offered_items hs hnext hrest
  | map len => exact offered_entries hs hnext hrest
  | _ => exact offered_scalar hr hs hnext rfl rfl hrest trivial

theorem offered_of_offerSeq (hr : request.forFields = false) (hs : d.Sound)
    (h : offerSeq d = .ok o d') :
    Offered request d o d' := by
  obtain ⟨e, mid, hnext, hrest⟩ := bind_eq_ok_iff.mp h
  cases e with
  | raw len => exact offered_raw hr hs hnext hrest fun _ => .pure trivial
  | array len => exact offered_items hs hnext hrest
  | _ => exact absurd hrest throw_ne_ok

/-- Whatever the session offers it offers in one of these ways. -/
theorem offered_of_offer (hs : d.Sound) (h : offer request d = .ok o d') :
    Offered request d o d' := by
  cases request with
  | any | ignored => exact offered_of_offerAny rfl hs h
  | seq | tuple | tupleStruct _ => exact offered_of_offerSeq rfl hs h
  | bool | f32 | f64 | unit | unitStruct _ =>
    obtain ⟨e, mid, hnext, hrest⟩ := bind_eq_ok_iff.mp h
    cases e <;> first
      | exact offered_scalar rfl hs hnext rfl rfl hrest trivial
      | exact absurd hrest throw_ne_ok
  | int kind =>
    unfold offer at h
    dsimp only at h
    split at h
    · obtain ⟨_, _, hthrow, -⟩ := bind_eq_ok_iff.mp h
      exact absurd hthrow throw_ne_ok
    · obtain ⟨e, mid, hnext, hrest⟩ := bind_eq_ok_iff.mp h
      cases e with
      | uint n | int n => exact offered_scalar rfl hs hnext rfl rfl hrest trivial
      | _ => exact absurd hrest throw_ne_ok
  | text =>
    obtain ⟨e, mid, hnext, hrest⟩ := bind_eq_ok_iff.mp h
    cases e with
    | raw len => exact offered_raw rfl hs hnext hrest offerText_keeps
    | _ => exact absurd hrest throw_ne_ok
  | bytes =>
    obtain ⟨e, mid, hnext, hrest⟩ := bind_eq_ok_iff.mp h
    cases e with
    | raw len => exact offered_raw rfl hs hnext hrest fun _ => .pure trivial
    | array len => exact offered_items hs hnext hrest
    | _ => exact absurd hrest throw_ne_ok
  | identifier =>
    obtain ⟨e, mid, hnext, hrest⟩ := bind_eq_ok_iff.mp h
    cases e with
    | raw len => exact offered_raw rfl hs hnext hrest offerRaw_keeps
    | uint n => exact offered_scalar rfl hs hnext rfl rfl hrest trivial
    | _ => exact absurd hrest throw_ne_ok
  | map =>
    obtain ⟨e, mid, hnext, hrest⟩ := bind_eq_ok_iff.mp h
    cases e with
    | map len => exact offered_entries hs hnext hrest
    | _ => exact absurd hrest throw_ne_ok
  | newtype name =>
    obtain ⟨rfl, rfl⟩ := pure_eq_ok_iff.mp h
    exact .newtype name rfl
  | struct name names =>
    obtain ⟨e, mid, hnext, hrest⟩ := bind_eq_ok_iff.mp h
    cases e with
    | array len => exact offered_items hs hnext hrest
    | map len =>
      obtain ⟨fields, last, hfields, hpure⟩ := bind_eq_ok_iff.mp hrest
      obtain ⟨rfl, rfl⟩ := pure_eq_ok_iff.mp hpure
      obtain ⟨header, -, hpassed, hp⟩ := passed_nextElement hs hnext rfl
      obtain ⟨tables, hlook, -⟩ := fieldsOf_eq name names _
      obtain ⟨rfl, rfl⟩ := EStateM.Result.ok.inj (hlook.symm.trans hfields)
      exact .entries (hpassed.tables tables) hp fun _ => ⟨name, names, rfl⟩
    | _ => exact absurd hrest throw_ne_ok
  | option =>
    obtain ⟨marker, mid, hmarker, hrest⟩ := bind_eq_ok_iff.mp h
    obtain ⟨tag, last, hpeek, hpure⟩ := bind_eq_ok_iff.mp hmarker
    obtain ⟨rfl, rfl⟩ := pure_eq_ok_iff.mp hpure
    have hlooked := passed_peekTag hs hpeek
    obtain ⟨⟨tail, hahead⟩, rfl⟩ := (peekTag_eq_ok_iff hs.steady).mp hpeek
    generalize hmarker : Wire.Marker.ofByte tag = marker at hrest
    cases marker with
    | nil =>
      obtain ⟨e, mid, hnext, hrest⟩ := bind_eq_ok_iff.mp hrest
      obtain rfl := element_of_nil hs hahead hmarker hnext
      obtain ⟨rfl, rfl⟩ := pure_eq_ok_iff.mp hrest
      obtain ⟨header, -, hpassed, hp⟩ := passed_nextElement (hlooked.sound hs) hnext rfl
      exact .leaf (f := [.node .nil []]) rfl trivial ⟨.nil, rfl, rfl⟩ (hlooked.trans hpassed) hp
    | _ =>
      obtain ⟨rfl, rfl⟩ := pure_eq_ok_iff.mp hrest
      exact .present rfl hlooked

end Decoder

end MessagePack
