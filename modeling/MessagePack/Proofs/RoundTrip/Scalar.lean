import MessagePack.Input.Scalar
import MessagePack.Proofs.RoundTrip.Agree
import MessagePack.Proofs.RoundTrip.Fits
import MessagePack.Proofs.Typed.Destinations
import MessagePack.Proofs.Value.Reading
import MessagePack.Shape.Read

namespace MessagePack

open Decoding Decoder
open Encoding (Writes)
open Wire (Element Forest Streams maxLength)

/-- What is written for the data is read back as it is, from one element or more, and nests to the
height. -/
def Data.AgreesAt (height : Nat) (config : Config) (registry : Registry) (d : Data)
    (reading : Decoding Item) : Prop :=
  ∃ f, Agree (d.encode config registry) reading f d.item ∧ f ≠ [] ∧ f.height = height

/-- What is written for the data is read back as it is, from one element or more and with the
containers that are counted. -/
def Data.Agrees (config : Config) (registry : Registry) (d : Data) (reading : Decoding Item) :
    Prop :=
  ∃ f, Agree (d.encode config registry) reading f d.item ∧ f ≠ [] ∧ f.height = d.depth registry

variable {config : Config} {registry : Registry}

theorem Data.AgreesAt.agrees {height : Nat} {d : Data} {reading : Decoding Item}
    (h : d.AgreesAt height config registry reading) (hdepth : d.depth registry = height) :
    d.Agrees config registry reading := by
  rw [Data.Agrees, hdepth]
  exact h

/-- A scalar is one element that nests nothing. -/
theorem Data.Agrees.of_leaf {d : Data} {e : Element} {reading : Decoding Item}
    (h : Agree (d.encode config registry) reading [.node e []] d.item)
    (he : e.isContainer = false) (hdepth : d.depth registry = 0) :
    d.Agrees config registry reading := by
  refine ⟨_, h, by simp, ?_⟩
  simp [Forest.height, Wire.ElementTree.height, he, hdepth]

/-- A container nests what is in it one deeper. -/
theorem Data.AgreesAt.of_container {d : Data} {f : Forest} {k : Element → Decoding Item}
    {height : Nat} (e : Element) (encoding : Encoding Unit) (he : e.isContainer = true)
    (hsize : e.length ≤ maxLength) (hlen : e.items ≤ f.length) (h : Agree encoding (k e) f d.item)
    (hwrites : ∀ header body, Writes (Encoder.element config e) header → Writes encoding body →
      Writes (d.encode config registry) (header ++ body)) (hheight : f.height = height) :
    d.AgreesAt (height + 1) config registry (nextElement >>= k) := by
  refine ⟨[.node e f], h.container_of_writes he hsize hlen hwrites, by simp, ?_⟩
  simp [Forest.height, Wire.ElementTree.height, he, hheight]

theorem IntKind.contains_iff {kind : IntKind} {n : Int} : kind.contains n = true ↔
    if kind.isSigned then -2 ^ (kind.bits - 1) ≤ n ∧ n < 2 ^ (kind.bits - 1)
      else 0 ≤ n ∧ n < 2 ^ kind.bits := by
  have hshift (m : Nat) : ((1 <<< m : Nat) : Int) = 2 ^ m := by
    rw [Nat.one_shiftLeft]
    exact Int.natCast_pow 2 m
  unfold IntKind.contains
  split_ifs
  · simp [hshift, and_comm]
  · simp [hshift]

/-- A number of a kind that is no wider than 64 bits fits them, as the kind does. -/
theorem IntKind.int64_range {kind : IntKind} {n : Int} (hnarrow : kind.isWide = false)
    (hrange : kind.contains n = true) : if kind.isSigned then
      -9223372036854775808 ≤ n ∧ n < 9223372036854775808
      else 0 ≤ n ∧ n < 18446744073709551616 := by
  rw [IntKind.contains_iff] at hrange
  cases kind with
  | i128 | u128 => cases hnarrow
  | i8 | i16 | i32 | i64 =>
    simp only [IntKind.bits, IntKind.isSigned, if_true] at hrange ⊢
    omega
  | _ =>
    simp only [IntKind.bits, IntKind.isSigned, Bool.false_eq_true, if_false] at hrange ⊢
    omega

theorem IntKind.contains_i64 (v : Int64) : IntKind.i64.contains v.toInt = true := by
  rw [IntKind.contains_iff]
  exact ⟨v.le_toInt, v.toInt_lt⟩

/-- One character is at most four bytes of text. -/
theorem Char.length_utf8_le (c : Char) : (Text.utf8 c.toString).length ≤ maxLength := by
  have hsize := c.utf8Size_le_four
  have hbytes : c.toString.utf8ByteSize = c.utf8Size := by simp
  change c.toString.utf8ByteSize ≤ maxLength
  rw [hbytes]
  exact Nat.le_trans hsize (by decide)

/-- What spells a value is read as that value, which is one element with everything inside it. -/
theorem Value.SpelledBy.exists_agree {v : Value} {bytes : List UInt8} (h : v.SpelledBy bytes)
    {encoding : Encoding Unit} (hwrites : Writes encoding bytes) :
    ∃ t, Agree encoding Decoder.value [t] v ∧ t.height = v.height := by
  obtain ⟨t, hwhole, hheight, hstreams, hyields⟩ := h.yields_fold Fold.signBlind_value
  rw [Value.fold_value] at hyields
  refine ⟨t, ⟨⟨hwhole.lavish, trivial⟩, bytes, ?_, hwrites, ?_⟩, hheight⟩
  · simpa using hstreams
  · rw [Forest.elements_cons, Forest.elements_nil, List.append_nil]
    exact hyields

namespace Decoder

/-- A text is read as it is. -/
theorem string_agree {s : String} (h : (Text.utf8 s).length ≤ maxLength) :
    Agree (Encoder.text config s) string [.node (.raw (Text.utf8 s).length) []] s := by
  rw [string, bytes, bind_assoc]
  apply Agree.raw h
  intro d d' hpayload
  have htext : decodeText (Text.utf8 s) = pure s := by simp [decodeText]
  exact (bind_of_ok hpayload).trans (by rw [htext]; rfl)

end Decoder

namespace Shape

theorem bool_agrees (b : Bool) :
    (Data.bool b).Agrees config registry (Shape.bool.read registry .wire) := by
  have hoffer : Agree (Encoder.bool config b) (Decoder.offer .bool) [.node (.bool b) []]
      (.bool b) := .scalar rfl rfl
  exact .of_leaf (hoffer.follow rfl) rfl rfl

theorem f32_agrees (bits : UInt32) :
    (Data.f32 bits).Agrees config registry (Shape.f32.read registry .wire) := by
  have hoffer : Agree (Encoder.f32 config bits) (Decoder.offer .f32) [.node (.f32 bits) []]
      (.f32 bits) := .scalar rfl rfl
  exact .of_leaf (hoffer.follow rfl) rfl rfl

theorem f64_agrees (bits : UInt64) :
    (Data.f64 bits).Agrees config registry (Shape.f64.read registry .wire) := by
  have hoffer : Agree (Encoder.f64 config bits) (Decoder.offer .f64) [.node (.f64 bits) []]
      (.f64 bits) := .scalar rfl rfl
  exact .of_leaf (hoffer.follow rfl) rfl rfl

theorem nil_agree : Agree (Encoder.nil config) (Decoder.offer .unit) [.node .nil []] .unit :=
  .scalar rfl rfl

theorem unit_agrees : Data.unit.Agrees config registry (Shape.unit.read registry .wire) :=
  .of_leaf (nil_agree.follow rfl) rfl rfl

theorem unitStruct_agrees {name : String} (hfree : registry.get? name = none) :
    (Data.unitStruct name).Agrees config registry
      ((Shape.unitStruct name).read registry .wire) := by
  have hwrite : (Data.unitStruct name).encode config registry = Encoder.nil config := by
    simp only [Data.encode, hfree]
  have hask : Input.ask registry (.unitStruct name) .wire = Decoder.offer .unit := by
    rw [Input.ask_wire (by simpa [Request.typeName?] using hfree)]
    rfl
  have hread : Agree (Encoder.nil config) ((Shape.unitStruct name).read registry .wire)
      [.node .nil []] (.unitStruct name) := by
    rw [Shape.read, hask]
    exact nil_agree.follow rfl
  exact .of_leaf (hwrite ▸ hread) rfl rfl

/-- A text is offered as it is. -/
theorem offer_text_agree {s : String} (h : (Text.utf8 s).length ≤ maxLength) :
    Agree (Encoder.text config s) (Decoder.offer .text)
      [.node (.raw (Text.utf8 s).length) []] (.text s) := by
  refine Agree.raw h fun hpayload => ?_
  dsimp only
  rw [Decoder.offerText, bind_of_ok hpayload, Text.ofUtf8?_utf8]
  rfl

theorem text_agrees {s : String} (h : (Text.utf8 s).length ≤ maxLength) :
    (Data.text s).Agrees config registry (Shape.text.read registry .wire) := by
  have hread : Agree (Encoder.text config s) (Shape.text.read registry .wire)
      [.node (.raw (Text.utf8 s).length) []] (.text s) := (offer_text_agree h).follow rfl
  exact .of_leaf hread rfl rfl

theorem char_agrees (c : Char) :
    (Data.char c).Agrees config registry (Shape.char.read registry .wire) := by
  have hlen := Char.length_utf8_le c
  have hread : Agree (Encoder.text config c.toString) (Shape.char.read registry .wire)
      [.node (.raw (Text.utf8 c.toString).length) []] (.char c) := by
    apply (offer_text_agree hlen).follow
    simp [Offer.takeChar]
  exact .of_leaf hread rfl rfl

theorem bytes_agrees {data : List UInt8} (h : data.length ≤ maxLength) :
    (Data.bytes data).Agrees config registry (Shape.bytes.read registry .wire) := by
  have hoffer : Agree (Encoder.bytes config data) (Decoder.offer .bytes)
      [.node (.raw data.length) []] (.octets data) := Agree.raw h bind_of_ok
  have hread : Agree (Encoder.bytes config data) (Shape.bytes.read registry .wire)
      [.node (.raw data.length) []] (.bytes data) := hoffer.follow rfl
  exact .of_leaf hread rfl rfl

/-- An integer is taken from the element it is written as. -/
private theorem int_agree {kind : IntKind} {n : Int} {e : Element} (hnarrow : kind.isWide = false)
    (hrange : kind.contains n = true) (hlen : e.length = 0)
    (he : (∃ u : UInt64, e.announced config.intPolicy = .uint u ∧ (u.toNat : Int) = n) ∨
      ∃ v : Int64, e.announced config.intPolicy = .int v ∧ v.toInt = n) :
    Agree (Encoder.element config e) (kind.read .wire)
      [.node (e.announced config.intPolicy) []] n := by
  have hcheck : kind.check n = pure n := if_pos hrange
  have hread : kind.read .wire = Decoder.offer (.int kind) >>= kind.take := rfl
  rw [hread, Decoder.offer, if_neg (by simp [hnarrow])]
  rcases he with ⟨u, he, rfl⟩ | ⟨v, he, rfl⟩
  · refine Agree.follow (a := Offer.unsigned u) (.scalar hlen ?_) hcheck
    rw [he]
  · refine Agree.follow (a := Offer.signed v) (.scalar hlen ?_) hcheck
    rw [he]

/-- A signed integer may come back without its sign, which is none of the reader's concern. -/
theorem signed_agree {kind : IntKind} {v : Int64} (hnarrow : kind.isWide = false)
    (hrange : kind.contains v.toInt = true) :
    Agree (Encoder.int config v) (kind.read .wire)
      [.node ((Element.int v).announced config.intPolicy) []] v.toInt := by
  apply int_agree hnarrow hrange rfl
  rcases Wire.announced_int config.intPolicy v with h | ⟨u, h, hu⟩
  · exact .inr ⟨v, h, rfl⟩
  · exact .inl ⟨u, h, hu⟩

theorem int_agrees {kind : IntKind} {n : Int} (hnarrow : kind.isWide = false)
    (hrange : kind.contains n = true) :
    (Data.int kind n).Agrees config registry ((Shape.int kind).read registry .wire) := by
  have hbounds := IntKind.int64_range hnarrow hrange
  cases hsigned : kind.isSigned with
  | true =>
    rw [hsigned, if_pos rfl] at hbounds
    have hval : (Int64.ofInt n).toInt = n := Int64.toInt_ofInt_of_le hbounds.1 hbounds.2
    have hwrite : Encoder.kind config kind n = Encoder.int config (Int64.ofInt n) := by
      simp [Encoder.kind, hnarrow, hsigned]
    have hread : Agree (Encoder.int config (Int64.ofInt n)) (kind.read .wire) _ _ :=
      signed_agree hnarrow (hval.symm ▸ hrange)
    rw [hval, ← hwrite] at hread
    exact .of_leaf (hread.follow rfl) (Wire.isContainer_announced _ _) rfl
  | false =>
    rw [hsigned, if_neg nofun] at hbounds
    have hval : ((UInt64.ofNat n.toNat).toNat : Int) = n := by
      rw [UInt64.toNat_ofNat_of_lt' (by simp only [UInt64.size]; omega)]
      omega
    have hwrite : Encoder.kind config kind n = Encoder.uint config (UInt64.ofNat n.toNat) := by
      simp [Encoder.kind, hnarrow, hsigned]
    have hread : Agree (Encoder.uint config (UInt64.ofNat n.toNat)) (kind.read .wire)
        [.node (.uint (UInt64.ofNat n.toNat)) []] n :=
      int_agree hnarrow hrange rfl (.inl ⟨_, rfl, hval⟩)
    rw [← hwrite] at hread
    exact .of_leaf (hread.follow rfl) rfl rfl

/-- Any integer is taken from what is offered, whichever form it took. -/
theorem integer_agrees (n : Integer) :
    (Data.integer n).Agrees config registry (Shape.integer.read registry .wire) := by
  have hback := n.form_integer
  rw [Data.Agrees, Data.encode, Integer.integer_eq_element]
  cases hform : n.form with
  | unsigned v =>
    rw [hform] at hback
    have hoffer : Agree (Encoder.uint config v) (Decoder.offer .any) [.node (.uint v) []]
        (.unsigned v) := .scalar rfl rfl
    have htake : Offer.takeInteger (.unsigned v) = pure n := congrArg pure hback
    exact ⟨_, hoffer.follow (by rw [htake]; rfl), by simp, rfl⟩
  | negative v =>
    rw [hform] at hback
    have hsame : (Element.int v).announced config.intPolicy = .int v := by
      have h := n.announced_element config.intPolicy
      rw [hform] at h
      exact h
    have hoffer : Agree (Encoder.int config v) (Decoder.offer .any)
        [.node ((Element.int v).announced config.intPolicy) []] (.signed v) :=
      .scalar rfl (by rw [hsame])
    have htake : Offer.takeInteger (.signed v) = pure n := congrArg pure hback
    refine ⟨_, hoffer.follow (by rw [htake]; rfl), by simp, ?_⟩
    rw [hsame]
    rfl

theorem value_agrees {v : Value} (h : v.Announceable) :
    (Data.value v).Agrees config registry (Shape.value.read registry .wire) := by
  obtain ⟨bytes, hspelled, hwrites⟩ := v.exists_spelling config h
  obtain ⟨t, hfold, hheight⟩ := hspelled.exists_agree hwrites
  refine ⟨[t], hfold.follow rfl, by simp, ?_⟩
  simp [Forest.height, hheight, Data.depth]

end Shape

end MessagePack
