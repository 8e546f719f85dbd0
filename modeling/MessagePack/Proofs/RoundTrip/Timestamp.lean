import MessagePack.Proofs.RoundTrip.Items
import MessagePack.Registry

namespace MessagePack

open Decoding Decoder
open Encoding (Writes)
open Wire (Element Forest IsHeader Streams maxLength)

variable {config : Config} {registry : Registry}

namespace Timestamp

theorem toInt_nanos (t : Timestamp) : (Int64.ofNat t.nanos).toInt = t.nanos :=
  Int64.toInt_ofNat_of_lt (Nat.lt_trans t.nanos_lt (by decide))

/-- The parts of a timestamp are the timestamp: there is nothing to carry over. -/
theorem new_parts (t : Timestamp) : Timestamp.new t.seconds (Int64.ofNat t.nanos) = t := by
  obtain ⟨seconds, nanos, hlt⟩ := t
  have hnanos := toInt_nanos ⟨seconds, nanos, hlt⟩
  simp only at hnanos
  have hcarry : seconds.toInt + (nanos : Int) / 1000000000 = seconds.toInt := by omega
  have hkeep : ((nanos : Int) % 1000000000).toNat = nanos := by omega
  simp [Timestamp.new, hnanos, hcarry, hkeep]

end Timestamp

/-- A number keeps its value when it is written without its sign. -/
theorem Value.spelledBy_int {v : Int64} {header : List UInt8} {policy : Wire.IntPolicy}
    (h : IsHeader ((Element.int v).announced policy) header) :
    (Value.ofInt64 v).SpelledBy header := by
  rcases Wire.announced_int policy v with hsame | ⟨u, hsame, hu⟩
  · rw [hsame] at h
    exact .int h
  · rw [hsame] at h
    have heq : Integer.ofUInt64 u = Integer.ofInt64 v := by
      simpa [Integer.ofUInt64, Integer.ofInt64] using hu
    have hspelled := SpelledBy.uint h
    rwa [Value.ofUInt64, heq] at hspelled

/-- What is captured is what the first element of the bytes spells; what comes after it is
dropped. -/
theorem Encoder.capture_eq_ok_iff {encoding : Encoding Unit} {v : Value} :
    capture encoding = .ok v ↔
    ∃ whole dropped, buffered encoding = .ok (whole ++ dropped) ∧ v.SpelledBy whole ∧
      v.height ≤ unlimitedDepth := by
  constructor
  · intro hcapture
    unfold capture at hcapture
    cases hbytes : buffered encoding with
    | error e =>
      rw [hbytes] at hcapture
      exact nomatch hcapture
    | ok bytes =>
      rw [hbytes] at hcapture
      obtain ⟨d, hvalue⟩ := Decoding.result_eq_ok_iff.mp hcapture
      obtain ⟨-, hspelled, hheight⟩ := Decoder.spelledBy_of_value_new hvalue
      refine ⟨bytes.take d.source.position, bytes.drop d.source.position, ?_, hspelled, hheight⟩
      rw [List.take_append_drop]
  · intro hwhole
    obtain ⟨whole, dropped, hbytes, hspelled, hheight⟩ := hwhole
    have hroom : v.height ≤ ({ maxDepth := unlimitedDepth } : Config).maxDepth := hheight
    obtain ⟨d, hvalue, -⟩ := Decoder.value_of_spelledBy dropped hspelled hroom
    unfold capture
    rw [hbytes]
    exact Decoding.result_eq_ok_iff.mpr ⟨d, hvalue⟩

/-- What is written to the side is read back as the value that it spells. -/
theorem Encoder.capture_eq {encoding : Encoding Unit} {bytes : List UInt8} {v : Value}
    (h : Writes encoding bytes) (hspelled : v.SpelledBy bytes)
    (hheight : v.height ≤ unlimitedDepth) : capture encoding = .ok v := by
  have hbytes : buffered encoding = .ok (bytes ++ []) := by rw [List.append_nil, h.buffered]
  exact capture_eq_ok_iff.mpr ⟨bytes, [], hbytes, hspelled, hheight⟩

/-- The elements that the two parts of a timestamp are written as. -/
def Timestamp.forest (config : Config) (t : Timestamp) : Forest :=
  [.node ((Element.int t.seconds).announced config.intPolicy) [],
    .node ((Element.int (Int64.ofNat t.nanos)).announced config.intPolicy) []]

theorem Timestamp.height_forest (t : Timestamp) : (t.forest config).height = 0 := by
  simp only [forest, Forest.height, Wire.ElementTree.height, Wire.isContainer_announced]
  rfl

theorem Encoder.capture_timePair (t : Timestamp) :
    capture (timePair config t) =
      .ok (.array [.ofInt64 t.seconds, .ofInt64 (Int64.ofNat t.nanos)]) := by
  obtain ⟨header, hheader, hwrites⟩ :=
    Writes.exists_element config (e := .array 2) (show 2 ≤ maxLength by decide)
  obtain ⟨first, hfirst, hwrites'⟩ :=
    Writes.exists_element config (e := .int t.seconds) (Nat.zero_le _)
  obtain ⟨second, hsecond, hwrites''⟩ :=
    Writes.exists_element config (e := .int (Int64.ofNat t.nanos)) (Nat.zero_le _)
  have hitems : Value.ItemsSpelledBy [.ofInt64 t.seconds, .ofInt64 (Int64.ofNat t.nanos)]
      (first ++ (second ++ [])) :=
    .cons (Value.spelledBy_int hfirst) (.cons (Value.spelledBy_int hsecond) .nil)
  rw [List.append_nil] at hitems
  exact capture_eq (hwrites.bind (hwrites'.bind hwrites'')) (.array hheader hitems)
    (show 1 ≤ unlimitedDepth by decide)

/-- The codec is given the parts of the timestamp and writes them bare. -/
theorem Encoder.through_timestamp (t : Timestamp) :
    through .timestamp config (capture (timePair config t)) = time config t := by
  have hpart (v : Int64) : (Value.ofInt64 v).i64? = some v := by
    have hrange := IntKind.contains_i64 v
    simp [Value.i64?, Value.int?, Value.ofInt64, Integer.i64?, Integer.to?, Integer.ofInt64, hrange]
  rw [capture_timePair]
  simp only [through, Codec.timestamp, hpart, Timestamp.new_parts]

/-- An integer in memory is taken from what it offers, whichever form it takes. -/
theorem IntKind.read_tree_check {kind : IntKind} {n : Integer} (hnarrow : kind.isWide = false) :
    kind.read (.tree (.int n)) = kind.check n.val := by
  have hback := congrArg Integer.val n.form_integer
  have hoffer : (Value.int n).offer (.int kind) = .ok (Value.int n).offerAny := by
    rw [Value.offer, if_neg (by simp [hnarrow])]
  have hread : kind.read (.tree (.int n)) = kind.take (Value.int n).offerAny := by
    simp only [IntKind.read, Input.ask, hoffer, Decoding.ofExcept, pure_bind]
  rw [hread, Value.offerAny]
  cases hform : n.form with
  | unsigned u =>
    rw [hform] at hback
    rw [← hback]
    rfl
  | negative u =>
    rw [hform] at hback
    rw [← hback]
    rfl

theorem IntKind.read_tree {kind : IntKind} {n : Integer} (hnarrow : kind.isWide = false)
    (hrange : kind.contains n.val = true) : kind.read (.tree (.int n)) = pure n.val :=
  (IntKind.read_tree_check hnarrow).trans (if_pos hrange)

namespace Timestamp

theorem i64_agree (config : Config) (v : Int64) : Agree (Encoder.int config v) Decoder.i64
    [.node ((Element.int v).announced config.intPolicy) []] v := by
  apply Agree.scalar rfl
  simp only [Element.announced]
  split_ifs with h
  · have hnat := Wire.toNat_toUInt64_of_nonneg h.1
    have hlt := v.toInt_lt
    have hsmall : v.toUInt64.toNat < 2 ^ 63 := by omega
    exact if_pos hsmall
  · rfl

theorem decode_agree (t : Timestamp) : Agree (Encoder.time config t) Codec.timestamp.decode
    (t.forest config) (.array [.ofInt64 t.seconds, .ofUInt64 (UInt64.ofNat t.nanos)]) := by
  have htime : Agree (Encoder.time config t) Decoder.time (t.forest config) t := by
    refine (i64_agree config t.seconds).bind ((i64_agree config (Int64.ofNat t.nanos)).follow ?_)
    rw [new_parts]
  exact htime.follow rfl

/-- The value that the codec makes is the timestamp's own two parts. -/
theorem readTuple_tree (t : Timestamp) :
    readTuple (.tree (.array [.ofInt64 t.seconds, .ofUInt64 (UInt64.ofNat t.nanos)])) = pure t := by
  have hnanos : ((UInt64.ofNat t.nanos).toNat : Int) = (Int64.ofNat t.nanos).toInt := by
    have hlt := t.nanos_lt
    rw [toInt_nanos, UInt64.toNat_ofNat_of_lt' (by simp only [UInt64.size]; omega)]
  have hsec : IntKind.i64.read (.tree (.ofInt64 t.seconds)) = pure t.seconds.toInt :=
    IntKind.read_tree rfl (IntKind.contains_i64 t.seconds)
  have hnsec : IntKind.i64.read (.tree (.ofUInt64 (UInt64.ofNat t.nanos))) =
      pure (Int64.ofNat t.nanos).toInt := by
    have hrange := IntKind.contains_i64 (Int64.ofNat t.nanos)
    rw [← hnanos] at hrange ⊢
    exact IntKind.read_tree rfl hrange
  have hread : readTuple
      (.tree (.array [.ofInt64 t.seconds, .ofUInt64 (UInt64.ofNat t.nanos)])) =
      IntKind.i64.read (.tree (.ofInt64 t.seconds)) >>= fun sec =>
        IntKind.i64.read (.tree (.ofUInt64 (UInt64.ofNat t.nanos))) >>= fun nsec =>
          pure (ofPair [sec, nsec]) := by
    have hask (v : Value) : Input.ask .empty .tuple (.tree v) = pure v.offerAny := rfl
    simp only [readTuple, hask, pure_bind, Value.offerAny, Items.readTuple, Items.readEach,
      Items.next, Items.finish, bind_assoc]
  rw [hread, hsec, pure_bind, hnsec, pure_bind, ofPair, Int64.ofInt_toInt, Int64.ofInt_toInt,
    new_parts]

theorem encode_of_codec (hcodec : registry.get? typeName = some .timestamp) (t : Timestamp) :
    (Data.timestamp t).encode config registry = Encoder.time config t := by
  simp only [Data.encode, hcodec]
  exact Encoder.through_timestamp t

theorem encode_of_free (hfree : registry.get? typeName = none) (t : Timestamp) :
    (Data.timestamp t).encode config registry = Encoder.timePair config t := by
  simp only [Data.encode, hfree]

theorem get?_default : Registry.default.get? typeName = some .timestamp := by
  simp [Registry.default, Registry.register, Registry.get?]

/-- Without a codec a timestamp is an array of its parts. -/
theorem agrees_of_free (hfree : registry.get? typeName = none) (t : Timestamp) :
    (Data.timestamp t).Agrees config registry (Shape.timestamp.read registry .wire) := by
  have hask : Input.ask registry (.newtype typeName) .wire = pure (.newtype .wire) :=
    Input.ask_wire hfree
  have hread : Shape.timestamp.read registry .wire =
      readTuple .wire >>= fun t => pure (.timestamp t) := by
    rw [Shape.read, hask]
    rfl
  have htuple : Input.ask .empty .tuple .wire = offerSeq := rfl
  have hpair : Agree (Encoder.time config t)
      (Items.readTuple "a tuple of size 2" [IntKind.i64.read, IntKind.i64.read] (.wire 2 2))
      (t.forest config) [t.seconds.toInt, (Int64.ofNat t.nanos).toInt] := by
    have hsec : Agree (Encoder.int config t.seconds) (IntKind.i64.read .wire)
        [.node ((Element.int t.seconds).announced config.intPolicy) []] t.seconds.toInt :=
      Shape.signed_agree rfl (IntKind.contains_i64 t.seconds)
    have hnsec : Agree (Encoder.int config (Int64.ofNat t.nanos)) (IntKind.i64.read .wire)
        [.node ((Element.int (Int64.ofNat t.nanos)).announced config.intPolicy) []]
        (Int64.ofNat t.nanos).toInt :=
      Shape.signed_agree rfl (IntKind.contains_i64 (Int64.ofNat t.nanos))
    simp only [Items.readTuple, Items.readEach, Items.next, bind_assoc]
    exact hsec.bind (hnsec.follow rfl)
  have hlen : (Element.array 2).items ≤ (t.forest config).length := Nat.le_refl 2
  have hdepth : (Data.timestamp t).depth registry = 1 := by
    simp [Data.depth, Registry.contains, hfree]
  rw [hread, readTuple, htuple, offerSeq, bind_assoc, bind_assoc, Data.Agrees, hdepth]
  refine Data.AgreesAt.of_container (.array 2) (Encoder.time config t) rfl (by decide) hlen
    ?_ ?_ t.height_forest
  · have hparts : Agree (Encoder.time config t)
        (Items.readTuple "a tuple of size 2" [IntKind.i64.read, IntKind.i64.read] (.wire 2 2) >>=
          fun list => pure (ofPair list)) (t.forest config) t := by
      apply hpair.follow
      rw [ofPair, Int64.ofInt_toInt, Int64.ofInt_toInt, new_parts]
    exact hparts.follow (k := fun t => pure (Item.timestamp t)) rfl
  · intro header body hheader hbody
    rw [encode_of_free hfree]
    exact hheader.bind hbody

/-- With its codec a timestamp is its two parts, one after the other. -/
theorem agrees_of_codec (hcodec : registry.get? typeName = some .timestamp) (t : Timestamp) :
    (Data.timestamp t).Agrees config registry (Shape.timestamp.read registry .wire) := by
  have hwrite : (Data.timestamp t).encode config registry = Encoder.time config t :=
    encode_of_codec hcodec t
  have hask : Agree (Encoder.time config t) (Input.ask registry (.newtype typeName) .wire)
      (t.forest config) (.newtype
        (.tree (.array [.ofInt64 t.seconds, .ofUInt64 (UInt64.ofNat t.nanos)]))) := by
    simp only [Input.ask, Request.typeName?, Option.bind_some, hcodec]
    exact t.decode_agree.follow rfl
  refine ⟨t.forest config, ?_, by simp [forest], ?_⟩
  · rw [hwrite]
    apply hask.follow
    rw [take, readTuple_tree]
    rfl
  · simp [Data.depth, Registry.contains, hcodec, height_forest]

end Timestamp

end MessagePack
