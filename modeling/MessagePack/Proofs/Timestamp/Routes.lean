import MessagePack.Proofs.RoundTrip.Stream
import MessagePack.Proofs.Typed.Integers
import MessagePack.Proofs.Writing.Precoded

namespace MessagePack

open Decoding Decoder
open Wire (Element IsHeader maxLength)

namespace Decoding.Settles

variable {α β γ : Type} {first : Decoding α} {second : Decoding β} {k : α → β → Decoding γ}
  {inFirst inSecond : Prop} {answers : α → Prop} {answers' : β → Prop} {d mid last : Decoder}

/-- Two readings, one after the other, each of which has an answer. -/
theorem pair_ok (h : first.Settles inFirst answers d mid)
    (h' : second.Settles inSecond answers' mid last) (hfirst : inFirst) (hsecond : inSecond) {c : γ}
    (hk : ∀ a b, answers a → answers' b → k a b = pure c) :
    (first >>= fun a => second >>= k a) d = .ok c last := by
  obtain ⟨a, ha, hok⟩ := h.1 hfirst
  obtain ⟨b, hb, hok'⟩ := h'.1 hsecond
  rw [bind_of_ok hok, bind_of_ok hok', hk a b ha hb]
  rfl

/-- Whichever of the two is the first to have none refuses. -/
theorem pair_refused (h : first.Settles inFirst answers d mid)
    (h' : second.Settles inSecond answers' mid last) (hout : ¬(inFirst ∧ inSecond)) :
    ∃ cause d', (first >>= fun a => second >>= k a) d = .error (.rejected cause) d' := by
  by_cases hfirst : inFirst
  · obtain ⟨a, -, hok⟩ := h.1 hfirst
    have hsecond : ¬inSecond := fun hsecond => hout ⟨hfirst, hsecond⟩
    obtain ⟨cause, herror⟩ := h'.2 hsecond
    refine ⟨cause, last, ?_⟩
    rw [bind_of_ok hok]
    exact bind_of_error herror
  · obtain ⟨cause, herror⟩ := h.2 hfirst
    exact ⟨cause, mid, bind_of_error herror⟩

end Decoding.Settles

/-- The reading gives the timestamp of two numbers where both are signed numbers of 64 bits, and is
refused where one of them is not. -/
structure Timestamp.Settles (n m : Integer) (reading : Decoding Item) (d d' : Decoder) : Prop where
  given : ∀ sec nsec : Int64, n.val = sec.toInt → m.val = nsec.toInt →
    reading d = .ok (.timestamp (.new sec nsec)) d'
  refused : ¬(IntKind.i64.Spans n.val ∧ IntKind.i64.Spans m.val) →
    ∃ cause mid, reading d = .error (.rejected cause) mid

namespace Timestamp

variable {n m : Integer} {d mid last : Decoder}

theorem spans_toInt (v : Int64) : IntKind.i64.Spans v.toInt :=
  IntKind.spans_i64.mpr ⟨v.le_toInt, v.toInt_lt⟩

/-- Where two numbers are read one after the other, it is enough to know what is made of them. -/
theorem settles_of_pair {α β : Type} {first : Decoding α} {second : Decoding β}
    {k : α → β → Decoding Item} {answers : α → Prop} {answers' : β → Prop}
    (h : first.Settles (IntKind.i64.Spans n.val) answers d mid)
    (h' : second.Settles (IntKind.i64.Spans m.val) answers' mid last)
    (hk : ∀ sec nsec : Int64, n.val = sec.toInt → m.val = nsec.toInt →
      ∀ a b, answers a → answers' b → k a b = pure (.timestamp (.new sec nsec))) :
    Settles n m (first >>= fun a => second >>= k a) d last where
  given sec nsec hn hm :=
    h.pair_ok h' (hn ▸ spans_toInt sec) (hm ▸ spans_toInt nsec) (hk sec nsec hn hm)
  refused hout := h.pair_refused h' hout

/-- An element that comes first has no part in what is made of the numbers after it. -/
theorem Settles.behind {e : Element} {k : Element → Decoding Item}
    (hnext : nextElement d = .ok e mid) (h : Settles n m (k e) mid last) :
    Settles n m (nextElement >>= k) d last where
  given sec nsec hn hm := (bind_of_ok hnext).trans (h.given sec nsec hn hm)
  refused hout := by
    obtain ⟨cause, d', herror⟩ := h.refused hout
    exact ⟨cause, d', (bind_of_ok hnext).trans herror⟩

/-- Two numbers that are the only items of a sequence, wherever the sequence is. -/
theorem settles_of_items (items : Items) {inside none : Items} {one other : Input}
    (hnext : items.next = some (one, inside)) (hnext' : inside.next = some (other, none))
    (hfinish : none.finish = pure ())
    (h : (IntKind.i64.read one).Settles (IntKind.i64.Spans n.val) (· = n.val) d mid)
    (h' : (IntKind.i64.read other).Settles (IntKind.i64.Spans m.val) (· = m.val) mid last) :
    Settles n m (((items.readTuple "a tuple of size 2" [IntKind.i64.read, IntKind.i64.read]) >>=
      fun list => pure (ofPair list)) >>= fun t => pure (.timestamp t)) d last := by
  have hread : ((items.readTuple "a tuple of size 2" [IntKind.i64.read, IntKind.i64.read]) >>=
      fun list => pure (ofPair list)) >>= (fun t => pure (Item.timestamp t)) =
        IntKind.i64.read one >>= fun a => IntKind.i64.read other >>= fun b =>
          pure (.timestamp (ofPair [a, b])) := by
    simp only [Items.readTuple, Items.readEach, hnext, hnext', hfinish, bind_assoc, pure_bind]
  rw [hread]
  apply settles_of_pair h h'
  intro sec nsec hn hm a b ha hb
  rw [ha, hb, hn, hm, ofPair, Int64.ofInt_toInt, Int64.ofInt_toInt]

/-- A number on the wire, under any of its spellings, for those who read it next. -/
theorem exists_number {bytes rest : List UInt8} (hspelled : (Value.int n).SpelledBy bytes)
    (hs : d.Sound) (hahead : d.ahead = bytes ++ rest) : ∃ (e : Element) (d' : Decoder),
    e.Numbers n ∧ nextElement d = .ok e d' ∧ d'.Sound ∧ d'.ahead = rest := by
  obtain ⟨e, hnumbers, hheader⟩ := hspelled.exists_numbers
  have hnext : nextElement d = .ok e (d.pastScalar bytes.length) :=
    (nextElement_eq_ok_iff hs.steady).mpr ⟨bytes, rest, _, hheader, hahead,
      Nesting.enter_scalar hs.nesting hnumbers.isContainer, rfl⟩
  exact ⟨e, _, hnumbers, hnext, ⟨past_steady hs.steady _, hs.nesting.counted 1⟩, ahead_past hahead⟩

/-- A container on the wire, where there is room for one more. -/
theorem exists_opened {e : Element} {header rest : List UInt8} (he : e.isContainer = true)
    (hheader : IsHeader e header) (hs : d.Sound) (hahead : d.ahead = header ++ rest)
    (hroom : d.nesting.depth < d.nesting.limit) :
    ∃ d', nextElement d = .ok e d' ∧ d'.Sound ∧ d'.ahead = rest := by
  have henter : d.nesting.enter e = .ok (d.nesting.within e.items) :=
    (Nesting.enter_container d.nesting he).trans (if_pos hroom)
  have hopen : nextElement d = .ok e
      { d.past header.length with nesting := d.nesting.within e.items } :=
    (nextElement_eq_ok_iff hs.steady).mpr ⟨header, rest, _, hheader, hahead, henter, rfl⟩
  exact ⟨_, hopen, ⟨past_steady hs.steady _, (hs.nesting.enter henter).1⟩, ahead_past hahead⟩

section

variable {first second rest : List UInt8} (hfirst : (Value.int n).SpelledBy first)
  (hsecond : (Value.int m).SpelledBy second) (hs : d.Sound)

include hfirst hsecond hs

/-- With its codec: the two numbers are read bare, and the codec's value of the normalised parts is
read in turn. -/
theorem settles_of_codec {registry : Registry} (hcodec : registry.get? typeName = some .timestamp)
    (hahead : d.ahead = first ++ (second ++ rest)) :
    ∃ d', d'.Sound ∧ d'.ahead = rest ∧
      Settles n m (Shape.timestamp.read registry .wire) d d' := by
  obtain ⟨e, mid, hnumbers, hnext, hmid, hahead⟩ := exists_number hfirst hs hahead
  obtain ⟨e', last, hnumbers', hnext', hlast, hahead⟩ := exists_number hsecond hmid hahead
  refine ⟨last, hlast, hahead, ?_⟩
  have hread : Shape.timestamp.read registry .wire = Decoder.i64 >>= fun sec =>
      Decoder.i64 >>= fun nsec => readTuple (.tree (.array
        [.ofInt64 (new sec nsec).seconds, .ofUInt64 (UInt64.ofNat (new sec nsec).nanos)])) >>=
          fun t => pure (.timestamp t) := by
    simp only [Shape.read, Input.ask, Request.typeName?, Option.bind_some, hcodec,
      Codec.timestamp, Decoder.time, bind_assoc, pure_bind]
    rfl
  rw [hread]
  apply settles_of_pair (Decoder.i64_settles hnumbers hnext) (Decoder.i64_settles hnumbers' hnext')
  intro sec nsec hn hm a b ha hb
  obtain rfl : a = sec := Int64.toInt_inj.1 (ha.trans hn)
  obtain rfl : b = nsec := Int64.toInt_inj.1 (hb.trans hm)
  rw [readTuple_tree]
  rfl

/-- Without a codec: the numbers are the items of an array. -/
theorem settles_of_free {registry : Registry} (hfree : registry.get? typeName = none)
    {header : List UInt8} (hheader : IsHeader (.array 2) header)
    (hahead : d.ahead = header ++ (first ++ (second ++ rest)))
    (hroom : d.nesting.depth < d.nesting.limit) :
    ∃ d', d'.Sound ∧ d'.ahead = rest ∧
      Settles n m (Shape.timestamp.read registry .wire) d d' := by
  obtain ⟨inside, hopen, hinside, hahead⟩ := exists_opened rfl hheader hs hahead hroom
  obtain ⟨e, mid, hnumbers, hnext, hmid, hahead⟩ := exists_number hfirst hinside hahead
  obtain ⟨e', last, hnumbers', hnext', hlast, hahead⟩ := exists_number hsecond hmid hahead
  refine ⟨last, hlast, hahead, ?_⟩
  have hask : Input.ask registry (.newtype typeName) .wire = pure (.newtype .wire) :=
    Input.ask_wire hfree
  have htuple : Input.ask .empty .tuple .wire = offerSeq := rfl
  have hread : Shape.timestamp.read registry .wire =
      readTuple .wire >>= fun t => pure (.timestamp t) := by
    rw [Shape.read, hask]
    rfl
  have hpair := settles_of_items (.wire 2 2) rfl rfl rfl
    (IntKind.read_settles hnumbers hnext rfl) (IntKind.read_settles hnumbers' hnext' rfl)
  rw [hread, readTuple, htuple, offerSeq, bind_assoc, bind_assoc]
  exact hpair.behind hopen

end

/-- In memory: each number is checked where it stands. -/
theorem settles_of_tree (n m : Integer) (registry : Registry) (d : Decoder) :
    Settles n m (Shape.timestamp.read registry (.tree (.array [.int n, .int m]))) d d := by
  have hnumber (n : Integer) : (IntKind.i64.read (.tree (.int n))).Settles (IntKind.i64.Spans n.val)
      (· = n.val) d d := by
    rw [IntKind.read_tree_check rfl]
    exact .ite IntKind.contains_iff fun _ => rfl
  have hpair := settles_of_items (.tree 0 [.int n, .int m]) rfl rfl rfl (hnumber n)
    (hnumber m)
  exact hpair

end Timestamp

end MessagePack
