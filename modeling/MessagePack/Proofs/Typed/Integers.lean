import MessagePack.Proofs.Readers.Session
import MessagePack.Proofs.RoundTrip.Scalar

namespace MessagePack

open Decoding Decoder
open Wire (Element IsHeader)

/-- The numbers of a kind, by its width and its sign. -/
def IntKind.Spans (kind : IntKind) (n : Int) : Prop :=
  if kind.isSigned then -2 ^ (kind.bits - 1) ≤ n ∧ n < 2 ^ (kind.bits - 1)
  else 0 ≤ n ∧ n < 2 ^ kind.bits

/-- The reading answers as it should if the number is in range, and refuses it otherwise. Either
way it leaves the same session behind. -/
def Decoding.Settles {α : Type} (reading : Decoding α) (inRange : Prop) (answers : α → Prop)
    (d d' : Decoder) : Prop :=
  (inRange → ∃ a, answers a ∧ reading d = .ok a d') ∧
  (¬inRange → ∃ cause, reading d = .error (.rejected cause) d')

/-- What each integer destination makes of the number that comes next in a session, and the session
that all of them leave behind. -/
structure Integer.ReadIn (n : Integer) (registry : Registry) (d d' : Decoder) : Prop where
  kind : ∀ kind : IntKind, kind.isWide = false →
    Settles ((Shape.int kind).read registry .wire) (kind.Spans n.val) (· = .int kind n.val) d d'
  u64 : Settles Decoder.u64 (IntKind.u64.Spans n.val) (fun v => (v.toNat : Int) = n.val) d d'
  i64 : Settles Decoder.i64 (IntKind.i64.Spans n.val) (fun v => v.toInt = n.val) d d'
  integer : Shape.integer.read registry .wire d = .ok (.integer n) d'
  value : Shape.value.read registry .wire d = .ok (.value (.int n)) d'

/-- The elements that carry a number, under either sign. -/
inductive Wire.Element.Numbers : Element → Integer → Prop where
  | uint (v : UInt64) : Numbers (.uint v) (.ofUInt64 v)
  | int (v : Int64) : Numbers (.int v) (.ofInt64 v)

/-- The session after one element without contents that is `count` bytes long. -/
def Decoder.pastScalar (count : Nat) (d : Decoder) : Decoder :=
  { d.past count with nesting := d.nesting.counted 1 }

variable {α β : Type} {n : Integer} {e : Element} {d d' : Decoder}

theorem Wire.toInt_toInt64_of_lt {v : UInt64} (h : v.toNat < 9223372036854775808) :
    v.toInt64.toInt = v.toNat := by
  change v.toBitVec.toInt = v.toNat
  exact BitVec.toInt_eq_toNat_of_lt (by simp only [UInt64.toNat_toBitVec]; omega)

theorem IntKind.spans_u64 {v : Int} : u64.Spans v ↔ 0 ≤ v ∧ v < 18446744073709551616 := by
  simp [Spans, isSigned, bits]

theorem IntKind.spans_i64 {v : Int} :
    i64.Spans v ↔ -9223372036854775808 ≤ v ∧ v < 9223372036854775808 := by
  simp [Spans, isSigned, bits]

theorem Value.SpelledBy.exists_numbers {bytes : List UInt8} (h : (Value.int n).SpelledBy bytes) :
    ∃ e : Element, e.Numbers n ∧ IsHeader e bytes := by
  generalize hv : Value.int n = v at h
  cases h with
  | uint h =>
    cases hv
    exact ⟨_, .uint _, h⟩
  | int h =>
    cases hv
    exact ⟨_, .int _, h⟩
  | _ => cases hv

theorem Wire.Element.Numbers.isContainer (h : e.Numbers n) : e.isContainer = false := by
  cases h <;> rfl

namespace Decoding.Settles

variable {first : Decoding α} {reading : Decoding β} {inRange : Prop} {answers : α → Prop}

/-- A reading that goes on from an element that has come is settled by how it goes on. -/
theorem behind {answers : β → Prop} {a : α} {k : α → Decoding β} (hfirst : first d = .ok a d')
    (h : Settles (k a) inRange answers d' d') : Settles (first >>= k) inRange answers d d' := by
  simp only [Settles, bind_of_ok hfirst]
  exact h

/-- What is made of the answer has no part in whether there is one. -/
theorem map {f : α → β} {answers' : β → Prop} (h : Settles first inRange answers d d')
    (hmap : ∀ a, answers a → answers' (f a)) :
    Settles (first >>= fun a => pure (f a)) inRange answers' d d' := by
  constructor
  · intro hin
    obtain ⟨a, ha, hok⟩ := h.1 hin
    exact ⟨f a, hmap a ha, by rw [bind_of_ok hok]; rfl⟩
  · intro hout
    obtain ⟨cause, herror⟩ := h.2 hout
    exact ⟨cause, bind_of_error herror⟩

/-- An answer that depends on a test alone. -/
theorem ite {test : Prop} [Decidable test] {a : α} {cause : Rejection} (htest : test ↔ inRange)
    (ha : inRange → answers a) :
    Settles (if test then pure a else throw (.rejected cause)) inRange answers d d := by
  constructor
  · intro hin
    exact ⟨a, ha hin, by rw [if_pos (htest.mpr hin)]; rfl⟩
  · intro hout
    exact ⟨cause, by rw [if_neg fun h => hout (htest.mp h)]; rfl⟩

end Decoding.Settles

section

variable (h : e.Numbers n) (hnext : nextElement d = .ok e d')

include h hnext

/-- A destination of a machine kind takes a number under either sign, if it is one of the kind. -/
theorem IntKind.read_settles {kind : IntKind} (hnarrow : kind.isWide = false) :
    Settles (kind.read .wire) (kind.Spans n.val) (· = n.val) d d' := by
  have hcheck : Settles (kind.check n.val) (kind.Spans n.val) (· = n.val) d' d' :=
    .ite IntKind.contains_iff fun _ => rfl
  have hoffer : kind.read .wire = Decoder.offer (.int kind) >>= kind.take := rfl
  rw [hoffer, Decoder.offer, if_neg (by simp [hnarrow]), bind_assoc]
  apply Settles.behind hnext
  cases h with
  | uint v => exact hcheck
  | int v => exact hcheck

theorem IntKind.settles_of_numbers {kind : IntKind} (hnarrow : kind.isWide = false)
    (registry : Registry) :
    Settles ((Shape.int kind).read registry .wire) (kind.Spans n.val) (· = .int kind n.val) d d' :=
  (IntKind.read_settles h hnext hnarrow).map fun _ => congrArg (Item.int kind)

theorem Decoder.u64_settles :
    Settles Decoder.u64 (IntKind.u64.Spans n.val) (fun v => (v.toNat : Int) = n.val) d d' := by
  rw [Decoder.u64, IntKind.spans_u64]
  apply Settles.behind hnext
  cases h with
  | uint v =>
    have hlt := v.toNat_lt
    refine ⟨fun _ => ⟨v, rfl, rfl⟩, fun hout => absurd ?_ hout⟩
    simp only [Integer.ofUInt64]
    omega
  | int v =>
    have hlt := v.toInt_lt
    have hspans : 0 ≤ v.toInt ↔ 0 ≤ v.toInt ∧ v.toInt < 18446744073709551616 := by omega
    apply Settles.ite hspans
    intro hin
    rw [Wire.toNat_toUInt64_of_nonneg hin.1]
    exact Int.toNat_of_nonneg hin.1

theorem Decoder.i64_settles :
    Settles Decoder.i64 (IntKind.i64.Spans n.val) (fun v => v.toInt = n.val) d d' := by
  rw [Decoder.i64, IntKind.spans_i64]
  apply Settles.behind hnext
  cases h with
  | int v => exact ⟨fun _ => ⟨v, rfl, rfl⟩, fun hout => absurd ⟨v.le_toInt, v.toInt_lt⟩ hout⟩
  | uint v =>
    have hspans : v.toNat < 9223372036854775808 ↔
        -9223372036854775808 ≤ (v.toNat : Int) ∧ (v.toNat : Int) < 9223372036854775808 := by omega
    apply Settles.ite hspans
    intro hin
    exact Wire.toInt_toInt64_of_lt (hspans.mpr hin)

theorem Shape.integer_read_of_numbers (registry : Registry) :
    Shape.integer.read registry .wire d = .ok (.integer n) d' := by
  have hread : Shape.integer.read registry .wire =
      Decoder.offer .any >>= fun o => o.takeInteger >>= fun n => pure (.integer n) := rfl
  rw [hread, Decoder.offer, offerAny, bind_assoc, bind_of_ok hnext]
  cases h <;> rfl

theorem Shape.value_read_of_numbers (registry : Registry) :
    Shape.value.read registry .wire d = .ok (.value (.int n)) d' := by
  have hread : Shape.value.read registry .wire =
      Decoder.fold .value >>= fun v => pure (.value v) := rfl
  have hfold : Decoder.fold .value d = .ok (.int n) d' := by
    rw [fold, foldLevels_succ, bind_of_ok hnext]
    cases h <;> rfl
  rw [hread, bind_of_ok hfold]
  rfl

end

/-- Whichever form an integer takes on the wire, a session goes past exactly that form, and every
destination reads the same number from it or, where it has no room for that number, refuses it. -/
theorem Integer.readIn_of_spelledBy {bytes rest : List UInt8}
    (hspelled : (Value.int n).SpelledBy bytes) (hs : d.Sound) (hahead : d.ahead = bytes ++ rest)
    (registry : Registry) :
    n.ReadIn registry d (d.pastScalar bytes.length) ∧
      (d.pastScalar bytes.length).Sound ∧ (d.pastScalar bytes.length).ahead = rest := by
  obtain ⟨e, hnumbers, hheader⟩ := hspelled.exists_numbers
  have hnext : nextElement d = .ok e (d.pastScalar bytes.length) :=
    (nextElement_eq_ok_iff hs.steady).mpr ⟨bytes, rest, _, hheader, hahead,
      Nesting.enter_scalar hs.nesting hnumbers.isContainer, rfl⟩
  refine ⟨⟨fun kind hnarrow => ?_, ?_, ?_, ?_, ?_⟩, ⟨past_steady hs.steady _, hs.nesting.counted 1⟩,
    ahead_past hahead⟩
  · exact IntKind.settles_of_numbers hnumbers hnext hnarrow registry
  · exact Decoder.u64_settles hnumbers hnext
  · exact Decoder.i64_settles hnumbers hnext
  · exact Shape.integer_read_of_numbers hnumbers hnext registry
  · exact Shape.value_read_of_numbers hnumbers hnext registry

/-- A number in a signed form of two bytes, for an unsigned kind of one byte and a signed kind that
ends before it. -/
theorem Integer.readIn_signed_two_hundred :
    let n : Integer := ⟨200, by decide, by decide⟩
    let d := Decoder.new (.ofBytes [0xd1, 0x00, 0xc8, 0xff]) {}
    ((Value.int n).SpelledBy [0xd1, 0x00, 0xc8] ∧ d.Sound ∧
      d.ahead = [0xd1, 0x00, 0xc8] ++ [0xff]) ∧
    (n.ReadIn .default d (d.pastScalar 3) ∧ (d.pastScalar 3).Sound ∧
      (d.pastScalar 3).ahead = [0xff]) ∧
    IntKind.u8.Spans n.val ∧ ¬IntKind.i8.Spans n.val := by
  have hspelled : (Value.ofInt64 200).SpelledBy [0xd1, 0x00, 0xc8] :=
    .int (@IsHeader.int 0xd1 2 200 (by decide) (by decide) (by decide))
  have hs := sound_new [0xd1, 0x00, 0xc8, 0xff] {}
  exact ⟨⟨hspelled, hs, rfl⟩, Integer.readIn_of_spelledBy hspelled hs rfl .default,
    by simp [IntKind.Spans, IntKind.isSigned, IntKind.bits],
    by simp [IntKind.Spans, IntKind.isSigned, IntKind.bits]⟩

end MessagePack
