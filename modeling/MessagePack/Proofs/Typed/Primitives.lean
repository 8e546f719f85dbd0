import MessagePack.Proofs.Typed.Integers

namespace MessagePack

open Decoding Decoder
open Wire (Element)

/-- The same answers, but for the words in which a destination turns down what it is given. -/
inductive AnswersAlike {α : Type} : Except Error α → Except Error α → Prop where
  | same (answer : Except Error α) : AnswersAlike answer answer
  | rejected (cause cause' : Rejection) :
      AnswersAlike (.error (.rejected cause)) (.error (.rejected cause'))

theorem AnswersAlike.symm {α : Type} {answer answer' : Except Error α}
    (h : AnswersAlike answer answer') : AnswersAlike answer' answer := by
  cases h with
  | same => exact .same _
  | rejected cause cause' => exact .rejected cause' cause

namespace Decoding

variable {α β : Type}

/-- The answer of a reading with the session that it leaves. -/
def outcome (reading : Decoding α) (d : Decoder) : Except Error α × Decoder :=
  match reading d with
  | .ok a d' => (.ok a, d')
  | .error e d' => (.error e, d')

/-- In every state of a session, the two readings have like answers and leave the same session. -/
def Interchange (reading reading' : Decoding α) : Prop :=
  ∀ d : Decoder, AnswersAlike (reading.outcome d).1 (reading'.outcome d).1 ∧
    (reading.outcome d).2 = (reading'.outcome d).2

/-- Readings one after another, with their answers. A session goes on after any error, in the state
that it left. -/
def session : List (Decoding α) → Decoder → List (Except Error α) × Decoder
  | [], d => ([], d)
  | reading :: rest, d =>
    let (answer, next) := reading.outcome d
    let (answers, last) := session rest next
    (answer :: answers, last)

end Decoding

/-- The methods of a session that read one value of a built-in type. -/
inductive Primitive where
  | nil
  | bool
  | u64
  | i64
  | f32
  | f64
  | string
  deriving DecidableEq, Repr

namespace Primitive

/-- The method itself, with its value as an item. -/
def call : Primitive → Decoding Item
  | nil => do
    Decoder.nil
    return .unit
  | bool => return .bool (← Decoder.bool)
  | u64 => return .int .u64 (← Decoder.u64).toNat
  | i64 => return .int .i64 (← Decoder.i64).toInt
  | f32 => return .f32 (← Decoder.f32)
  | f64 => return .f64 (← Decoder.f64)
  | string => return .text (← Decoder.string)

/-- The type that reads the same values. -/
def shape : Primitive → Shape
  | nil => .unit
  | bool => .bool
  | u64 => .int .u64
  | i64 => .int .i64
  | f32 => .f32
  | f64 => .f64
  | string => .text

/-- What it wants, in the words of its errors. -/
def expected : Primitive → String
  | nil => "Nil"
  | bool => "Bool"
  | u64 | i64 => "integer"
  | f32 | f64 => "float"
  | string => "Raw"

/-- What becomes of the element that comes next. -/
def take : Primitive → Element → Decoding Item
  | nil, .nil => pure .unit
  | bool, .bool b => pure (.bool b)
  | u64, .uint n => pure (.int .u64 n.toNat)
  | u64, .int n =>
    if 0 ≤ n.toInt then pure (.int .u64 n.toInt)
    else throw (.invalidValue (.integer n.toInt) "an unsigned integer")
  | i64, .int n => pure (.int .i64 n.toInt)
  | i64, .uint n =>
    if n.toNat < 9223372036854775808 then pure (.int .i64 n.toNat)
    else throw (.invalidValue (.integer n.toNat) "an i64")
  | f32, .f32 bits => pure (.f32 bits)
  | f32, .f64 bits => pure (.f32 (Float.narrow bits))
  | f64, .f32 bits => pure (.f64 (Float.widen bits))
  | f64, .f64 bits => pure (.f64 bits)
  | string, .raw len => return .text (← decodeText (← payload len))
  | p, e => throw (.typeMismatch p.expected e.category)

theorem call_eq (p : Primitive) : p.call = nextElement >>= p.take := by
  cases p with
  | nil =>
    simp only [call, Decoder.nil, bind_assoc]
    exact bind_congr fun e => by cases e <;> rfl
  | bool =>
    simp only [call, Decoder.bool, bind_assoc]
    exact bind_congr fun e => by cases e <;> rfl
  | f32 =>
    simp only [call, Decoder.f32, bind_assoc]
    exact bind_congr fun e => by cases e <;> rfl
  | f64 =>
    simp only [call, Decoder.f64, bind_assoc]
    exact bind_congr fun e => by cases e <;> rfl
  | string =>
    simp only [call, Decoder.string, Decoder.bytes, bind_assoc]
    exact bind_congr fun e => by cases e <;> rfl
  | u64 =>
    simp only [call, Decoder.u64, bind_assoc]
    refine bind_congr fun e => ?_
    cases e with
    | int n =>
      simp only [take]
      split_ifs with h
      · rw [pure_bind, Wire.toNat_toUInt64_of_nonneg h, Int.toNat_of_nonneg h]
      · rfl
    | _ => rfl
  | i64 =>
    simp only [call, Decoder.i64, bind_assoc]
    refine bind_congr fun e => ?_
    cases e with
    | uint n =>
      simp only [take]
      split_ifs with h
      · rw [pure_bind, Wire.toInt_toInt64_of_lt h]
      · rfl
    | _ => rfl

end Primitive

namespace Decoding.Interchange

variable {α β : Type}

theorem refl (reading : Decoding α) : Interchange reading reading :=
  fun _ => ⟨.same _, rfl⟩

theorem symm {reading reading' : Decoding α} (h : Interchange reading reading') :
    Interchange reading' reading := by
  intro d
  exact ⟨(h d).1.symm, (h d).2.symm⟩

/-- Readings that begin alike are as what follows. -/
theorem bind {first : Decoding α} {next next' : α → Decoding β}
    (h : ∀ a, Interchange (next a) (next' a)) : Interchange (first >>= next) (first >>= next') := by
  intro d
  cases hfirst : first d with
  | ok a mid =>
    simp only [outcome, bind_of_ok hfirst]
    exact h a mid
  | error e mid =>
    simp only [outcome, bind_of_error hfirst]
    exact ⟨.same _, trivial⟩

end Decoding.Interchange

namespace IntKind

variable {kind : IntKind} {n : Int}

theorem check_of_spans (h : kind.Spans n) : kind.check n = pure n :=
  if_pos (IntKind.contains_iff.mpr h)

theorem check_of_not_spans (h : ¬kind.Spans n) :
    kind.check n = throw (.invalidValue (.integer n) kind.name) :=
  if_neg fun hin => h (IntKind.contains_iff.mp hin)

/-- A test of the range under other words comes to the same as the kind's own. -/
theorem check_interchange {test : Prop} [Decidable test] (htest : test ↔ kind.Spans n)
    (cause : Rejection) :
    Interchange (if test then pure (.int kind n) else throw (.rejected cause))
      (kind.check n >>= fun v => pure (Item.int kind v)) := by
  by_cases hin : kind.Spans n
  · rw [if_pos (htest.mpr hin), check_of_spans hin, pure_bind]
    exact .refl _
  · rw [if_neg fun h => hin (htest.mp h), check_of_not_spans hin]
    exact fun _ => ⟨.rejected _ _, rfl⟩

end IntKind

/-- A machine integer takes a number under either sign, if it is in range. -/
theorem Shape.int_read_eq {kind : IntKind} (hnarrow : kind.isWide = false) (registry : Registry) :
    (Shape.int kind).read registry .wire = nextElement >>= fun e =>
      match e with
      | .uint n => kind.check n.toNat >>= fun v => pure (.int kind v)
      | .int n => kind.check n.toInt >>= fun v => pure (.int kind v)
      | e => throw (.typeMismatch "integer" e.category) := by
  have hread : (Shape.int kind).read registry .wire =
      (Decoder.offer (.int kind) >>= kind.take) >>= fun v => pure (.int kind v) := rfl
  rw [hread, Decoder.offer, if_neg (by simp [hnarrow])]
  simp only [bind_assoc]
  refine bind_congr fun e => ?_
  cases e <;> rfl

namespace Primitive

/-- The type's own reading makes the same of every element, up to the words in which it turns down a
number that is out of its range. -/
theorem take_interchange (p : Primitive) (registry : Registry) :
    Interchange (nextElement >>= p.take) (p.shape.read registry .wire) := by
  cases p with
  | nil | bool | f32 | f64 =>
    simp only [shape, Shape.read, Input.ask, Request.typeName?, Option.bind_none, Decoder.offer,
      bind_assoc]
    refine .bind fun e => ?_
    cases e <;> exact .refl _
  | string =>
    simp only [shape, Shape.read, Input.ask, Request.typeName?, Option.bind_none, Decoder.offer,
      bind_assoc]
    refine .bind fun e => ?_
    cases e with
    | raw len =>
      simp only [take, offerText, bind_assoc]
      refine .bind fun bytes => ?_
      rw [decodeText]
      cases Text.ofUtf8? bytes <;> exact .refl _
    | _ => exact .refl _
  | u64 =>
    rw [shape, Shape.int_read_eq rfl]
    refine .bind fun e => ?_
    cases e with
    | uint n =>
      have hlt := n.toNat_lt
      have hspans : IntKind.u64.Spans n.toNat := IntKind.spans_u64.mpr ⟨by omega, by omega⟩
      simp only [IntKind.check_of_spans hspans, pure_bind]
      exact .refl _
    | int n =>
      have hlt := n.toInt_lt
      exact IntKind.check_interchange (by rw [IntKind.spans_u64]; omega) _
    | _ => exact .refl _
  | i64 =>
    rw [shape, Shape.int_read_eq rfl]
    refine .bind fun e => ?_
    cases e with
    | uint n => exact IntKind.check_interchange (by rw [IntKind.spans_i64]; omega) _
    | int n =>
      have hspans : IntKind.i64.Spans n.toInt :=
        IntKind.spans_i64.mpr ⟨n.le_toInt, n.toInt_lt⟩
      simp only [IntKind.check_of_spans hspans, pure_bind]
      exact .refl _
    | _ => exact .refl _

theorem call_interchange (p : Primitive) (registry : Registry) :
    Interchange p.call (p.shape.read registry .wire) :=
  p.call_eq ▸ p.take_interchange registry

/-- At one point of a session either way of reading a primitive may stand for the other. -/
inductive Swapped (registry : Registry) : Decoding Item → Decoding Item → Prop where
  | kept (reading : Decoding Item) : Swapped registry reading reading
  | typed (p : Primitive) : Swapped registry p.call (p.shape.read registry .wire)
  | called (p : Primitive) : Swapped registry (p.shape.read registry .wire) p.call

theorem Swapped.interchange {registry : Registry} {reading reading' : Decoding Item}
    (h : Swapped registry reading reading') : Interchange reading reading' := by
  cases h with
  | kept => exact .refl _
  | typed p => exact p.call_interchange registry
  | called p => exact (p.call_interchange registry).symm

end Primitive

/-- What may stand for each other at one point of a session may do so at all of them. -/
theorem Decoding.session_interchange {α : Type} {readings readings' : List (Decoding α)}
    (h : List.Forall₂ Interchange readings readings') (d : Decoder) :
    List.Forall₂ AnswersAlike (session readings d).1 (session readings' d).1 ∧
      (session readings d).2 = (session readings' d).2 := by
  induction h generalizing d with
  | nil => exact ⟨.nil, rfl⟩
  | @cons reading reading' rest rest' hhead _ ih =>
    obtain ⟨hanswer, hnext⟩ := hhead d
    obtain ⟨hanswers, hlast⟩ := ih (reading'.outcome d).2
    simp only [session, hnext]
    exact ⟨.cons hanswer hanswers, hlast⟩

/-- Every primitive makes of the next element what the table says, and the type that it stands for
reads the same values, with the same errors up to the words of a refusal, and leaves the same
session, whatever state it is in. So at any number of points of a session, whatever else is read in
between, either may be used. -/
theorem Primitive.interchanges_with_type (registry : Registry) :
    (∀ p : Primitive, p.call = nextElement >>= p.take ∧
      Interchange p.call (p.shape.read registry .wire)) ∧
    ∀ readings readings' : List (Decoding Item),
      List.Forall₂ (Swapped registry) readings readings' → ∀ d : Decoder,
        List.Forall₂ AnswersAlike (session readings d).1 (session readings' d).1 ∧
          (session readings d).2 = (session readings' d).2 := by
  refine ⟨fun p => ⟨p.call_eq, p.call_interchange registry⟩, fun readings readings' h d => ?_⟩
  exact session_interchange (h.imp fun _ _ => Swapped.interchange) d

/-- A negative number where an unsigned one is wanted, a truth value, and then an array in place of
a nil: all in an array, with the tag of the number already looked at. For the array inside there is
no room; it stays open, and so there is none for the nil after it. -/
theorem Primitive.interchanges_with_type_negative :
    let d : Decoder := { new (.ofBytes [0xff, 0xc3, 0x91, 0xc0]) {} with
      nesting := { pending := [3], limit := 1 }, peeked := some 0xd0 }
    let readings := [u64.call, Shape.bool.read .default .wire, nil.call,
      Shape.unit.read .default .wire]
    let readings' := [(Shape.int .u64).read .default .wire, bool.call,
      Shape.unit.read .default .wire, nil.call]
    List.Forall₂ (Swapped .default) readings readings' ∧
    (List.Forall₂ AnswersAlike (session readings d).1 (session readings' d).1 ∧
      (session readings d).2 = (session readings' d).2) ∧
    (session readings d).1 = [.error (.invalidValue (.integer (-1)) "an unsigned integer"),
      .ok (.bool true), .error .depthLimit, .error .depthLimit] := by
  intro d readings readings'
  have hswapped : List.Forall₂ (Swapped .default) readings readings' :=
    .cons (.typed u64) (.cons (.called bool) (.cons (.typed nil) (.cons (.called nil) .nil)))
  have hnumber : u64.call d = .error (.invalidValue (.integer (-1)) "an unsigned integer")
      { d.past 2 with nesting.pending := [2] } := by
    subst d
    rfl
  have htruth : Shape.bool.read .default .wire { d.past 2 with nesting.pending := [2] } =
      .ok (.bool true) { d.past 3 with nesting.pending := [1] } := by
    subst d
    rfl
  have harray : nil.call { d.past 3 with nesting.pending := [1] } =
      .error .depthLimit { d.past 4 with nesting.pending := [1, 0] } := by
    subst d
    rfl
  have hnil : Shape.unit.read .default .wire { d.past 4 with nesting.pending := [1, 0] } =
      .error .depthLimit { d.past 5 with nesting.pending := [0, 0] } := by
    subst d
    rfl
  refine ⟨hswapped, (interchanges_with_type .default).2 readings readings' hswapped d, ?_⟩
  simp only [readings, session, outcome, hnumber, htruth, harray, hnil]

end MessagePack
