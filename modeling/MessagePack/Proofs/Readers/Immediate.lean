import MessagePack.Input.Scalar
import MessagePack.Proofs.Session.Steps

namespace MessagePack

/-- The source had no more to give, or failed. -/
def Error.isReadFailure : Error → Bool
  | truncated .. | io _ => true
  | _ => false

variable {α β : Type}

/-- What comes of something in memory: no error there is like one of a source. -/
def Decoding.Sourceless (r : Except Error α) : Prop :=
  ∀ e, r = .error e → e.isReadFailure = false

namespace Decoding.Sourceless

variable {r : Except Error α} {next : α → Except Error β}

theorem ok (a : α) : Sourceless (.ok a) := nofun

theorem error {e : Error} (own : e.isReadFailure = false) : Sourceless (α := α) (.error e) := by
  intro e' h
  cases h
  exact own

theorem bind (h : Sourceless r) (h' : ∀ a, Sourceless (next a)) : Sourceless (r >>= next) := by
  cases r with
  | ok a => exact h' a
  | error e => exact error (h e rfl)

theorem map {f : α → β} (h : Sourceless r) : Sourceless (r >>= fun a => pure (f a)) :=
  h.bind fun a => ok (f a)

end Decoding.Sourceless

namespace Decoding

/-- The reading does nothing but answer, or turn down with an error of its own. -/
def Immediate (reading : Decoding α) : Prop :=
  (∃ a, reading = pure a) ∨ ∃ e : Error, e.isReadFailure = false ∧ reading = throw e

namespace Immediate

theorem pure (a : α) : Immediate (Pure.pure a) := .inl ⟨a, rfl⟩

theorem throw {e : Error} (own : e.isReadFailure = false) :
    Immediate (α := α) (MonadExcept.throw e) :=
  .inr ⟨e, own, rfl⟩

theorem ofExcept {r : Except Error α} (h : Sourceless r) : Immediate (Decoding.ofExcept r) := by
  cases r with
  | ok a => exact pure a
  | error e => exact throw (h e rfl)

end Immediate

end Decoding

open Decoding

/-- An offer of one thing with nothing inside it. -/
def Offer.IsScalar : Offer → Prop
  | present _ | newtype _ | seq _ | map _ => False
  | _ => True

/-- What is taken is one thing, of an offer of one thing only, and of an integer it is the number
that counts. -/
structure Offer.TakesScalar (take : Offer → Decoding α) : Prop where
  immediate : ∀ o, o.IsScalar ∧ (take o).Immediate ∨
    ∃ expected, take o = o.refuse expected
  number : ∀ ⦃v : Int64⦄ ⦃n : UInt64⦄, v.toInt = n.toNat → take (.signed v) = take (.unsigned n)

/-- Both forms of a number are turned down with the same error. -/
theorem Offer.refuse_signed {v : Int64} {n : UInt64} (h : v.toInt = n.toNat) (expected : String) :
    ((signed v).refuse expected : Decoding α) = (unsigned n).refuse expected := by
  rw [refuse, refuse, found, found, h]

theorem IntKind.check_immediate (kind : IntKind) (n : Int) : (kind.check n).Immediate := by
  unfold check
  split
  · exact .pure n
  · exact .throw rfl

theorem IntKind.take_scalar (kind : IntKind) : Offer.TakesScalar kind.take where
  immediate o := by
    cases o with
    | unsigned n => exact .inl ⟨trivial, kind.check_immediate n.toNat⟩
    | signed v => exact .inl ⟨trivial, kind.check_immediate v.toInt⟩
    | _ => exact .inr ⟨_, rfl⟩
  number v n h := by rw [take, take, h]

/-- An integer is its number, whatever form that came in. -/
theorem Integer.ofInt64_eq_ofUInt64 {v : Int64} {n : UInt64} (h : v.toInt = n.toNat) :
    ofInt64 v = ofUInt64 n := by
  simp only [ofInt64, ofUInt64, h]

namespace Offer

theorem takeBool_scalar : TakesScalar takeBool where
  immediate o := by
    cases o with
    | bool b => exact .inl ⟨trivial, .pure b⟩
    | _ => exact .inr ⟨_, rfl⟩
  number _ _ h := refuse_signed h _

theorem takeF32_scalar : TakesScalar takeF32 where
  immediate o := by
    cases o with
    | f32 _ | f64 _ | unsigned _ | signed _ => exact .inl ⟨trivial, .pure _⟩
    | _ => exact .inr ⟨_, rfl⟩
  number v n h := by rw [takeF32, takeF32, h]

theorem takeF64_scalar : TakesScalar takeF64 where
  immediate o := by
    cases o with
    | f32 _ | f64 _ | unsigned _ | signed _ => exact .inl ⟨trivial, .pure _⟩
    | _ => exact .inr ⟨_, rfl⟩
  number v n h := by rw [takeF64, takeF64, h]

theorem takeChar_scalar : TakesScalar takeChar where
  immediate o := by
    cases o with
    | text s =>
      refine .inl ⟨trivial, ?_⟩
      unfold takeChar
      dsimp only
      split
      · exact .pure _
      · exact .throw rfl
    | _ => exact .inr ⟨_, rfl⟩
  number _ _ h := refuse_signed h _

theorem takeText_scalar : TakesScalar takeText where
  immediate o := by
    cases o with
    | text s => exact .inl ⟨trivial, .pure s⟩
    | octets bytes =>
      refine .inl ⟨trivial, ?_⟩
      unfold takeText
      dsimp only
      split
      · exact .pure _
      · exact .throw rfl
    | _ => exact .inr ⟨_, rfl⟩
  number _ _ h := refuse_signed h _

theorem takeUnit_scalar (expected : String) : TakesScalar (takeUnit expected) where
  immediate o := by
    cases o with
    | unit => exact .inl ⟨trivial, .pure ()⟩
    | _ => exact .inr ⟨_, rfl⟩
  number _ _ h := refuse_signed h _

theorem takeInteger_scalar : TakesScalar takeInteger where
  immediate o := by
    cases o with
    | unsigned _ | signed _ => exact .inl ⟨trivial, .pure _⟩
    | _ => exact .inr ⟨_, rfl⟩
  number v n h := by rw [takeInteger, takeInteger, Integer.ofInt64_eq_ofUInt64 h]

end Offer

end MessagePack
