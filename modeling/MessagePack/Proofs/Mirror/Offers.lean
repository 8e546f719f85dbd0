import MessagePack.Proofs.Readers.Keys
import MessagePack.Proofs.Mirror.Basic
import MessagePack.Proofs.Mirror.Trips
import MessagePack.Proofs.Writing.Value

namespace MessagePack

open Decoding Decoder
open Value (ItemsSpelledBy EntriesSpelledBy)
open Wire (Element IsHeader)

variable {α β : Type} {bytes : List UInt8} {request : Request}

/-- A value and the session that its spelling comes next in. A byte of a raw is the same token in
memory and in the session. -/
inductive Input.Mirrored : Input → Input → List UInt8 → Prop
  | spelled {v : Value} {bytes : List UInt8} (h : v.SpelledBy bytes) :
      Mirrored (.tree v) .wire bytes
  | byte (n : UInt64) : Mirrored (.token (.unsigned n)) (.token (.unsigned n)) []

inductive Items.Mirrored : Items → Items → List UInt8 → Prop
  | spelled {rest : List Value} {bytes : List UInt8} (taken total : Nat)
      (h : ItemsSpelledBy rest bytes) : Mirrored (.tree taken rest) (.wire rest.length total) bytes
  | octets (taken : Nat) (rest : List UInt8) : Mirrored (.bytes taken rest) (.bytes taken rest) []

/-- A tuple is asked for. -/
def Request.isTuple : Request → Bool
  | tuple | tupleStruct _ => true
  | _ => false

/-- What is offered of the same thing in memory and by the session, with the bytes that spell what
is inside it. -/
inductive Offer.Mirrored (request : Request) : Offer → Offer → List UInt8 → Prop
  | scalar {o : Offer} (h : o.IsScalar) : Mirrored request o o []
  | number {n : UInt64} {v : Int64} (h : v.toInt = n.toNat) :
      Mirrored request (.unsigned n) (.signed v) []
  | narrowed (bits : UInt64) (h : request = .f32) :
      Mirrored request (.f64 bits) (.f32 (Float.narrow bits)) []
  | widened (bits : UInt32) (h : request = .f64) :
      Mirrored request (.f32 bits) (.f64 (Float.widen bits)) []
  | present {input input' : Input} {bytes : List UInt8} (h : input.Mirrored input' bytes) :
      Mirrored request (.present input) (.present input') bytes
  | newtype {input input' : Input} {bytes : List UInt8} (h : input.Mirrored input' bytes) :
      Mirrored request (.newtype input) (.newtype input') bytes
  | seq {items items' : Items} {bytes : List UInt8} (h : items.Mirrored items' bytes) :
      Mirrored request (.seq items) (.seq items') bytes
  | map {rest : List (Value × Value)} {bytes : List UInt8} {table : Option Fields}
      (taken total : Nat) (h : EntriesSpelledBy rest bytes)
      (htable : table = none ∨ request.isStruct = true) :
      Mirrored request (.map (.tree taken rest)) (.map (.wire rest.length total table)) bytes

/-- From the same thing in memory and in the session, where both make something of it, the reader
makes the same. -/
def Reader.Mirrors (one : Reader α) : Prop :=
  ∀ ⦃input input' : Input⦄ ⦃bytes : List UInt8⦄, input.Mirrored input' bytes →
    Decoding.Mirrors Same (one input) (one input') bytes

/-- The value in memory trips, and a token never does. -/
def Input.Trips (trips : Value → Prop) : Input → Prop
  | tree v => trips v
  | _ => False

/-- Of the same thing in memory and in the session, the reader makes the same where the session
makes anything of it, unless the value in memory trips. -/
def Reader.MirrorsUnless (trips : Value → Prop) (one : Reader α) : Prop :=
  ∀ ⦃input input' : Input⦄ ⦃bytes : List UInt8⦄, input.Mirrored input' bytes →
    Decoding.MirrorsUnless (input.Trips trips) Same (one input) (one input') bytes

def Items.values : Items → List Value
  | tree _ rest => rest
  | _ => []

def Entries.values : Entries → List (Value × Value)
  | tree _ rest => rest
  | _ => []

def Input.items : Input → List Value
  | tree v => v.items
  | _ => []

def Input.entries : Input → List (Value × Value)
  | tree v => v.entries
  | _ => []

theorem Input.not_trips {input : Input} : ¬input.Trips fun _ => False := by
  cases input <;> exact id

theorem Reader.MirrorsUnless.mirrors {trips : Value → Prop} {one : Reader α}
    (h : one.MirrorsUnless trips) : one.Mirrors :=
  fun _ _ _ hinput => (h hinput).mirrors

/-- A reader that nothing trips. -/
theorem Reader.MirrorsUnless.never {one : Reader α} (h : ∀ ⦃input input' : Input⦄
    ⦃bytes : List UInt8⦄, input.Mirrored input' bytes →
      Decoding.MirrorsUnless False Same (one input) (one input') bytes) :
    one.MirrorsUnless fun _ => False :=
  fun _ _ _ hinput => (h hinput).of_iff (iff_false_intro Input.not_trips)

namespace Value

@[simp] theorem offerAny_ofUInt64 (n : UInt64) : (ofUInt64 n).offerAny = .unsigned n := by
  simp [ofUInt64, offerAny, Integer.form_ofUInt64]

/-- Only a negative number is offered with its sign. -/
theorem offerAny_ofInt64 (n : Int64) : (ofInt64 n).offerAny.Mirrored request (.signed n) [] := by
  by_cases h : n.toInt < 0
  · have hoffer : (ofInt64 n).offerAny = .signed n := by
      simp only [ofInt64, offerAny, Integer.form_ofInt64_of_neg h]
    rw [hoffer]
    exact .scalar trivial
  · have hnat := Wire.toNat_toUInt64_of_nonneg (Int.not_lt.mp h)
    have hoffer : (ofInt64 n).offerAny = .unsigned n.toUInt64 := by
      simp only [ofInt64, offerAny, Integer.form_ofInt64_of_nonneg (Int.not_lt.mp h)]
    rw [hoffer]
    exact .number (by omega)

end Value

namespace Input

section

variable {v : Value} (h : v.SpelledBy bytes)

include h

theorem any_mirrors :
    MirrorsUnless False (Offer.Mirrored request) (pure v.offerAny) Decoder.offerAny bytes := by
  cases h with
  | nil h | bool h | f32 h | f64 h => exact .scalar h (.pure (.scalar trivial))
  | uint h => exact .scalar h (.pure (by simpa using .scalar trivial))
  | int h => exact .scalar h (.pure (Value.offerAny_ofInt64 _))
  | @raw data _ h =>
    refine .raw h rfl id ?_
    simp only [Value.offerAny]
    cases Text.ofUtf8? data <;> exact .pure (.scalar trivial)
  | array h items => exact .element h (.pure (.seq (.spelled 0 _ items)))
  | map h entries => exact .element h (.pure (.map 0 _ entries (.inl rfl)))

theorem bool_mirrors :
    MirrorsUnless False (Offer.Mirrored .bool) (pure v.offerAny) (Decoder.offer .bool) bytes := by
  rw [Decoder.offer]
  cases h with
  | bool h => exact .scalar h (.pure (.scalar trivial))
  | nil h | uint h | int h | f32 h | f64 h => exact .scalar h .throw_right
  | raw h | array h _ | map h _ => exact .element h .throw_right

theorem int_mirrors {kind : IntKind} : MirrorsUnless False (Offer.Mirrored (.int kind))
    (Decoding.ofExcept (v.offer (.int kind))) (Decoder.offer (.int kind)) bytes := by
  simp only [Decoder.offer, Value.offer]
  split
  · exact .throw_right
  · cases h with
    | uint h => exact .scalar h (.pure (by simpa using .scalar trivial))
    | int h => exact .scalar h (.pure (Value.offerAny_ofInt64 _))
    | nil h | bool h | f32 h | f64 h => exact .scalar h .throw_right
    | raw h | array h _ | map h _ => exact .element h .throw_right

theorem f32_mirrors :
    MirrorsUnless False (Offer.Mirrored .f32) (pure v.offerAny) (Decoder.offer .f32) bytes := by
  rw [Decoder.offer]
  cases h with
  | f32 h => exact .scalar h (.pure (.scalar trivial))
  | f64 h => exact .scalar h (.pure (.narrowed _ rfl))
  | nil h | bool h | uint h | int h => exact .scalar h .throw_right
  | raw h | array h _ | map h _ => exact .element h .throw_right

theorem f64_mirrors :
    MirrorsUnless False (Offer.Mirrored .f64) (pure v.offerAny) (Decoder.offer .f64) bytes := by
  rw [Decoder.offer]
  cases h with
  | f32 h => exact .scalar h (.pure (.widened _ rfl))
  | f64 h => exact .scalar h (.pure (.scalar trivial))
  | nil h | bool h | uint h | int h => exact .scalar h .throw_right
  | raw h | array h _ | map h _ => exact .element h .throw_right

/-- Text is offered of a raw by both only where it is UTF-8. -/
theorem text_mirrors :
    MirrorsUnless False (Offer.Mirrored .text) (pure v.offerAny) (Decoder.offer .text) bytes := by
  rw [Decoder.offer]
  cases h with
  | @raw data _ h =>
    refine .raw h rfl id ?_
    simp only [Value.offerAny]
    cases Text.ofUtf8? data with
    | some s => exact .pure (.scalar trivial)
    | none => exact .throw_right
  | nil h | bool h | uint h | int h | f32 h | f64 h => exact .scalar h .throw_right
  | array h _ | map h _ => exact .element h .throw_right

theorem bytes_mirrors : MirrorsUnless False (Offer.Mirrored .bytes)
    (Decoding.ofExcept (v.offer .bytes)) (Decoder.offer .bytes) bytes := by
  rw [Decoder.offer]
  cases h with
  | raw h => exact .raw h rfl id (.pure (.scalar trivial))
  | array h items => exact .element h (.pure (.seq (.spelled 0 _ items)))
  | nil h | bool h | uint h | int h | f32 h | f64 h => exact .scalar h .throw_right
  | map h _ => exact .element h .throw_right

theorem unit_mirrors :
    MirrorsUnless False (Offer.Mirrored request) (pure v.offerAny) (Decoder.offer .unit) bytes := by
  rw [Decoder.offer]
  cases h with
  | nil h => exact .scalar h (.pure (.scalar trivial))
  | bool h | uint h | int h | f32 h | f64 h => exact .scalar h .throw_right
  | raw h | array h _ | map h _ => exact .element h .throw_right

/-- The session knows from the tag whether there is a nil. -/
theorem option_mirrors : MirrorsUnless False (Offer.Mirrored .option)
    (Decoding.ofExcept (v.offer .option)) (Decoder.offer .option) bytes := by
  have hpresent {e : Element} {header body : List UInt8} (hheader : IsHeader e header)
      (he : e ≠ .nil) (hbytes : bytes = header ++ body) :
      MirrorsUnless False (Offer.Mirrored .option) (pure (.present (.tree v)))
        (Decoder.offer .option) bytes := by
    refine .peek fun marker hmarker => ?_
    obtain ⟨n, hfield⟩ := hmarker hheader hbytes
    cases marker with
    | nil => exact absurd (Option.some.inj hfield).symm he
    | _ => exact .pure (.present (.spelled h))
  cases h with
  | nil h =>
    refine .peek fun marker hmarker => ?_
    obtain ⟨n, hfield⟩ := hmarker h (List.append_nil _).symm
    obtain rfl := Element.eq_nil_of_ofField hfield
    exact .scalar h (.pure (.scalar trivial))
  | bool h | uint h | int h | f32 h | f64 h => exact hpresent h nofun (List.append_nil _).symm
  | raw h | array h _ | map h _ => exact hpresent h nofun rfl

theorem seq_mirrors : MirrorsUnless False (Offer.Mirrored .seq)
    (Decoding.ofExcept (v.offer .seq)) offerSeq bytes := by
  rw [offerSeq]
  cases h with
  | raw h => exact .raw h rfl id (.pure (.seq (.octets 0 _)))
  | array h items => exact .element h (.pure (.seq (.spelled 0 _ items)))
  | nil h | bool h | uint h | int h | f32 h | f64 h => exact .scalar h .throw_right
  | map h _ => exact .element h .throw_right

theorem map_mirrors :
    MirrorsUnless False (Offer.Mirrored request) (pure v.offerAny) (Decoder.offer .map) bytes := by
  rw [Decoder.offer]
  cases h with
  | map h entries => exact .element h (.pure (.map 0 _ entries (.inl rfl)))
  | nil h | bool h | uint h | int h | f32 h | f64 h => exact .scalar h .throw_right
  | raw h | array h _ => exact .element h .throw_right

theorem struct_mirrors {name : String} {names : List String} :
    MirrorsUnless False (Offer.Mirrored (.struct name names)) (pure v.offerAny)
      (Decoder.offer (.struct name names)) bytes := by
  rw [Decoder.offer]
  cases h with
  | map h entries =>
    exact .element h (.fieldsOf fun table => .pure (.map 0 _ entries (.inr rfl)))
  | array h items => exact .element h (.pure (.seq (.spelled 0 _ items)))
  | nil h | bool h | uint h | int h | f32 h | f64 h => exact .scalar h .throw_right
  | raw h => exact .element h .throw_right

theorem identifier_mirrors :
    MirrorsUnless False (Offer.Mirrored .identifier) (pure v.offerAny) (Decoder.offer .identifier)
      bytes := by
  rw [Decoder.offer]
  cases h with
  | uint h => exact .scalar h (.pure (by simpa using .scalar trivial))
  | @raw data _ h =>
    refine .raw h rfl id ?_
    simp only [Value.offerAny]
    cases Text.ofUtf8? data <;> exact .pure (.scalar trivial)
  | nil h | bool h | int h | f32 h | f64 h => exact .scalar h .throw_right
  | array h _ | map h _ => exact .element h .throw_right

end

/-- Whatever is asked for but a tuple, a value in memory and the session that it is spelled in offer
the same, where the session offers something. -/
theorem ask_mirrors {input input' : Input} (h : input.Mirrored input' bytes) (request : Request)
    (htuple : request.isTuple = false) :
    MirrorsUnless False (Offer.Mirrored request) (input.ask .empty request)
      (input'.ask .empty request) bytes := by
  cases h with
  | byte n => exact .pure (.scalar trivial)
  | @spelled v _ h =>
    have hwire : ask .empty request .wire = Decoder.offer request :=
      ask_wire (by cases request <;> rfl)
    rw [hwire]
    cases request with
    | any | ignored => exact any_mirrors h
    | bool => exact bool_mirrors h
    | int kind => exact int_mirrors h
    | f32 => exact f32_mirrors h
    | f64 => exact f64_mirrors h
    | text => exact text_mirrors h
    | bytes => exact bytes_mirrors h
    | option => exact option_mirrors h
    | unit | unitStruct name => exact unit_mirrors h
    | newtype name => exact .pure (.newtype (.spelled h))
    | seq => exact seq_mirrors h
    | tuple | tupleStruct name => cases htuple
    | map => exact map_mirrors h
    | struct name names => exact struct_mirrors h
    | identifier => exact identifier_mirrors h

end Input

theorem Decoding.eq_ok_of_ofExcept {α : Type} {r : Except Error α} {a : α}
    (h : Decoding.ofExcept r = pure a) : r = .ok a :=
  (ofExcept_eq_ok_iff.mp (congrFun h (Decoder.ofBytes []))).1

/-- What an offer tells of the input in memory that made it. -/
def Offer.Tells (input : Input) : Offer → Prop
  | .unit | .absent => ¬input.Trips fun v => v.isNil = false
  | .present content => content = input ∧ input.Trips fun v => v.isNil = false
  | .seq items => input.items = items.values ∧ input.entries = []
  | .map entries => input.items = [] ∧ input.entries = entries.values
  | _ => True

theorem Value.offerAny_tells (v : Value) : v.offerAny.Tells (.tree v) := by
  cases v with
  | nil => exact nofun
  | array items => exact ⟨rfl, rfl⟩
  | map entries => exact ⟨rfl, rfl⟩
  | int n =>
    simp only [offerAny]
    split <;> trivial
  | raw data =>
    simp only [offerAny]
    split <;> trivial
  | _ => trivial

theorem Value.offer_tells {v : Value} {o : Offer} (h : v.offer request = .ok o) :
    o.Tells (.tree v) := by
  have hany := v.offerAny_tells
  unfold Value.offer at h
  split at h
  · cases h
    cases v with
    | nil => exact nofun
    | _ => exact ⟨rfl, rfl⟩
  · cases h
    trivial
  · split at h <;> cases h
    · trivial
    · exact hany
  · split at h <;> cases h
    · exact ⟨rfl, rfl⟩
    · exact hany
  · split at h <;> cases h
    exact hany
  · cases h
    exact hany

theorem Input.ask_tells {input input' : Input} {o : Offer} (h : input.Mirrored input' bytes)
    (hask : input.ask .empty request = pure o) : o.Tells input := by
  cases h with
  | byte n =>
    obtain rfl := pure_inj hask
    trivial
  | spelled h => exact Value.offer_tells (Decoding.eq_ok_of_ofExcept hask)

/-- What is said of the parts of a value, where it is said of some only. -/
theorem Input.trips_iff (input : Input) {P : List Value → List (Value × Value) → Prop}
    (h : ¬P [] []) :
    input.Trips (fun v => P v.items v.entries) ↔ P input.items input.entries := by
  cases input with
  | tree v => exact Iff.rfl
  | _ => exact (iff_false_intro h).symm

end MessagePack
