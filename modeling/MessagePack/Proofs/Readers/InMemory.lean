import MessagePack.Proofs.Readers.Keys

namespace MessagePack

open Decoding

/-- Whatever is read from the input is not read from the session. -/
def Input.InMemory : Input → Prop
  | wire => False
  | _ => True

def Items.InMemory : Items → Prop
  | wire .. => False
  | _ => True

def Entries.InMemory : Entries → Prop
  | wire .. => False
  | _ => True

def Offer.InMemory : Offer → Prop
  | present content | newtype content => content.InMemory
  | seq items => items.InMemory
  | map entries => entries.InMemory
  | _ => True

def VariantOffer.InMemory : VariantOffer → Prop
  | variant name content? => name.InMemory ∧ ∀ content, content? = some content → content.InMemory
  | other offer => offer.InMemory

/-- What the contents of a variant are read from, if there are any, is in memory. -/
def ContentInMemory (content? : Option Input) : Prop :=
  ∀ content, content? = some content → content.InMemory

theorem Entries.rawKey_inMemory (bytes : List UInt8) : (rawKey bytes).InMemory := by
  unfold rawKey
  split <;> trivial

theorem Token.offer_inMemory (t : Token) : t.offer.InMemory := by
  cases t <;> trivial

namespace Value

theorem offerAny_inMemory (v : Value) : v.offerAny.InMemory := by
  cases v with
  | int n =>
    simp only [offerAny]
    split <;> trivial
  | raw bytes =>
    simp only [offerAny]
    split <;> trivial
  | _ => trivial

theorem offer_inMemory {v : Value} {request : Request} {o : Offer}
    (h : v.offer request = .ok o) : o.InMemory := by
  have hany := v.offerAny_inMemory
  unfold offer at h
  split at h
  · cases h
    split <;> trivial
  · cases h
    trivial
  · split at h <;> cases h <;> trivial
  · split at h <;> cases h <;> trivial
  · split at h <;> cases h
    exact hany
  · cases h
    exact hany

theorem offerVariant_inMemory {v : Value} {o : VariantOffer} (h : v.offerVariant = .ok o) :
    o.InMemory := by
  unfold offerVariant at h
  split at h <;> cases h
  · exact ⟨trivial, nofun⟩
  · exact ⟨trivial, nofun⟩
  · refine ⟨trivial, ?_⟩
    intro content hsame
    cases hsame
    trivial

end Value

namespace Value

theorem offer_sourceless (v : Value) (request : Request) : Sourceless (v.offer request) := by
  cases request with
  | int kind =>
    rw [offer]
    split
    · exact .error rfl
    · exact .ok _
  | bytes | seq => cases v <;> exact .ok _
  | _ => exact .ok _

theorem offerVariant_sourceless (v : Value) : Sourceless v.offerVariant := by
  unfold offerVariant
  split <;> first | exact .ok _ | exact .error rfl

end Value

/-- Whatever the fold does not take, it has its own error for. -/
def Fold.Refuses {α : Type} (f : Fold α) : Prop := ∀ n type, Sourceless (f.wide n type)

namespace Fold

theorem refuses_value : value.Refuses := fun _ _ => .error rfl

theorem refuses_ignored : ignored.Refuses := fun _ _ => .ok _

theorem refuses_token : token.Refuses := fun _ _ => .ok _

end Fold

namespace Token

variable {α : Type} {f : Fold α}

mutual

theorem fold_sourceless (hf : f.Refuses) : (t : Token) → Sourceless (t.fold f)
  | bool _ | unsigned _ | signed _ | f32 _ | f64 _ | text _ | octets _ | unit | absent => .ok _
  | wide n type => hf n type
  | present content | newtype content => (content.fold_sourceless hf).map
  | seq _ items => (foldItems_sourceless hf items).map
  | map _ entries => (foldEntries_sourceless hf entries).map

theorem foldItems_sourceless (hf : f.Refuses) : (items : List Token) →
    Sourceless (foldItems f items)
  | [] => .ok _
  | t :: rest => (t.fold_sourceless hf).bind fun _ => (foldItems_sourceless hf rest).map

theorem foldEntries_sourceless (hf : f.Refuses) : (entries : List (Token × Token)) →
    Sourceless (foldEntries f entries)
  | [] => .ok _
  | (k, v) :: rest => (k.fold_sourceless hf).bind fun _ => (v.fold_sourceless hf).bind fun _ =>
    (foldEntries_sourceless hf rest).map

end

end Token

namespace Items

variable {items : Items}

theorem InMemory.inputs (h : items.InMemory) : ∀ input ∈ items.inputs, input.InMemory := by
  cases items with
  | wire left total => exact h.elim
  | tree taken rest | bytes taken rest | tokens hint rest =>
    intro input hmem
    obtain ⟨_, -, rfl⟩ := List.mem_map.mp hmem
    trivial

end Items

namespace FieldReader

/-- A field that is missing is an error of the structure. -/
theorem collect_sourceless : (fields : List FieldReader) → (slots : List (Option Item)) →
    Sourceless (collect fields slots)
  | [], _ | _ :: _, [] => .ok _
  | field :: fields, slot :: slots => by
    have hrest (item : Item) : Sourceless (collect fields slots >>= fun list =>
        pure ((field.name, item) :: list)) := (collect_sourceless fields slots).map
    unfold collect
    cases slot with
    | some item => exact (Sourceless.ok item).bind hrest
    | none =>
      dsimp only
      split
      · exact (Sourceless.ok _).bind hrest
      · exact (Sourceless.error rfl).bind hrest

end FieldReader

end MessagePack
