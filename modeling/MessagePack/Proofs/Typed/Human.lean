import MessagePack.Proofs.Typed.Gives

namespace MessagePack

open Decoding (Gives)

namespace Item

mutual

/-- What has been answered to the question whether the format is meant for people. -/
def humans : Item → List Bool
  | human b => [b]
  | present content | newtype _ content | newtypeVariant _ _ content => content.humans
  | seq items | tuple items | tupleStruct _ items | tupleVariant _ _ items => listHumans items
  | map entries => entryHumans entries
  | struct _ fields | structVariant _ _ fields => fieldHumans fields
  | _ => []

def listHumans : List Item → List Bool
  | [] => []
  | item :: rest => item.humans ++ listHumans rest

def entryHumans : List (Item × Item) → List Bool
  | [] => []
  | (k, v) :: rest => k.humans ++ (v.humans ++ entryHumans rest)

def fieldHumans : List (String × Item) → List Bool
  | [] => []
  | (_, item) :: rest => item.humans ++ fieldHumans rest

end

/-- Whoever asked was told the same. -/
def Told (b : Bool) (item : Item) : Prop := ∀ answer ∈ item.humans, answer = b

variable {b : Bool}

theorem told_list {items : List Item} (h : ∀ item ∈ items, item.Told b) :
    ∀ answer ∈ listHumans items, answer = b := by
  induction items with
  | nil => exact List.forall_mem_nil _
  | cons item rest ih =>
    obtain ⟨hitem, hrest⟩ := List.forall_mem_cons.mp h
    exact List.forall_mem_append.mpr ⟨hitem, ih hrest⟩

theorem told_entries {entries : List (Item × Item)}
    (h : ∀ entry ∈ entries, entry.1.Told b ∧ entry.2.Told b) :
    ∀ answer ∈ entryHumans entries, answer = b := by
  induction entries with
  | nil => exact List.forall_mem_nil _
  | cons entry rest ih =>
    obtain ⟨⟨hkey, hvalue⟩, hrest⟩ := List.forall_mem_cons.mp h
    exact List.forall_mem_append.mpr ⟨hkey, List.forall_mem_append.mpr ⟨hvalue, ih hrest⟩⟩

theorem told_fields {fields : List (String × Item)} (h : ∀ field ∈ fields, field.2.Told b) :
    ∀ answer ∈ fieldHumans fields, answer = b := by
  induction fields with
  | nil => exact List.forall_mem_nil _
  | cons field rest ih =>
    obtain ⟨hfield, hrest⟩ := List.forall_mem_cons.mp h
    exact List.forall_mem_append.mpr ⟨hfield, ih hrest⟩

end Item

open Item (Told)

section

variable (registry : Registry) (b : Bool)

mutual

/-- Every question in the type gets the answer `b`, from memory or else from the wire: what has a
codec is read from memory, and on the wire a sequence may turn out to be the bytes of a raw, each of
which is in memory. -/
def Shape.Asks : Bool → Shape → Prop
  | memory, .human => memory = b
  | memory, .option content => content.Asks memory
  | memory, .seq item => (memory = false → item ≠ .human) ∧ item.Asks memory
  | memory, .map key item => key.Asks memory ∧ item.Asks memory
  | memory, .mapPart _ key item => key.Asks memory ∧ item.Asks memory
  | memory, .tuple items => Shape.ItemsAsk memory items
  | memory, .tupleStruct name items => Shape.ItemsAsk (memory || registry.contains name) items
  | memory, .newtype name content => content.Asks (memory || registry.contains name)
  | memory, .struct name fields _ => Shape.FieldsAsk (memory || registry.contains name) fields
  | memory, .enumeration _ variants => Content.AllAsk memory variants
  | _, _ => True

def Shape.ItemsAsk : Bool → List Shape → Prop
  | _, [] => True
  | memory, item :: rest =>
    (memory = false → item ≠ .human) ∧ item.Asks memory ∧ Shape.ItemsAsk memory rest

def Shape.FieldsAsk : Bool → List (String × Shape) → Prop
  | _, [] => True
  | memory, (_, field) :: rest => field.Asks memory ∧ Shape.FieldsAsk memory rest

def Content.Asks : Bool → Content → Prop
  | _, .unit => True
  | memory, .newtype content => content.Asks memory
  | memory, .tuple items => Shape.ItemsAsk memory items
  | memory, .struct fields => Shape.FieldsAsk memory fields

def Content.AllAsk : Bool → List (String × Content) → Prop
  | _, [] => True
  | memory, (_, content) :: rest => content.Asks memory ∧ Content.AllAsk memory rest

end

end

/-- From memory, or from the session itself. -/
def Input.From : Bool → Input → Prop
  | true, input => input.InMemory
  | false, input => input = .wire

/-- Where the items of a sequence are: those on the wire may be single bytes. -/
def Input.ItemFrom : Bool → Input → Prop
  | true, input => input.InMemory
  | false, input => input = .wire ∨ ∃ n, input = .token (.unsigned n)

def Offer.From (memory : Bool) : Offer → Prop
  | present content | newtype content => content.From memory
  | seq items => items.Of (Input.ItemFrom memory)
  | map entries => entries.Of (Input.From memory)
  | _ => True

def Offer.IsPlain : Offer → Prop
  | map entries => entries.IsPlain
  | _ => True

theorem Entries.InMemory.of {entries : Entries} (h : entries.InMemory) :
    entries.Of Input.InMemory ∧ entries.IsPlain := by
  cases entries with
  | wire _ _ _ => exact h.elim
  | _ => exact ⟨fun _ _ => ⟨trivial, trivial⟩, trivial⟩

theorem Offer.InMemory.from {o : Offer} (h : o.InMemory) : o.From true ∧ o.IsPlain := by
  cases o with
  | present _ | newtype _ => exact ⟨h, trivial⟩
  | seq items => exact ⟨h.inputs, trivial⟩
  | map entries => exact Entries.InMemory.of h
  | _ => exact ⟨trivial, trivial⟩

theorem Offer.InMemory.of {o : Offer} (h : o.InMemory) : o.Of Input.InMemory := by
  cases o with
  | present _ | newtype _ => exact h
  | seq items => exact h.inputs
  | map entries => exact (Entries.InMemory.of h).1
  | _ => trivial

namespace Decoder

private theorem offerItems_from (len : Nat) :
    (offerItems len).From false ∧ (offerItems len).IsPlain :=
  ⟨fun _ hmem => .inl (List.eq_of_mem_replicate hmem), trivial⟩

private theorem offerEntries_from (len : Nat) :
    (offerEntries len none).From false ∧ (offerEntries len none).IsPlain :=
  ⟨rfl, rfl⟩

private theorem bytes_from (data : List UInt8) :
    (Offer.seq (.bytes 0 data)).From false ∧ (Offer.seq (.bytes 0 data)).IsPlain := by
  refine ⟨fun input hmem => ?_, trivial⟩
  obtain ⟨b, -, rfl⟩ := List.mem_map.mp hmem
  exact .inr ⟨b.toUInt64, rfl⟩

theorem offerRaw_gives (len : Nat) : Gives (fun o => o.From false ∧ o.IsPlain) (offerRaw len) := by
  refine .after fun bytes => ?_
  split <;> exact .pure ⟨trivial, trivial⟩

theorem offerText_gives (len : Nat) :
    Gives (fun o => o.From false ∧ o.IsPlain) (offerText len) := by
  refine .after fun bytes => ?_
  split
  · exact .pure ⟨trivial, trivial⟩
  · exact .throw

theorem offerAny_gives : Gives (fun o => o.From false ∧ o.IsPlain) offerAny := by
  refine .after fun e => ?_
  cases e with
  | raw len => exact offerRaw_gives len
  | array len => exact .pure (offerItems_from len)
  | map len => exact .pure (offerEntries_from len)
  | _ => exact .pure ⟨trivial, trivial⟩

theorem offerSeq_gives : Gives (fun o => o.From false ∧ o.IsPlain) offerSeq := by
  refine .after fun e => ?_
  cases e with
  | raw len => exact .after fun bytes => .pure (bytes_from bytes)
  | array len => exact .pure (offerItems_from len)
  | _ => exact .throw

/-- Whatever the session offers is read from the session, but for the bytes of a raw. Only a
structure has a table that reads the keys. -/
theorem offer_gives (request : Request) :
    Gives (fun o => o.From false ∧ ((∀ name names, request ≠ .struct name names) → o.IsPlain))
      (offer request) := by
  have hof {o : Offer} (h : o.From false ∧ o.IsPlain) :
      o.From false ∧ ((∀ name names, request ≠ .struct name names) → o.IsPlain) :=
    ⟨h.1, fun _ => h.2⟩
  cases request with
  | any | ignored => exact offerAny_gives.mono fun _ => hof
  | seq | tuple | tupleStruct _ => exact offerSeq_gives.mono fun _ => hof
  | bool | f32 | f64 | unit | unitStruct _ =>
    refine .after fun e => ?_
    cases e <;> first | exact .pure (hof ⟨trivial, trivial⟩) | exact .throw
  | newtype _ => exact .pure (hof ⟨rfl, trivial⟩)
  | int kind =>
    unfold offer
    dsimp only
    split
    · exact (Gives.throw (P := fun _ => False)).bind fun _ h => h.elim
    · refine .after fun e => ?_
      cases e with
      | uint n | int n => exact .pure (hof ⟨trivial, trivial⟩)
      | _ => exact .throw
  | text =>
    refine .after fun e => ?_
    cases e with
    | raw len => exact (offerText_gives len).mono fun _ => hof
    | _ => exact .throw
  | bytes =>
    refine .after fun e => ?_
    cases e with
    | raw len => exact .after fun _ => .pure (hof ⟨trivial, trivial⟩)
    | array len => exact .pure (hof (offerItems_from len))
    | _ => exact .throw
  | identifier =>
    refine .after fun e => ?_
    cases e with
    | raw len => exact (offerRaw_gives len).mono fun _ => hof
    | uint n => exact .pure (hof ⟨trivial, trivial⟩)
    | _ => exact .throw
  | map =>
    refine .after fun e => ?_
    cases e with
    | map len => exact .pure (hof (offerEntries_from len))
    | _ => exact .throw
  | struct name names =>
    refine .after fun e => ?_
    cases e with
    | map len =>
      exact .after fun fields => .pure ⟨rfl, fun hstruct => absurd rfl (hstruct name names)⟩
    | array len => exact .pure (hof (offerItems_from len))
    | _ => exact .throw
  | option =>
    refine .after fun marker => ?_
    cases marker with
    | nil => exact .after fun _ => .pure (hof ⟨trivial, trivial⟩)
    | _ => exact .pure (hof ⟨rfl, trivial⟩)

/-- The fields of a structure are not the bytes of a raw. -/
theorem offer_fields_gives {request : Request}
    (h : request = .map ∨ ∃ name names, request = .struct name names) :
    Gives (Offer.Of (Input.From false)) (offer request) := by
  rcases h with rfl | ⟨name, names, rfl⟩
  · refine .after fun e => ?_
    cases e with
    | map len => exact .pure rfl
    | _ => exact .throw
  · refine .after fun e => ?_
    cases e with
    | map len => exact .after fun fields => .pure rfl
    | array len => exact .pure fun _ => List.eq_of_mem_replicate
    | _ => exact .throw

end Decoder

namespace Input

variable {registry : Registry} {memory : Bool} {request : Request} {input : Input}

/-- A type without a name has no codec. -/
theorem ask_gives (h : input.From memory) (hname : request.typeName? = none) :
    Gives (fun o => o.From memory ∧ o.IsPlain) (input.ask registry request) := by
  cases memory with
  | true => exact .of_keeps ((ask_keeps h registry request).mono fun _ ho => ho.from)
  | false =>
    obtain rfl : input = .wire := h
    have hask : ask registry request .wire = Decoder.offer request := by
      simp only [ask, hname, Option.bind_none]
    rw [hask]
    refine (Decoder.offer_gives request).mono fun o ho => ⟨ho.1, ho.2 fun name names hsame => ?_⟩
    rw [hsame] at hname
    cases hname

/-- What has a codec is read from the value that the codec gives. -/
theorem ask_named_gives {name : String} (h : input.From memory)
    (hname : request.typeName? = some name) :
    Gives (Offer.From (memory || registry.contains name)) (input.ask registry request) := by
  cases memory with
  | true => exact .of_keeps ((ask_keeps h registry request).mono fun _ ho => ho.from.1)
  | false =>
    obtain rfl : input = .wire := h
    rw [Bool.false_or, Registry.contains]
    simp only [ask, hname, Option.bind_some]
    cases registry.get? name with
    | none => exact (Decoder.offer_gives request).mono fun _ ho => ho.1
    | some codec =>
      refine .after fun v => .of_keeps (.ofExcept fun o ho => ?_)
      exact (Value.offer_inMemory ho).from.1

theorem ask_newtype_gives (h : input.From memory) (name : String) :
    Gives (fun o => (∃ inner : Input, o = .newtype inner ∧
        inner.From (memory || registry.contains name)) ∨
      (memory || registry.contains name) = true ∧ o.From true)
      (input.ask registry (.newtype name)) := by
  cases hinside : memory || registry.contains name with
  | true =>
    have hask : Gives (Offer.From (memory || registry.contains name))
        (input.ask registry (.newtype name)) := ask_named_gives h rfl
    rw [hinside] at hask
    exact hask.mono fun _ ho => .inr ⟨rfl, ho⟩
  | false =>
    obtain ⟨rfl, hbare⟩ := Bool.or_eq_false_iff.mp hinside
    obtain rfl : input = .wire := h
    have hnone : registry.get? name = none := Option.not_isSome_iff_eq_none.mp (by
      rw [← Registry.contains, hbare]
      exact Bool.false_ne_true)
    have hask : ask registry (.newtype name) .wire = pure (.newtype .wire) := by
      simp only [ask, Request.typeName?, Option.bind_some, hnone]
      rfl
    rw [hask]
    exact .pure (.inl ⟨.wire, rfl, rfl⟩)

theorem ask_struct_gives (h : input.From memory) (name : String) (names : List String) :
    Gives (Offer.Of (From (memory || registry.contains name)))
      (input.ask registry (.struct name names)) := by
  cases memory with
  | true => exact .of_keeps ((ask_keeps h registry _).mono fun _ => Offer.InMemory.of)
  | false =>
    obtain rfl : input = .wire := h
    rw [Bool.false_or, Registry.contains]
    simp only [ask, Request.typeName?, Option.bind_some]
    cases registry.get? name with
    | none => exact Decoder.offer_fields_gives (.inr ⟨name, names, rfl⟩)
    | some codec =>
      refine .after fun v => .of_keeps (.ofExcept fun o ho => ?_)
      exact (Value.offer_inMemory ho).of

end Input

end MessagePack
