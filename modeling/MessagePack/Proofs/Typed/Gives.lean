import MessagePack.Proofs.Typed.InMemory

namespace MessagePack

/-- `P` holds of whatever the reading answers, wherever it starts. -/
def Decoding.Gives {α : Type} (P : α → Prop) (reading : Decoding α) : Prop :=
  ∀ ⦃d : Decoder⦄ ⦃a : α⦄ ⦃d' : Decoder⦄, reading d = .ok a d' → P a

namespace Decoding.Gives

variable {α β : Type} {P : α → Prop} {Q : β → Prop}

theorem any (reading : Decoding α) : Gives (fun _ => True) reading :=
  fun _ _ _ _ => trivial

theorem of_keeps {reading : Decoding α} (h : Keeps P reading) : Gives P reading :=
  fun _ _ _ hok => (h hok).2

theorem pure {a : α} (h : P a) : Gives P (Pure.pure a) := of_keeps (.pure h)

theorem throw {e : Error} : Gives P (MonadExcept.throw e) := of_keeps .throw

theorem mono {P' : α → Prop} {reading : Decoding α} (h : Gives P reading)
    (hP : ∀ a, P a → P' a) : Gives P' reading :=
  fun _ _ _ hok => hP _ (h hok)

theorem bind {first : Decoding α} {next : α → Decoding β} (h : Gives P first)
    (h' : ∀ a, P a → Gives Q (next a)) : Gives Q (first >>= next) := by
  intro d b d' hok
  obtain ⟨a, mid, hfirst, hnext⟩ := bind_eq_ok_iff.mp hok
  exact h' a (h hfirst) hnext

/-- What comes first may be anything. -/
theorem after {first : Decoding α} {next : α → Decoding β} (h : ∀ a, Gives Q (next a)) :
    Gives Q (first >>= next) :=
  (any first).bind fun a _ => h a

theorem map {first : Decoding α} {f : α → β} (h : Gives P first) (hf : ∀ a, P a → Q (f a)) :
    Gives Q (first >>= fun a => Pure.pure (f a)) :=
  h.bind fun a ha => .pure (hf a ha)

theorem mapM {X : Type} {one : X → Decoding α} {list : List X} (h : ∀ x ∈ list, Gives P (one x)) :
    Gives (fun answers => ∀ a ∈ answers, P a) (list.mapM one) := by
  induction list with
  | nil => exact .pure (List.forall_mem_nil P)
  | cons x list ih =>
    obtain ⟨hone, hrest⟩ := List.forall_mem_cons.mp h
    rw [List.mapM_cons]
    exact hone.bind fun a ha => (ih hrest).map fun _ hanswers =>
      List.forall_mem_cons.mpr ⟨ha, hanswers⟩

/-- What holds to begin with and is kept by every step holds in the end. -/
theorem foldlM {X : Type} {step : α → X → Decoding α} {list : List X}
    (h : ∀ x ∈ list, ∀ a, P a → Gives P (step a x)) {a : α} (ha : P a) :
    Gives P (list.foldlM step a) := by
  induction list generalizing a with
  | nil => exact .pure ha
  | cons x list ih =>
    obtain ⟨hstep, hrest⟩ := List.forall_mem_cons.mp h
    rw [List.foldlM_cons]
    exact (hstep a ha).bind fun b hb => ih hrest hb

end Decoding.Gives

open Decoding

/-- From an input of the class the reader answers what `P` holds of. -/
def Reader.Gives {α : Type} (C : Input → Prop) (P : α → Prop) (one : Reader α) : Prop :=
  ∀ input, C input → Decoding.Gives P (one input)

/-- The items are read from inputs of the class. -/
def Items.Of (C : Input → Prop) (items : Items) : Prop :=
  ∀ input ∈ items.inputs, C input

/-- The values of the entries are read from inputs of the class, and so are the keys unless a table
of fields reads them. -/
def Entries.Of (C : Input → Prop) : Entries → Prop
  | wire .. => C .wire
  | tree _ rest => ∀ entry ∈ rest, C (.tree entry.1) ∧ C (.tree entry.2)
  | tokens _ rest => ∀ entry ∈ rest, C (.token entry.1) ∧ C (.token entry.2)

/-- No table of fields reads the keys. -/
def Entries.IsPlain : Entries → Prop
  | wire _ _ fields => fields = none
  | _ => True

/-- What is inside the offer is read from inputs of the class. -/
def Offer.Of (C : Input → Prop) : Offer → Prop
  | present content | newtype content => C content
  | seq items => items.Of C
  | map entries => entries.Of C
  | _ => True

variable {α β : Type} {C : Input → Prop} {P : α → Prop} {Q : β → Prop}

namespace Items

variable {one : Reader α}

theorem readAll_gives (hone : one.Gives C P) {items : Items} (h : items.Of C) :
    Decoding.Gives (fun list => ∀ a ∈ list, P a) (items.readAll one) := by
  rw [readAll_eq]
  exact .mapM fun input hmem => hone input (h input hmem)

theorem readTuple_gives {readers : List (Reader α)} (hone : ∀ one ∈ readers, one.Gives C P)
    {items : Items} (h : items.Of C) (expected : String) :
    Decoding.Gives (fun list => ∀ a ∈ list, P a) (items.readTuple expected readers) := by
  have hzip : ∀ pair ∈ readers.zip items.inputs, Decoding.Gives P (pair.1 pair.2) := by
    intro pair hmem
    obtain ⟨hreader, hinput⟩ := List.of_mem_zip hmem
    exact hone pair.1 hreader pair.2 (h pair.2 hinput)
  rw [readTuple_eq]
  exact (Decoding.Gives.mapM hzip).bind fun _ hlist => .after fun _ => .pure hlist

end Items

namespace Entries

variable {key : Reader α} {item : Reader β}

theorem Of.pairValue {entries : Entries} (h : entries.Of C) {pair : Decoding Input × Input}
    (hmem : pair ∈ entries.pairs) : C pair.2 := by
  cases entries with
  | wire left total fields =>
    obtain ⟨-, rfl⟩ := List.mem_replicate.mp hmem
    exact h
  | tree taken rest | tokens hint rest =>
    obtain ⟨entry, hentry, rfl⟩ := List.mem_map.mp hmem
    exact (h entry hentry).2

theorem Of.pairKey {entries : Entries} (h : entries.Of C) (hplain : entries.IsPlain)
    {pair : Decoding Input × Input} (hmem : pair ∈ entries.pairs) :
    Decoding.Gives C pair.1 := by
  cases entries with
  | wire left total fields =>
    obtain rfl : fields = none := hplain
    obtain ⟨-, rfl⟩ := List.mem_replicate.mp hmem
    exact .pure h
  | tree taken rest | tokens hint rest =>
    obtain ⟨entry, hentry, rfl⟩ := List.mem_map.mp hmem
    exact .pure (h entry hentry).1

theorem readPart_gives (hkey : key.Gives C P) (hitem : item.Gives C Q) {entries : Entries}
    (h : entries.Of C) (hplain : entries.IsPlain) (count : Nat) :
    Decoding.Gives (fun list => ∀ entry ∈ list, P entry.1 ∧ Q entry.2)
      (entries.readPart count key item) := by
  have hentry : ∀ pair ∈ entries.pairs.take count,
      Decoding.Gives (fun entry => P entry.1 ∧ Q entry.2) (readEntry key item pair) := by
    intro pair hmem
    have hpair := List.mem_of_mem_take hmem
    exact ((h.pairKey hplain hpair).bind hkey).bind fun k hk =>
      (hitem pair.2 (h.pairValue hpair)).map fun v hv => ⟨hk, hv⟩
  rw [readPart_eq]
  exact (Decoding.Gives.mapM hentry).bind fun _ hlist => .after fun _ => .pure hlist

end Entries

/-- From wherever a key is read, it stands for one of the choices. -/
theorem Choices.read_gives (known : Choices α) (input : Input) :
    Decoding.Gives known.Offers (known.read input) := by
  rw [read_eq]
  exact .after fun o => .of_keeps ((known.take_keeps o).mono fun _ h => h.2)

namespace FieldReader

variable {fields : List FieldReader} {P : Item → Prop}
  (hfields : ∀ field ∈ fields, field.read.Gives C P)

include hfields

theorem fillSlot_gives {strict : Bool} {pair : Decoding Input × Input} (h : C pair.2)
    {slots : List (Option Item)} (hslots : ∀ item, some item ∈ slots → P item) :
    Decoding.Gives (fun slots => ∀ item, some item ∈ slots → P item)
      (fillSlot (keys fields strict) slots pair) := by
  have hchoice : Decoding.Gives (keys fields strict).Offers
      (pair.1 >>= (keys fields strict).read) := .after (keys fields strict).read_gives
  refine hchoice.bind fun chosen hchosen => ?_
  cases chosen with
  | none => exact .after fun _ => .pure hslots
  | some chosen =>
    obtain ⟨slot, field⟩ := chosen
    have hread : Decoding.Gives (fun slots => ∀ item, some item ∈ slots → P item)
        (field.read pair.2 >>= fun item => pure (slots.set slot (some item))) := by
      refine (hfields field (mem_of_offers hchosen) pair.2 h).map fun item hitem other hmem => ?_
      rcases List.mem_or_eq_of_mem_set hmem with hold | hnew
      · exact hslots other hold
      · cases hnew
        exact hitem
    dsimp only
    split
    · exact .after fun _ => hread
    · exact hread

omit hfields in
/-- A field is what was read for it, or absent if there was nothing. -/
theorem exists_of_collect_cons {field : FieldReader} {slot : Option Item}
    {slots : List (Option Item)} {list : List (String × Item)}
    (h : collect (field :: fields) (slot :: slots) = .ok list) :
    ∃ item rest, (slot = some item ∨ item = .absent) ∧ collect fields slots = .ok rest ∧
      list = (field.name, item) :: rest := by
  simp only [collect] at h
  cases hrest : collect fields slots with
  | error e =>
    rw [hrest] at h
    cases slot with
    | some item => cases h
    | none =>
      dsimp only at h
      split at h <;> cases h
  | ok rest =>
    rw [hrest] at h
    cases slot with
    | some item => exact ⟨item, rest, .inl rfl, rfl, (Except.ok.inj h).symm⟩
    | none =>
      dsimp only at h
      split at h
      · exact ⟨.absent, rest, .inr rfl, rfl, (Except.ok.inj h).symm⟩
      · cases h

omit hfields in
theorem of_collect (habsent : P .absent) {slots : List (Option Item)}
    (hslots : ∀ item, some item ∈ slots → P item) {list : List (String × Item)}
    (h : collect fields slots = .ok list) : ∀ field ∈ list, P field.2 := by
  induction fields generalizing slots list with
  | nil =>
    obtain rfl := Except.ok.inj h
    exact List.forall_mem_nil _
  | cons field fields ih =>
    cases slots with
    | nil =>
      obtain rfl := Except.ok.inj h
      exact List.forall_mem_nil _
    | cons slot slots =>
      obtain ⟨item, rest, hslot, hrest, rfl⟩ := exists_of_collect_cons h
      have hitem : P item := by
        rcases hslot with rfl | rfl
        · exact hslots item List.mem_cons_self
        · exact habsent
      have hothers : ∀ field ∈ rest, P field.2 :=
        ih (fun other hmem => hslots other (List.mem_cons_of_mem _ hmem)) hrest
      exact List.forall_mem_cons.mpr ⟨hitem, hothers⟩

theorem readEntries_gives (habsent : P .absent) (strict : Bool) {entries : Entries}
    (h : entries.Of C) :
    Decoding.Gives (fun list => ∀ field ∈ list, P field.2) (readEntries fields strict entries) := by
  have hempty (item : Item) (hmem : some item ∈ List.replicate fields.length none) : P item :=
    nomatch (List.mem_replicate.mp hmem).2
  rw [readEntries_eq]
  have hslots : Decoding.Gives (fun slots => ∀ item, some item ∈ slots → P item)
      (entries.pairs.foldlM (fillSlot (keys fields strict)) (List.replicate fields.length none)) :=
    .foldlM (fun pair hmem _ => fillSlot_gives hfields (h.pairValue hmem)) hempty
  exact hslots.bind fun _ hall => .of_keeps (.ofExcept fun _ => of_collect habsent hall)

theorem readOffer_gives (habsent : P .absent) (strict : Bool) (expected : String) {o : Offer}
    (h : o.Of C) :
    Decoding.Gives (fun list => ∀ field ∈ list, P field.2)
      (readOffer fields strict expected o) := by
  cases o with
  | map entries => exact readEntries_gives hfields habsent strict h
  | seq items =>
    have hreaders : ∀ one ∈ fields.map read, one.Gives C P := by
      intro one hone
      obtain ⟨field, hmem, rfl⟩ := List.mem_map.mp hone
      exact hfields field hmem
    refine (Items.readTuple_gives hreaders h _).map fun list hlist field hmem => ?_
    exact hlist _ (List.of_mem_zip hmem).2
  | _ => exact .throw

end FieldReader

end MessagePack
