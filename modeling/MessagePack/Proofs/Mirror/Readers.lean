import MessagePack.Proofs.Mirror.Offers
import MessagePack.Proofs.Readers.Entries
import MessagePack.Proofs.Value.Reading
import Mathlib.Data.List.Forall2

namespace MessagePack

open Decoding Decoder
open Value (ItemsSpelledBy EntriesSpelledBy)
open Wire (Element IsHeader)

variable {α β γ δ : Type} {bytes : List UInt8} {request : Request}

/-- Anything is made the same of in memory and from the session, read whole. -/
theorem Input.fold_mirrors {f : Fold α} (hf : f.SignBlind) :
    Reader.MirrorsUnless (fun _ => False) (Input.fold f) := by
  refine .never fun input input' bytes h => ?_
  cases h with
  | byte n => exact .ofExcept ((Token.unsigned n).fold f)
  | @spelled v _ hv =>
    intro d b d' rest hs hahead hright
    obtain ⟨w, bytes', elements, hw, hpassed, -, hfold⟩ := folded_of_foldLevels hs hright
    obtain ⟨rfl, -, hrest⟩ := hv.append_inj hw (hahead.symm.trans hpassed.ahead)
    exact .inr ⟨id, _, [], rfl, ⟨hfold hf, rfl⟩, hpassed.sound hs, hrest.symm⟩

namespace Decoding.MirrorsUnless

variable {X X' : Type} {list : List X} {list' : List X'} {trips : Prop}

/-- Rows of the same things in memory and in the session, with the bytes of each. What trips one of
them trips the row. -/
inductive Rows (P : X → X' → Prop → List UInt8 → Prop) :
    List X → List X' → Prop → List UInt8 → Prop
  | nil : Rows P [] [] False []
  | cons {x : X} {x' : X'} {list : List X} {list' : List X'} {trips rest : Prop}
      {first body : List UInt8} (head : P x x' trips first) (tail : Rows P list list' rest body) :
      Rows P (x :: list) (x' :: list') (trips ∨ rest) (first ++ body)

theorem Rows.of_iff {P : X → X' → Prop → List UInt8 → Prop} {trips' : Prop}
    (h : Rows P list list' trips bytes) (hiff : trips' ↔ trips) : Rows P list list' trips' bytes :=
  propext hiff ▸ h

theorem mapM {one : X → Decoding α} {one' : X' → Decoding α}
    (h : Rows (fun x x' trips bytes => MirrorsUnless trips Same (one x) (one' x') bytes) list list'
      trips bytes) : MirrorsUnless trips Same (list.mapM one) (list'.mapM one') bytes := by
  induction h with
  | nil => exact .pure ⟨rfl, rfl⟩
  | cons head _ ih =>
    rw [List.mapM_cons, List.mapM_cons]
    exact head.seq fun a _ => ih.map

theorem foldlM {step : α → X → Decoding α} {step' : α → X' → Decoding α}
    (h : Rows (fun x x' trips bytes =>
      ∀ a, MirrorsUnless trips Same (step a x) (step' a x') bytes) list list' trips bytes) (a : α) :
    MirrorsUnless trips Same (list.foldlM step a) (list'.foldlM step' a) bytes := by
  induction h generalizing a with
  | nil => exact .pure ⟨rfl, rfl⟩
  | cons head _ ih =>
    rw [List.foldlM_cons, List.foldlM_cons]
    exact (head a).seq fun b _ => ih b

/-- What the session refuses in the end, it has no answer to. -/
theorem refused {reading : Decoding γ} {first : Decoding α} {last : α → Decoding δ}
    {R : γ → δ → List UInt8 → Prop} (h : ∀ a, ∃ e, last a = MonadExcept.throw e) :
    MirrorsUnless trips R reading (first >>= last) bytes := by
  intro d b d' rest hs hahead hright
  obtain ⟨a, mid, -, hlast⟩ := bind_eq_ok_iff.mp hright
  obtain ⟨e, hthrow⟩ := h a
  rw [hthrow] at hlast
  exact absurd hlast throw_ne_ok

end Decoding.MirrorsUnless

open MirrorsUnless (Rows)

namespace Items

variable {items items' : Items} {one : Reader α} {trips : Value → Prop}

namespace Mirrored

theorem left_eq (h : items.Mirrored items' bytes) : items'.left = items.left := by
  cases h <;> rfl

theorem areTokens_eq (h : items.Mirrored items' bytes) : items'.areTokens = false := by
  cases h <;> rfl

/-- Each item stands before its own bytes. -/
theorem rows {P : Input → Input → Prop → List UInt8 → Prop} (h : items.Mirrored items' bytes)
    (hP : ∀ ⦃input input' : Input⦄ ⦃bytes : List UInt8⦄, input.Mirrored input' bytes →
      P input input' (input.Trips trips) bytes) :
    Rows P items.inputs items'.inputs (∃ w ∈ items.values, trips w) bytes := by
  cases h with
  | @spelled rest bytes taken total h =>
    simp only [inputs, values]
    induction rest generalizing bytes with
    | nil =>
      cases h
      exact Rows.nil.of_iff (by simp)
    | cons v rest ih =>
      cases h with
      | cons head tail =>
        exact (Rows.cons (hP (.spelled head)) (ih tail)).of_iff (by simp [Input.Trips])
  | octets taken rest =>
    simp only [inputs, values]
    induction rest with
    | nil => exact Rows.nil.of_iff (by simp)
    | cons b rest ih =>
      exact (Rows.cons (hP (.byte b.toUInt64)) ih).of_iff (by simp [Input.Trips])

theorem zip_iff (h : items.Mirrored items' bytes) {trips : List (Value → Prop)} :
    (∃ pair ∈ trips.zip items.inputs, pair.2.Trips pair.1) ↔
      ∃ pair ∈ trips.zip items.values, pair.1 pair.2 := by
  cases h with
  | spelled taken total h => simp [inputs, values, List.zip_map_right, Input.Trips]
  | octets taken rest =>
    simp only [inputs, values, List.zip_map_right, List.zip_nil_right]
    simp [Input.Trips]

end Mirrored

/-- All items are read, so any of them may trip. -/
theorem readAll_mirrors (hone : one.MirrorsUnless trips) (h : items.Mirrored items' bytes) :
    MirrorsUnless (∃ w ∈ items.values, trips w) Same (items.readAll one) (items'.readAll one)
      bytes := by
  rw [readAll_eq, readAll_eq]
  exact .mapM (h.rows hone)

/-- A row of readers with as many inputs, each tripped by what trips the reader. -/
theorem zip_rows {trips : List (Value → Prop)} {readers : List (Reader α)}
    (hreaders : List.Forall₂ Reader.MirrorsUnless trips readers)
    {inputs inputs' : List Input} {t : Prop}
    (h : Rows (fun input input' _ bytes => input.Mirrored input' bytes) inputs inputs' t bytes)
    (hlength : inputs.length = readers.length) :
    Rows (fun pair pair' trips bytes =>
      MirrorsUnless trips Same (pair.1 pair.2) (pair'.1 pair'.2) bytes)
      (readers.zip inputs) (readers.zip inputs')
      (∃ pair ∈ trips.zip inputs, pair.2.Trips pair.1) bytes := by
  induction hreaders generalizing inputs inputs' bytes t with
  | nil =>
    cases h with
    | nil => simpa using .nil
    | cons _ _ => cases hlength
  | cons hone _ ih =>
    cases h with
    | nil => cases hlength
    | cons head tail =>
      have hrest := ih tail (Nat.succ.inj hlength)
      simpa using Rows.cons (hone head) hrest

/-- An item may trip the reader at its position. -/
theorem readTuple_mirrors {trips : List (Value → Prop)} {readers : List (Reader α)}
    (hreaders : List.Forall₂ Reader.MirrorsUnless trips readers) (h : items.Mirrored items' bytes)
    (expected : String) :
    MirrorsUnless (∃ pair ∈ trips.zip items.values, pair.1 pair.2) Same
      (items.readTuple expected readers) (items'.readTuple expected readers) bytes := by
  rw [readTuple_eq, readTuple_eq]
  by_cases hleft : items'.left = readers.length
  · have hleft' : items.left = readers.length := h.left_eq ▸ hleft
    have hrows : Rows (fun input input' _ bytes => input.Mirrored input' bytes) items.inputs
        items'.inputs (∃ w ∈ items.values, False) bytes := h.rows fun _ _ _ => id
    have hzip := zip_rows hreaders hrows (items.length_inputs.trans hleft')
    rw [close_of_left_eq hleft, close_of_left_eq hleft']
    exact ((MirrorsUnless.mapM hzip).follow fun _ _ => .pure ⟨rfl, rfl⟩).of_iff h.zip_iff.symm
  · obtain ⟨e, hclose⟩ := close_of_left_ne h.areTokens_eq hleft
    refine .refused fun list => ⟨e, ?_⟩
    rw [hclose]
    rfl

end Items

namespace Choices

variable (known : Choices α)

theorem settle_mirrors (choice : Option α) (rejection : Rejection) :
    MirrorsUnless False Same (known.settle choice rejection) (known.settle choice rejection)
      [] := by
  unfold settle
  split
  · exact .pure ⟨rfl, rfl⟩
  · exact .throw_right

theorem take_mirrors {o o' : Offer} (h : o.Mirrored .identifier o' bytes) :
    MirrorsUnless False Same (known.take o) (known.take o') bytes := by
  cases h with
  | scalar h => cases o <;> first | exact known.settle_mirrors _ _ | exact .throw_right
  | _ => exact .throw_right

theorem read_mirrors : Reader.MirrorsUnless (fun _ => False) known.read := by
  refine .never fun input input' bytes h => ?_
  rw [read_eq, read_eq]
  exact (Input.ask_mirrors h .identifier rfl).after fun _ _ _ _ ho => known.take_mirrors ho

/-- The bytes of a raw are the same key in memory and as what they stand for. -/
theorem rawKey_mirrors (data : List UInt8) :
    MirrorsUnless False Same (known.read (.tree (.raw data))) (known.read (Entries.rawKey data))
      [] := by
  have htree : Input.ask .empty .identifier (.tree (.raw data)) =
      pure (Value.raw data).offerAny := rfl
  rw [read_eq, read_eq, htree, Entries.rawKey, Value.offerAny]
  cases Text.ofUtf8? data with
  | some s => exact known.take_mirrors (o := .text s) (.scalar trivial)
  | none => exact known.take_mirrors (o := .octets data) (.scalar trivial)

/-- A key of a structure makes the same choice whatever table of fields there is. -/
theorem key_mirrors (table : Option Fields) {k : Value} (h : k.SpelledBy bytes) :
    MirrorsUnless False Same (known.read (.tree k)) (Entries.key table >>= known.read) bytes := by
  have hplain : MirrorsUnless False Same (known.read (.tree k)) (known.read .wire) bytes :=
    known.read_mirrors (.spelled h)
  cases table with
  | none => exact hplain
  | some fields =>
    rw [Entries.key, bind_assoc]
    refine .peek fun marker _ => ?_
    split
    · rw [Entries.fieldKey_eq, bind_assoc]
      cases h with
      | @raw data _ h =>
        exact .raw h (bind_assoc _ _ _) Entries.keyBytes_eq_ok_iff.mp (known.rawKey_mirrors data)
      | nil h | bool h | uint h | int h | f32 h | f64 h => exact .scalar h .throw_right
      | array h _ | map h _ => exact .element h .throw_right
    · exact hplain

theorem byText?_eq (s : String) : known.byText? s = known.byBytes? (Text.utf8 s) := by
  have hname (name : String) : (s == name) = (Text.utf8 name == Text.utf8 s) := by
    rw [Bool.eq_iff_iff, beq_iff_eq, beq_iff_eq, Text.utf8_inj, eq_comm]
  unfold byText? byBytes?
  induction known.choices with
  | nil => rfl
  | cons choice choices ih =>
    obtain ⟨name, a⟩ := choice
    rw [List.lookup_cons, List.find?_cons, hname]
    dsimp only
    cases Text.utf8 name == Text.utf8 s
    · exact ih
    · rfl

variable {known}

theorem or_eq_some_of_settle {choice : Option α} {rejection : Rejection} {a : α}
    (h : known.settle choice rejection = pure a) : choice.or known.otherwise = some a := by
  unfold settle at h
  cases hchoice : choice.or known.otherwise with
  | some b =>
    rw [hchoice] at h
    rw [pure_inj h]
  | none =>
    rw [hchoice] at h
    exact absurd h throw_ne_pure

/-- What a key in memory chooses is what it picks of the choices, or what any other key stands
for. -/
theorem or_eq_some_of_read {k : Value} {a : α} (h : known.read (.tree k) = pure a) :
    (k.pick known.choices).or known.otherwise = some a := by
  have htake : known.take k.offerAny = pure a := by
    rw [← h, read_eq]
    rfl
  cases k with
  | raw data =>
    simp only [Value.offerAny] at htake
    cases htext : Text.ofUtf8? data with
    | some s =>
      rw [htext] at htake
      have hchoice := or_eq_some_of_settle htake
      rwa [byText?_eq, Text.utf8_eq_of_ofUtf8? htext] at hchoice
    | none =>
      rw [htext] at htake
      exact or_eq_some_of_settle htake
  | int n =>
    simp only [Value.offerAny, Integer.form] at htake
    by_cases hneg : n.val < 0
    · rw [if_pos hneg] at htake
      exact absurd htake throw_ne_pure
    · rw [if_neg hneg] at htake
      have hchoice := or_eq_some_of_settle htake
      have hlt := n.lt
      have hsize : n.val.toNat < UInt64.size := by simp only [UInt64.size]; omega
      rw [UInt64.toNat_ofNat_of_lt' hsize] at hchoice
      rwa [Value.pick, if_pos (by omega)]
  | _ => exact absurd htake throw_ne_pure

end Choices

/-- A key picks related things of two lists with the same names. -/
theorem Value.pick_rel {P : α → β → Prop} {list : List (String × α)} {list' : List (String × β)}
    (h : List.Forall₂ (fun x y => x.1 = y.1 ∧ P x.2 y.2) list list') (k : Value) :
    Option.Rel P (k.pick list) (k.pick list') := by
  cases k with
  | raw data =>
    simp only [pick]
    induction h with
    | nil => exact .none
    | cons hhead _ ih =>
      rw [List.find?_cons, List.find?_cons, hhead.1]
      split
      · exact .some hhead.2
      · exact ih
  | int n =>
    simp only [pick]
    split
    · generalize n.val.toNat = i
      induction h generalizing i with
      | nil => exact .none
      | cons hhead _ ih =>
        cases i with
        | zero => exact .some hhead.2
        | succ i => simpa using ih i
    · exact .none
  | _ => exact .none

/-- A key that has made its choice picks what belongs to the choice, or it is one of those that all
stand for the same. -/
theorem Choices.picked_of_read {known : Choices α} {P : β → α → Prop} {list : List (String × β)}
    (hlist : List.Forall₂ (fun x choice => x.1 = choice.1 ∧ P x.2 choice.2) list known.choices)
    {k : Value} {a : α} (h : known.read (.tree k) = pure a) :
    (∃ picked, k.pick list = some picked ∧ P picked a) ∨
      k.pick list = none ∧ known.otherwise = some a := by
  have hchoice := or_eq_some_of_read h
  have hrel := Value.pick_rel hlist k
  cases hpick : k.pick list with
  | some picked =>
    rw [hpick] at hrel
    generalize k.pick known.choices = chosen at hchoice hrel
    cases hrel with
    | some hP => exact .inl ⟨picked, rfl, Option.some.inj hchoice ▸ hP⟩
  | none =>
    rw [hpick] at hrel
    generalize k.pick known.choices = chosen at hchoice hrel
    cases hrel with
    | none => exact .inr ⟨rfl, hchoice⟩

namespace Entries

variable {entries entries' : Entries} {one : Reader α} {item : Reader β}
  {keyTrips itemTrips : Value → Prop} {after : Value × Value → Prop}

/-- The key of one of the entries trips, or what comes after the key. -/
def Trips (keyTrips : Value → Prop) (after : Value × Value → Prop) (entries : Entries) : Prop :=
  ∃ entry ∈ entries.values, keyTrips entry.1 ∨ after entry

/-- The same entries in memory and in the session, where the reader of the keys makes the same of
each key that does not trip. -/
inductive Mirrored (keyTrips : Value → Prop) (one : Reader α) :
    Entries → Entries → List UInt8 → Prop
  | spelled {rest : List (Value × Value)} {bytes : List UInt8} {table : Option Fields}
      (taken total : Nat) (h : EntriesSpelledBy rest bytes)
      (key : ∀ ⦃k : Value⦄ ⦃first : List UInt8⦄, k.SpelledBy first →
        MirrorsUnless (keyTrips k) Same (one (.tree k)) (key table >>= one) first) :
      Mirrored keyTrips one (.tree taken rest) (.wire rest.length total table) bytes

/-- Without a table of fields any reader may read the keys. -/
theorem mirrored_of_spelled (hone : one.MirrorsUnless keyTrips) {rest : List (Value × Value)}
    (h : EntriesSpelledBy rest bytes) (taken total : Nat) :
    Mirrored keyTrips one (.tree taken rest) (.wire rest.length total none) bytes :=
  .spelled taken total h fun _ _ hk => hone (.spelled hk)

theorem Mirrored.left_eq (h : Mirrored keyTrips one entries entries' bytes) :
    entries'.left = entries.left := by
  cases h
  rfl

/-- Each entry stands before its own bytes. -/
theorem Mirrored.rows
    {P : Decoding Input × Input → Decoding Input × Input → Prop → List UInt8 → Prop}
    (h : Mirrored keyTrips one entries entries' bytes)
    (hP : ∀ ⦃k v : Value⦄ ⦃key' : Decoding Input⦄ ⦃first second : List UInt8⦄,
      MirrorsUnless (keyTrips k) Same (one (.tree k)) (key' >>= one) first → v.SpelledBy second →
      P (pure (.tree k), .tree v) (key', .wire) (keyTrips k ∨ after (k, v)) (first ++ second)) :
    Rows P entries.pairs entries'.pairs (entries.Trips keyTrips after) bytes := by
  cases h with
  | @spelled rest bytes table taken total h hkey =>
    simp only [pairs, Trips, values]
    induction rest generalizing bytes with
    | nil =>
      cases h
      exact Rows.nil.of_iff (by simp)
    | cons entry rest ih =>
      cases h with
      | cons key item tail =>
        rw [← List.append_assoc]
        exact (Rows.cons (hP (hkey key) item) (ih tail)).of_iff (by simp)

theorem readEntry_mirrors (hitem : item.MirrorsUnless itemTrips) {k v : Value}
    {key' : Decoding Input} {first second : List UInt8}
    (hkey : MirrorsUnless (keyTrips k) Same (one (.tree k)) (key' >>= one) first)
    (hv : v.SpelledBy second) :
    MirrorsUnless (keyTrips k ∨ itemTrips v) Same (readEntry one item (pure (.tree k), .tree v))
      (readEntry one item (key', .wire)) (first ++ second) := by
  rw [readEntry, readEntry, pure_bind]
  exact hkey.seq fun _ _ => (hitem (.spelled hv)).map

theorem readAll_mirrors (hitem : item.MirrorsUnless itemTrips)
    (h : Mirrored keyTrips one entries entries' bytes) :
    MirrorsUnless (entries.Trips keyTrips fun entry => itemTrips entry.2) Same
      (entries.readAll one item) (entries'.readAll one item) bytes := by
  rw [readAll_eq, readAll_eq]
  exact .mapM (h.rows fun _ _ _ _ _ => readEntry_mirrors hitem)

/-- Entries that are left over are refused by the session. -/
theorem readPart_mirrors (hitem : item.MirrorsUnless itemTrips)
    (h : Mirrored keyTrips one entries entries' bytes) (count : Nat) :
    MirrorsUnless (entries.Trips keyTrips fun entry => itemTrips entry.2) Same
      (entries.readPart count one item) (entries'.readPart count one item) bytes := by
  by_cases hcount : entries'.left ≤ count
  · have hcount' : entries.left ≤ count := h.left_eq ▸ hcount
    rw [readPart_of_le hcount, readPart_of_le hcount']
    exact readAll_mirrors hitem h
  · cases h with
    | @spelled rest _ table taken total _ _ =>
      have hlt : min count rest.length < rest.length := by
        have hleft : (Entries.wire rest.length total table).left = rest.length := rfl
        omega
      obtain ⟨e, hfinish⟩ := finish_skip_wire_of_lt hlt total table
      rw [readPart_eq (.wire rest.length total table)]
      refine .refused fun list => ⟨e, ?_⟩
      change ((wire rest.length total table).skip (min count rest.length)).finish >>= _ = _
      rw [hfinish]
      rfl

end Entries

namespace FieldReader

variable {trips : List (String × (Value → Prop))} {fields : List FieldReader}
  {entries entries' : Entries}

/-- What trips the reader of each field, under the field's name. -/
def MirrorUnless (trips : List (String × (Value → Prop))) (fields : List FieldReader) : Prop :=
  List.Forall₂ (fun trip field => trip.1 = field.name ∧ field.read.MirrorsUnless trip.2) trips
    fields

/-- What a key of the fields picks trips the field's reader. -/
def Fits (picked : Value → Prop) : Option (Nat × FieldReader) → Prop
  | some (_, field) => field.read.MirrorsUnless picked
  | none => False

theorem MirrorUnless.keys (h : MirrorUnless trips fields) (strict : Bool) :
    List.Forall₂ (fun trip choice => trip.1 = choice.1 ∧ Fits trip.2 choice.2) trips
      (keys fields strict).choices := by
  unfold FieldReader.keys
  dsimp only
  generalize 0 = slot
  induction h generalizing slot with
  | nil => exact .nil
  | cons hhead _ ih => exact .cons hhead (ih (slot + 1))

/-- An entry whose key picks a field trips the field's reader or nothing. -/
theorem fillSlot_mirrors (hfields : MirrorUnless trips fields) (strict : Bool) {k v : Value}
    {key' : Decoding Input} {first second : List UInt8}
    (hkey : MirrorsUnless False Same ((keys fields strict).read (.tree k))
      (key' >>= (keys fields strict).read) first) (hv : v.SpelledBy second)
    (slots : List (Option Item)) :
    MirrorsUnless (False ∨ ∃ picked, k.pick trips = some picked ∧ picked v) Same
      (fillSlot (keys fields strict) slots (pure (.tree k), .tree v))
      (fillSlot (keys fields strict) slots (key', .wire)) (first ++ second) := by
  rw [fillSlot, fillSlot, pure_bind]
  refine hkey.seq fun chosen hread => ?_
  -- The key picks what trips the very field that it has chosen, or it is no field's at all.
  rcases Choices.picked_of_read (hfields.keys strict) hread with
    ⟨picked, hpick, hfits⟩ | ⟨hpick, hother⟩
  · cases chosen with
    | none => exact hfits.elim
    | some chosen =>
      obtain ⟨slot, field⟩ := chosen
      have hfield : field.read.MirrorsUnless picked := hfits
      dsimp only
      split
      · exact .throw_right
      · exact (hfield (.spelled hv)).map.of_iff (by simp [hpick, Input.Trips])
  · obtain rfl : chosen = none := by
      cases strict
      · exact (Option.some.inj hother).symm
      · cases hother
    have hskip := Input.fold_mirrors Fold.signBlind_ignored (.spelled hv)
    exact hskip.map.of_iff (by simp [hpick, Input.Trips])

/-- In a map the entries trip whose keys pick what they trip. -/
theorem readEntries_mirrors (hfields : MirrorUnless trips fields) (strict : Bool)
    (h : Entries.Mirrored (fun _ => False) (keys fields strict).read entries entries' bytes) :
    MirrorsUnless (∃ entry ∈ entries.values, ∃ picked,
        entry.1.pick trips = some picked ∧ picked entry.2) Same
      (readEntries fields strict entries) (readEntries fields strict entries') bytes := by
  rw [readEntries_eq, readEntries_eq]
  have hslots : MirrorsUnless (entries.Trips (fun _ => False) fun entry => ∃ picked,
        entry.1.pick trips = some picked ∧ picked entry.2) Same
      (entries.pairs.foldlM (fillSlot (keys fields strict)) (List.replicate fields.length none))
      (entries'.pairs.foldlM (fillSlot (keys fields strict)) (List.replicate fields.length none))
      bytes :=
    .foldlM (h.rows fun _ _ _ _ _ => fillSlot_mirrors hfields strict) _
  exact (hslots.follow fun slots _ => .ofExcept _).of_iff (by simp [Entries.Trips])

/-- From a sequence the fields come in order, from a map as the keys say. -/
theorem readOffer_mirrors (hfields : MirrorUnless trips fields) (strict : Bool) (expected : String)
    {input : Input} {o o' : Offer} (htold : o.Tells input) (h : o.Mirrored request o' bytes) :
    MirrorsUnless
      (input.Trips fun v => v.ItemTrips (trips.map Prod.snd) ∨ v.EntryTrips trips) Same
      (readOffer fields strict expected o) (readOffer fields strict expected o') bytes := by
  have hparts := input.trips_iff (P := fun items entries =>
    (∃ pair ∈ (trips.map Prod.snd).zip items, pair.1 pair.2) ∨
      ∃ entry ∈ entries, ∃ picked, entry.1.pick trips = some picked ∧ picked entry.2) (by simp)
  refine .of_iff ?_ hparts
  cases h with
  | @map rest _ table taken total h htable =>
    obtain ⟨hitems, hentries⟩ := htold
    have hall := readEntries_mirrors hfields strict
      (.spelled taken total h fun k first hk => (keys fields strict).key_mirrors table hk)
    exact hall.of_iff (by simp [hitems, hentries])
  | seq h =>
    obtain ⟨hitems, hentries⟩ := htold
    have hreaders : List.Forall₂ Reader.MirrorsUnless (trips.map Prod.snd) (fields.map read) := by
      rw [List.forall₂_map_left_iff, List.forall₂_map_right_iff]
      exact hfields.imp fun _ _ hfield => hfield.2
    have hall := Items.readTuple_mirrors hreaders h (withElements expected fields.length)
    exact (hall.of_iff (by simp [hitems, hentries])).map
  | scalar h => cases o <;> first | exact .throw_right | exact h.elim
  | _ => exact .throw_right

end FieldReader

end MessagePack
