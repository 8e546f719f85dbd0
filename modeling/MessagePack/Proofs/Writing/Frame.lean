import MessagePack.Data.Encode

namespace MessagePack.Data

/-- The ways to write some items as a sequence that announces no wrong length. It does so `late` if
the items are counted while they are written to the side. -/
inductive IsSequence (items : List Data) : Bool → Data → Prop
  | known : IsSequence items false (.seq (some items.length) items)
  | unknown : IsSequence items true (.seq none items)
  | hinted : IsSequence items false (.collectSeq (some items.length) items)
  | collected : IsSequence items false (.collectSeq none items)

/-- The ways to write some entries as a map that announces no wrong length. -/
inductive IsMapping (entries : List (Data × Data)) : Bool → Data → Prop
  | known : IsMapping entries false (.map (some entries.length) entries)
  | unknown : IsMapping entries true (.map none entries)
  | hinted : IsMapping entries false (.collectMap (some entries.length) entries)
  | collected : IsMapping entries false (.collectMap none entries)

section

variable {config : Config} {registry : Registry}

/-- The count after the items is of no consequence if the hint does not lie. -/
theorem encode_collectSeq {hint : Option Nat} {items : List Data}
    (h : hint.getD items.length = items.length) :
    (collectSeq hint items).encode config registry =
      (seq (some items.length) items).encode config registry := by
  rw [encode, encode, h]
  simp only [ne_eq, not_true_eq_false, if_false]
  exact congrArg _ (funext fun _ => bind_pure_unit)

theorem encode_collectMap {hint : Option Nat} {entries : List (Data × Data)}
    (h : hint.getD entries.length = entries.length) :
    (collectMap hint entries).encode config registry =
      (map (some entries.length) entries).encode config registry := by
  rw [encode, encode, h]
  simp only [ne_eq, not_true_eq_false, if_false]
  exact congrArg _ (funext fun _ => bind_pure_unit)

/-- All ways to announce the items early are written the same. -/
theorem IsSequence.encode_early {items : List Data} {d : Data} (h : IsSequence items false d) :
    d.encode config registry = (seq (some items.length) items).encode config registry := by
  cases h with
  | known => rfl
  | hinted | collected => exact encode_collectSeq rfl

theorem IsMapping.encode_early {entries : List (Data × Data)} {d : Data}
    (h : IsMapping entries false d) :
    d.encode config registry = (map (some entries.length) entries).encode config registry := by
  cases h with
  | known => rfl
  | hinted | collected => exact encode_collectMap rfl

theorem IsSequence.eq_of_late {items : List Data} {d : Data} (h : IsSequence items true d) :
    d = .seq none items := by
  cases h
  rfl

theorem IsMapping.eq_of_late {entries : List (Data × Data)} {d : Data}
    (h : IsMapping entries true d) : d = .map none entries := by
  cases h
  rfl

end

/-- A place for data among the items of a list. -/
structure ItemPlace where
  before : List Data
  after : List Data

/-- A place for data among entries, as the key or as the value of one of them. -/
inductive EntryPlace where
  | asKey (before : List (Data × Data)) (v : Data) (after : List (Data × Data))
  | asValue (before : List (Data × Data)) (k : Data) (after : List (Data × Data))

/-- A place for data among named fields. -/
structure FieldPlace where
  before : List (String × Data)
  name : String
  after : List (String × Data)

def ItemPlace.fill (place : ItemPlace) (d : Data) : List Data :=
  place.before ++ d :: place.after

def EntryPlace.fill (place : EntryPlace) (d : Data) : List (Data × Data) :=
  match place with
  | asKey before v after => before ++ (d, v) :: after
  | asValue before k after => before ++ (k, d) :: after

def FieldPlace.fill (place : FieldPlace) (d : Data) : List (String × Data) :=
  place.before ++ (place.name, d) :: place.after

/-- A node of data with a place for one of its parts. Under `coder` the part is written by an
encoder of its own, with its own registry and settings. -/
inductive Frame where
  | present
  | seq (len : Option Nat) (place : ItemPlace)
  | map (len : Option Nat) (place : EntryPlace)
  | collectSeq (hint : Option Nat) (place : ItemPlace)
  | collectMap (hint : Option Nat) (place : EntryPlace)
  | tuple (place : ItemPlace)
  | tupleStruct (name : String) (place : ItemPlace)
  | newtype (name : String)
  | struct (name : String) (place : FieldPlace)
  | newtypeVariant (type variant : String)
  | tupleVariant (type variant : String) (place : ItemPlace)
  | structVariant (type variant : String) (place : FieldPlace)
  | coder

def Frame.fill : Frame → Data → Data
  | present, d => .present d
  | seq len place, d => .seq len (place.fill d)
  | map len place, d => .map len (place.fill d)
  | collectSeq hint place, d => .collectSeq hint (place.fill d)
  | collectMap hint place, d => .collectMap hint (place.fill d)
  | tuple place, d => .tuple (place.fill d)
  | tupleStruct name place, d => .tupleStruct name (place.fill d)
  | newtype name, d => .newtype name d
  | struct name place, d => .struct name (place.fill d)
  | newtypeVariant type variant, d => .newtypeVariant type variant d
  | tupleVariant type variant place, d => .tupleVariant type variant (place.fill d)
  | structVariant type variant place, d => .structVariant type variant (place.fill d)
  | coder, d => .coder (d.encode {} .default)

/-- The data at the place is no matter of how many items there are. -/
theorem ItemPlace.length_fill (place : ItemPlace) (d d' : Data) :
    (place.fill d).length = (place.fill d').length := by
  simp [fill]

theorem EntryPlace.length_fill (place : EntryPlace) (d d' : Data) :
    (place.fill d).length = (place.fill d').length := by
  cases place <;> simp [fill]

theorem FieldPlace.length_fill (place : FieldPlace) (d d' : Data) :
    (place.fill d).length = (place.fill d').length := by
  simp [fill]

/-- Data in a place that is nested in others, the outermost first. -/
def inside (frames : List Frame) (d : Data) : Data := frames.foldr Frame.fill d

section

variable {d d' : Data} (h : ∀ config registry, d.encode config registry = d'.encode config registry)
  (config : Config) (registry : Registry)

include h

/-- By induction on the items before the place: from there on the rest is the same. -/
theorem ItemPlace.encode_congr (place : ItemPlace) :
    encodeItems config registry (place.fill d) = encodeItems config registry (place.fill d') := by
  obtain ⟨before, after⟩ := place
  induction before with
  | nil =>
    exact congrArg (fun head => head >>= fun _ => encodeItems config registry after)
      (h config registry)
  | cons first before ih =>
    exact congrArg (fun rest => first.encode config registry >>= fun _ => rest) ih

theorem ItemPlace.capture_congr (place : ItemPlace) :
    captureItems config (place.fill d) = captureItems config (place.fill d') := by
  obtain ⟨before, after⟩ := place
  have hd := congrArg Encoder.capture (h config .empty)
  induction before with
  | nil => exact congrArg (fun head => head >>= fun v => (v :: ·) <$> captureItems config after) hd
  | cons first before ih =>
    exact congrArg (fun rest => Encoder.capture (first.encode config .empty) >>= fun v =>
      (v :: ·) <$> rest) ih

theorem EntryPlace.encode_congr (place : EntryPlace) :
    encodeEntries config registry (place.fill d) =
      encodeEntries config registry (place.fill d') := by
  have hd := h config registry
  cases place with
  | asKey before v after =>
    induction before with
    | nil =>
      exact congrArg (fun head => head >>= fun _ => v.encode config registry >>= fun _ =>
        encodeEntries config registry after) hd
    | cons first before ih =>
      exact congrArg (fun rest => first.1.encode config registry >>= fun _ =>
        first.2.encode config registry >>= fun _ => rest) ih
  | asValue before k after =>
    induction before with
    | nil =>
      exact congrArg (fun head => k.encode config registry >>= fun _ => head >>= fun _ =>
        encodeEntries config registry after) hd
    | cons first before ih =>
      exact congrArg (fun rest => first.1.encode config registry >>= fun _ =>
        first.2.encode config registry >>= fun _ => rest) ih

theorem FieldPlace.encode_congr (place : FieldPlace) :
    encodeFields config registry (place.fill d) = encodeFields config registry (place.fill d') := by
  obtain ⟨before, name, after⟩ := place
  induction before with
  | nil =>
    exact congrArg (fun head => Encoder.text config name >>= fun _ => head >>= fun _ =>
      encodeFields config registry after) (h config registry)
  | cons first before ih =>
    exact congrArg (fun rest => Encoder.text config first.1 >>= fun _ =>
      first.2.encode config registry >>= fun _ => rest) ih

theorem FieldPlace.capture_congr (place : FieldPlace) :
    captureFields config (place.fill d) = captureFields config (place.fill d') := by
  obtain ⟨before, name, after⟩ := place
  have hd := congrArg Encoder.capture (h config .empty)
  induction before with
  | nil =>
    exact congrArg (fun head => head >>= fun v =>
      ((.text name, v) :: ·) <$> captureFields config after) hd
  | cons first before ih =>
    exact congrArg (fun rest => Encoder.capture (first.2.encode config .empty) >>= fun v =>
      ((.text first.1, v) :: ·) <$> rest) ih

/-- Data that is always written in the same way is written so in every place. -/
theorem Frame.encode_congr (frame : Frame) :
    (frame.fill d).encode config registry = (frame.fill d').encode config registry := by
  have hd := h config registry
  have hcaptured := congrArg Encoder.capture (h config .empty)
  cases frame with
  | present => exact hd
  | seq len place =>
    cases len with
    | some len =>
      exact congrArg (fun items => Encoder.arrayLen config len >>= fun _ => items)
        (place.encode_congr h config registry)
    | none =>
      rw [fill, fill, encode, encode, place.length_fill d d', place.encode_congr h config registry]
  | map len place =>
    cases len with
    | some len =>
      exact congrArg (fun entries => Encoder.mapLen config len >>= fun _ => entries)
        (place.encode_congr h config registry)
    | none =>
      rw [fill, fill, encode, encode, place.length_fill d d', place.encode_congr h config registry]
  | collectSeq hint place =>
    rw [fill, fill, encode, encode, place.length_fill d d', place.encode_congr h config registry]
  | collectMap hint place =>
    rw [fill, fill, encode, encode, place.length_fill d d', place.encode_congr h config registry]
  | tuple place =>
    rw [fill, fill, encode, encode, place.length_fill d d', place.encode_congr h config registry]
  | tupleStruct name place =>
    rw [fill, fill, encode, encode, place.length_fill d d', place.encode_congr h config registry,
      place.capture_congr h config]
  | newtype name => rw [fill, fill, encode, encode, hcaptured, hd]
  | struct name place =>
    rw [fill, fill, encode, encode, place.length_fill d d', place.encode_congr h config registry,
      place.capture_congr h config]
  | newtypeVariant type name => rw [fill, fill, encode, encode, hd]
  | tupleVariant type name place =>
    rw [fill, fill, encode, encode, place.length_fill d d', place.encode_congr h config registry]
  | structVariant type name place =>
    rw [fill, fill, encode, encode, place.length_fill d d', place.encode_congr h config registry]
  | coder => rw [fill, fill, h {} .default]

/-- In a place as deep as may be, what is written alike makes the whole written alike. -/
theorem inside_congr (frames : List Frame) :
    (inside frames d).encode config registry = (inside frames d').encode config registry := by
  induction frames generalizing config registry with
  | nil => exact h config registry
  | cons frame frames ih => exact frame.encode_congr ih config registry

end

end MessagePack.Data
