import MessagePack.Proofs.RoundTrip.Timestamp
import MessagePack.Proofs.Writing.Shortest

namespace MessagePack

open Encoding (Writes)
open Value (ItemsSpelledBy EntriesSpelledBy)
open Wire (maxLength)

/-- The array of seconds and nanoseconds. -/
def Timestamp.meaning (t : Timestamp) : Value :=
  .array [.ofInt64 t.seconds, .ofUInt64 (UInt64.ofNat t.nanos)]

/-- The value of a number; one that no element can carry has none. -/
def Value.number (n : Int) : Value := int ((Integer.ofInt? n).getD default)

namespace Data

mutual

/-- The value that data stands for, whatever its types and names. A coder stands for none. -/
def meaning : Data → Value
  | bool b => .bool b
  | int _ n => .number n
  | f32 bits => .f32 bits
  | f64 bits => .f64 bits
  | char c => .text c.toString
  | text s => .text s
  | bytes data => .raw data
  | unit | absent | unitStruct _ | coder _ => .nil
  | present content | newtype _ content => content.meaning
  | human => .bool false
  | value v => v
  | integer n => .int n
  | timestamp t => t.meaning
  | seq _ items | collectSeq _ items | tuple items | tupleStruct _ items => .array (meanings items)
  | map _ entries | collectMap _ entries => .map (pairMeanings entries)
  | struct _ fields => .map (fieldMeanings fields)
  | unitVariant _ variant => .text variant
  | newtypeVariant _ variant content => .map [(.text variant, content.meaning)]
  | tupleVariant _ variant items => .map [(.text variant, .array (meanings items))]
  | structVariant _ variant fields => .map [(.text variant, .map (fieldMeanings fields))]

def meanings : List Data → List Value
  | [] => []
  | d :: rest => d.meaning :: meanings rest

def pairMeanings : List (Data × Data) → List (Value × Value)
  | [] => []
  | (k, v) :: rest => (k.meaning, v.meaning) :: pairMeanings rest

def fieldMeanings : List (String × Data) → List (Value × Value)
  | [] => []
  | (name, d) :: rest => (.text name, d.meaning) :: fieldMeanings rest

end

/-- A length that is announced is the true one. -/
def Announced (len? : Option Nat) (len : Nat) : Prop := ∀ n, len? = some n → n = len

mutual

/-- Numbers are of their kinds and at most 64 bits wide, lengths are announced truly if at all and
fit 32 bits, and nothing is written by a coder. -/
def Encodable : Data → Prop
  | int kind n => kind.isWide = false ∧ kind.contains n = true
  | text s => (Text.utf8 s).length ≤ maxLength
  | bytes data => data.length ≤ maxLength
  | present content => content.Encodable
  | value v => v.Announceable
  | seq len? items | collectSeq len? items =>
    Announced len? items.length ∧ items.length ≤ maxLength ∧ AllEncodable items
  | map len? entries | collectMap len? entries =>
    Announced len? entries.length ∧ entries.length ≤ maxLength ∧ PairsEncodable entries
  | tuple items | tupleStruct _ items => items.length ≤ maxLength ∧ AllEncodable items
  | newtype name content => name ≠ Encoder.coderName ∧ content.Encodable
  | struct _ fields => fields.length ≤ maxLength ∧ FieldsEncodable fields
  | unitVariant _ variant => (Text.utf8 variant).length ≤ maxLength
  | newtypeVariant _ variant content =>
    (Text.utf8 variant).length ≤ maxLength ∧ content.Encodable
  | tupleVariant _ variant items =>
    (Text.utf8 variant).length ≤ maxLength ∧ items.length ≤ maxLength ∧ AllEncodable items
  | structVariant _ variant fields =>
    (Text.utf8 variant).length ≤ maxLength ∧ fields.length ≤ maxLength ∧ FieldsEncodable fields
  | coder _ => False
  | _ => True

def AllEncodable : List Data → Prop
  | [] => True
  | d :: rest => d.Encodable ∧ AllEncodable rest

def PairsEncodable : List (Data × Data) → Prop
  | [] => True
  | (k, v) :: rest => k.Encodable ∧ v.Encodable ∧ PairsEncodable rest

def FieldsEncodable : List (String × Data) → Prop
  | [] => True
  | (name, d) :: rest =>
    (Text.utf8 name).length ≤ maxLength ∧ d.Encodable ∧ FieldsEncodable rest

end

@[simp] theorem length_meanings (items : List Data) : (meanings items).length = items.length := by
  induction items with
  | nil => rfl
  | cons d rest ih => simp [meanings, ih]

@[simp] theorem length_pairMeanings (entries : List (Data × Data)) :
    (pairMeanings entries).length = entries.length := by
  induction entries with
  | nil => rfl
  | cons entry rest ih => simp [pairMeanings, ih]

@[simp] theorem length_fieldMeanings (fields : List (String × Data)) :
    (fieldMeanings fields).length = fields.length := by
  induction fields with
  | nil => rfl
  | cons field rest ih => simp [fieldMeanings, ih]

mutual

/-- What is written for data nests as deep as the value it stands for. -/
theorem height_meaning : (d : Data) → d.meaning.height = d.depth .empty
  | bool _ | f32 _ | f64 _ | char _ | text _ | bytes _ | unit | absent | unitStruct _ | coder _
  | human | integer _ | unitVariant _ _ => rfl
  | int _ _ => rfl
  | value _ => rfl
  | timestamp _ => rfl
  | present content | newtype _ content => height_meaning content
  | seq _ items | collectSeq _ items | tuple items | tupleStruct _ items =>
    congrArg (· + 1) (heights_meanings items)
  | map _ entries | collectMap _ entries => congrArg (· + 1) (heights_pairMeanings entries)
  | struct _ fields => congrArg (· + 1) (heights_fieldMeanings fields)
  | newtypeVariant _ _ content => by
    simp [meaning, depth, Value.height, Value.entryHeights, Value.text, height_meaning content]
  | tupleVariant _ _ items => by
    simp [meaning, depth, Value.height, Value.entryHeights, Value.text, heights_meanings items]
  | structVariant _ _ fields => by
    simp [meaning, depth, Value.height, Value.entryHeights, Value.text,
      heights_fieldMeanings fields]

theorem heights_meanings : (items : List Data) →
    Value.heights (meanings items) = depths .empty items
  | [] => rfl
  | d :: rest => by
    rw [meanings, Value.heights, depths, height_meaning d, heights_meanings rest]

theorem heights_pairMeanings : (entries : List (Data × Data)) →
    Value.entryHeights (pairMeanings entries) = depthPairs .empty entries
  | [] => rfl
  | (k, v) :: rest => by
    rw [pairMeanings, Value.entryHeights, depthPairs, height_meaning k, height_meaning v,
      heights_pairMeanings rest]

theorem heights_fieldMeanings : (fields : List (String × Data)) →
    Value.entryHeights (fieldMeanings fields) = depthFields .empty fields
  | [] => rfl
  | (name, d) :: rest => by
    have hname : (Value.text name).height = 0 := rfl
    rw [fieldMeanings, Value.entryHeights, depthFields, height_meaning d,
      heights_fieldMeanings rest, hname, Nat.zero_max]

end

end Data

/-- The encoding comes out well on every sink that takes everything, and spells the value. -/
def Value.WrittenBy (v : Value) (encoding : Encoding Unit) : Prop :=
  ∃ bytes, v.SpelledBy bytes ∧ Writes encoding bytes

namespace Value

variable (config : Config)

/-- The value is written by the encoding, and with compact integers in the very bytes that are
written for the value itself. -/
def WrittenAs (v : Value) (encoding : Encoding Unit) : Prop :=
  ∃ bytes, v.SpelledBy bytes ∧ Writes encoding bytes ∧
    (config.compactInts = true → Writes (Encoder.value config v) bytes)

def ItemsWrittenAs (items : List Value) (encoding : Encoding Unit) : Prop :=
  ∃ body, ItemsSpelledBy items body ∧ Writes encoding body ∧
    (config.compactInts = true → Writes (Encoder.values config items) body)

def EntriesWrittenAs (entries : List (Value × Value)) (encoding : Encoding Unit) : Prop :=
  ∃ body, EntriesSpelledBy entries body ∧ Writes encoding body ∧
    (config.compactInts = true → Writes (Encoder.valuePairs config entries) body)

variable {config} {k v : Value} {first second third : Encoding Unit}

theorem ItemsWrittenAs.nil : ItemsWrittenAs config [] (pure ()) :=
  ⟨[], .nil, .nothing, fun _ => .nothing⟩

theorem ItemsWrittenAs.cons {rest : List Value} (h : v.WrittenAs config first)
    (h' : ItemsWrittenAs config rest second) :
    ItemsWrittenAs config (v :: rest) (first >>= fun _ => second) := by
  obtain ⟨bytes, hv, hwrites, hcompact⟩ := h
  obtain ⟨body, hrest, hwrites', hcompact'⟩ := h'
  exact ⟨bytes ++ body, .cons hv hrest, hwrites.bind hwrites',
    fun h => (hcompact h).bind (hcompact' h)⟩

theorem EntriesWrittenAs.nil : EntriesWrittenAs config [] (pure ()) :=
  ⟨[], .nil, .nothing, fun _ => .nothing⟩

theorem EntriesWrittenAs.cons {rest : List (Value × Value)} (hkey : k.WrittenAs config first)
    (h : v.WrittenAs config second) (h' : EntriesWrittenAs config rest third) :
    EntriesWrittenAs config ((k, v) :: rest) (first >>= fun _ => second >>= fun _ => third) := by
  obtain ⟨bytes, hk, hwrites, hcompact⟩ := hkey
  obtain ⟨bytes', hv, hwrites', hcompact'⟩ := h
  obtain ⟨body, hrest, hwrites'', hcompact''⟩ := h'
  exact ⟨bytes ++ (bytes' ++ body), .cons hk hv hrest, hwrites.bind (hwrites'.bind hwrites''),
    fun h => (hcompact h).bind ((hcompact' h).bind (hcompact'' h))⟩

namespace WrittenAs

theorem writtenBy (h : v.WrittenAs config first) : v.WrittenBy first := by
  obtain ⟨bytes, hspelled, hwrites, -⟩ := h
  exact ⟨bytes, hspelled, hwrites⟩

theorem of_value (h : v.Announceable) : v.WrittenAs config (Encoder.value config v) := by
  obtain ⟨bytes, hspelled, hwrites⟩ := v.exists_spelling config h
  exact ⟨bytes, hspelled, hwrites, fun _ => hwrites⟩

theorem text {s : String} (h : (Text.utf8 s).length ≤ maxLength) :
    (Value.text s).WrittenAs config (Encoder.text config s) :=
  of_value (v := .text s) h

/-- A signed number is spelled as itself under either policy. -/
theorem int64 (n : Int64) : (Value.ofInt64 n).WrittenAs config (Encoder.int config n) := by
  obtain ⟨header, hheader, hwrites⟩ := Writes.exists_element config (e := .int n) (Nat.zero_le _)
  refine ⟨header, spelledBy_int hheader, hwrites, fun hcompact => ?_⟩
  have hsame : Encoder.int config n = Encoder.value config (.ofInt64 n) :=
    Integer.int_eq_integer hcompact n
  exact hsame ▸ hwrites

theorem uint64 (n : UInt64) : (Value.ofUInt64 n).WrittenAs config (Encoder.uint config n) := by
  have hsame : Encoder.uint config n = Encoder.integer config (.ofUInt64 n) := by
    rw [Integer.integer_eq_element, Integer.form_ofUInt64]
    rfl
  rw [hsame]
  exact of_value trivial

/-- A number of any kind that fits 64 bits is spelled as that number. -/
theorem kind {kind : IntKind} {n : Int} (hnarrow : kind.isWide = false)
    (hrange : kind.contains n = true) :
    (Value.number n).WrittenAs config (Encoder.kind config kind n) := by
  have hbounds := IntKind.int64_range hnarrow hrange
  unfold Encoder.kind
  rw [if_neg (by simp [hnarrow])]
  cases hsigned : kind.isSigned with
  | true =>
    rw [hsigned, if_pos rfl] at hbounds
    have hval : (Int64.ofInt n).toInt = n := Int64.toInt_ofInt_of_le hbounds.1 hbounds.2
    have hsame : Value.number n = .ofInt64 (Int64.ofInt n) := by
      simp only [Value.number, Integer.ofInt?, Value.ofInt64, Integer.ofInt64, hval]
      rw [dif_pos (by omega)]
      rfl
    rw [hsame, if_pos rfl]
    exact int64 _
  | false =>
    rw [hsigned, if_neg Bool.false_ne_true] at hbounds
    have hval : ((UInt64.ofNat n.toNat).toNat : Int) = n := by
      rw [UInt64.toNat_ofNat_of_lt' (by simp only [UInt64.size]; omega)]
      omega
    have hsame : Value.number n = .ofUInt64 (UInt64.ofNat n.toNat) := by
      simp only [Value.number, Integer.ofInt?, Value.ofUInt64, Integer.ofUInt64, hval]
      rw [dif_pos (by omega)]
      rfl
    rw [hsame, if_neg Bool.false_ne_true]
    exact uint64 _

theorem array {items : List Value} {encoding whole : Encoding Unit}
    (hsize : items.length ≤ maxLength) (h : ItemsWrittenAs config items encoding)
    (hwhole : ∀ {header body}, Writes (Encoder.arrayLen config items.length) header →
      Writes encoding body → Writes whole (header ++ body)) :
    (Value.array items).WrittenAs config whole := by
  obtain ⟨header, hheader, hwrites⟩ :=
    Writes.exists_element config (e := .array items.length) hsize
  obtain ⟨body, hitems, hwrites', hcompact⟩ := h
  exact ⟨header ++ body, .array hheader hitems, hwhole hwrites hwrites',
    fun h => hwrites.bind (hcompact h)⟩

theorem map {entries : List (Value × Value)} {encoding whole : Encoding Unit}
    (hsize : entries.length ≤ maxLength) (h : EntriesWrittenAs config entries encoding)
    (hwhole : ∀ {header body}, Writes (Encoder.mapLen config entries.length) header →
      Writes encoding body → Writes whole (header ++ body)) :
    (Value.map entries).WrittenAs config whole := by
  obtain ⟨header, hheader, hwrites⟩ :=
    Writes.exists_element config (e := .map entries.length) hsize
  obtain ⟨body, hentries, hwrites', hcompact⟩ := h
  exact ⟨header ++ body, .map hheader hentries, hwhole hwrites hwrites',
    fun h => hwrites.bind (hcompact h)⟩

theorem timePair (t : Timestamp) : t.meaning.WrittenAs config (Encoder.timePair config t) := by
  have hnanos : Value.ofInt64 (Int64.ofNat t.nanos) = .ofUInt64 (UInt64.ofNat t.nanos) := by
    have hlt := t.nanos_lt
    have hnat : (UInt64.ofNat t.nanos).toNat = t.nanos :=
      UInt64.toNat_ofNat_of_lt' (by simp only [UInt64.size]; omega)
    simp only [Value.ofInt64, Value.ofUInt64, Integer.ofInt64, Integer.ofUInt64, t.toInt_nanos,
      hnat]
  have hparts : ItemsWrittenAs config [.ofInt64 t.seconds, .ofInt64 (.ofNat t.nanos)]
      (Encoder.int config t.seconds >>= fun _ =>
        Encoder.int config (.ofNat t.nanos) >>= fun _ => pure ()) :=
    .cons (int64 _) (.cons (int64 _) .nil)
  rw [hnanos, bind_pure_unit] at hparts
  exact array (show 2 ≤ maxLength by decide) hparts .bind

/-- A variant with contents is spelled as a map from its name to them. -/
theorem variant {name : String} {encoding : Encoding Unit}
    (hname : (Text.utf8 name).length ≤ maxLength) (h : v.WrittenAs config encoding) :
    (Value.map [(.text name, v)]).WrittenAs config
      (Encoder.variant config name >>= fun _ => encoding) := by
  have hentry : EntriesWrittenAs config [(.text name, v)]
      (Encoder.text config name >>= fun _ => encoding >>= fun _ => pure ()) :=
    .cons (text hname) h .nil
  rw [bind_pure_unit] at hentry
  refine map (show 1 ≤ maxLength by decide) hentry fun hheader hbody => ?_
  rw [Encoder.variant, bind_assoc]
  exact hheader.bind hbody

theorem capture (h : v.WrittenAs config first) (hheight : v.height ≤ unlimitedDepth) :
    Encoder.capture first = .ok v := by
  obtain ⟨bytes, hspelled, hwrites, -⟩ := h
  exact Encoder.capture_eq hwrites hspelled hheight

/-- What can be written, and was captured, is written once more as the value it was read as. -/
theorem through (h : v.WrittenAs config first) {codec : Codec}
    (hbare : codec.encode = Encoder.value) {captured : Except Error Value}
    (hcaptured : captured = .ok v) :
    v.WrittenAs config (Encoder.through codec config captured) := by
  obtain ⟨bytes, hspelled, -⟩ := h
  obtain ⟨short, hspelled', hwrites, -⟩ := hspelled.exists_shortest config
  rw [hcaptured, Encoder.through, hbare]
  exact ⟨short, hspelled', hwrites, fun _ => hwrites⟩

end WrittenAs

end Value

/-- Every codec writes the value it is given as it is, and a value of this height can be captured
for it. -/
def Registry.BareTo (registry : Registry) (height : Nat) : Prop :=
  ∀ ⦃name codec⦄, registry.get? name = some codec →
    codec.encode = Encoder.value ∧ height ≤ unlimitedDepth

theorem Registry.BareTo.mono {registry : Registry} {height height' : Nat}
    (h : registry.BareTo height) (hle : height' ≤ height) : registry.BareTo height' := by
  intro name codec hget
  obtain ⟨hencode, hheight⟩ := h hget
  exact ⟨hencode, hle.trans hheight⟩

theorem Registry.bareTo_empty (height : Nat) : Registry.empty.BareTo height :=
  fun _ _ h => nomatch h

namespace Data

open Value (WrittenBy WrittenAs ItemsWrittenAs EntriesWrittenAs)

variable {config : Config}

mutual

/-- Data is written as one of the spellings of the value it stands for, also where codecs are given
that value for a part of it. -/
theorem writtenAs {registry : Registry} : (d : Data) → d.Encodable →
    registry.BareTo (d.depth .empty) → d.meaning.WrittenAs config (d.encode config registry)
  | bool _, _, _ | f32 _, _, _ | f64 _, _, _ | human, _, _ | integer _, _, _ => .of_value trivial
  | unit, _, _ | absent, _, _ => .of_value trivial
  | int _ _, h, _ => .kind h.1 h.2
  | char c, _, _ => .text (Char.length_utf8_le c)
  | text _, h, _ => .text h
  | bytes _, h, _ => .of_value h
  | value _, h, _ => .of_value h
  | timestamp t, _, hbare => by
    rw [encode]
    split
    · obtain ⟨hencode, hheight⟩ := hbare ‹_›
      exact (WrittenAs.timePair t).through hencode ((WrittenAs.timePair t).capture hheight)
    · exact .timePair t
  | present content, h, hbare => content.writtenAs h hbare
  | newtype name content, h, hbare => by
    rw [encode, if_neg h.1]
    split
    · obtain ⟨hencode, hheight⟩ := hbare ‹_›
      have hplain := content.writtenAs h.2 (Registry.bareTo_empty _)
      exact hplain.through hencode (hplain.capture (content.height_meaning.symm ▸ hheight))
    · exact content.writtenAs h.2 hbare
  | seq _ items, h, hbare => .array (by simpa using h.2.1)
    (items_writtenAs items h.2.2 (hbare.mono (Nat.le_succ _)))
    fun hheader hbody => seq_writes h.1 (by simpa using hheader) hbody
  | collectSeq _ items, h, hbare => .array (by simpa using h.2.1)
    (items_writtenAs items h.2.2 (hbare.mono (Nat.le_succ _)))
    fun hheader hbody => collectSeq_writes h.1 (by simpa using hheader) hbody
  | tuple items, h, hbare => .array (by simpa using h.1)
    (items_writtenAs items h.2 (hbare.mono (Nat.le_succ _)))
    fun hheader hbody => Writes.bind (by simpa using hheader) hbody
  | tupleStruct _ items, h, hbare => by
    rw [encode]
    split
    · obtain ⟨hencode, hheight⟩ := hbare ‹_›
      have hcaptured := items_captured items h.2 ((Nat.le_succ _).trans hheight)
      refine WrittenAs.through (.array (by simpa using h.1)
        (items_writtenAs items h.2 (Registry.bareTo_empty _)) .bind) hencode ?_
      rw [hcaptured]
      rfl
    · exact .array (by simpa using h.1) (items_writtenAs items h.2 (hbare.mono (Nat.le_succ _)))
        fun hheader hbody => Writes.bind (by simpa using hheader) hbody
  | map _ entries, h, hbare => .map (by simpa using h.2.1)
    (pairs_writtenAs entries h.2.2 (hbare.mono (Nat.le_succ _)))
    fun hheader hbody => map_writes h.1 (by simpa using hheader) hbody
  | collectMap _ entries, h, hbare => .map (by simpa using h.2.1)
    (pairs_writtenAs entries h.2.2 (hbare.mono (Nat.le_succ _)))
    fun hheader hbody => collectMap_writes h.1 (by simpa using hheader) hbody
  | unitStruct _, _, hbare => by
    rw [encode]
    split
    · rw [(hbare ‹_›).1]
      exact .of_value trivial
    · exact .of_value trivial
  | struct _ fields, h, hbare => by
    rw [encode]
    split
    · obtain ⟨hencode, hheight⟩ := hbare ‹_›
      have hcaptured := fields_captured fields h.2 ((Nat.le_succ _).trans hheight)
      refine WrittenAs.through (.map (by simpa using h.1)
        (fields_writtenAs fields h.2 (Registry.bareTo_empty _)) .bind) hencode ?_
      rw [hcaptured]
      rfl
    · exact .map (by simpa using h.1) (fields_writtenAs fields h.2 (hbare.mono (Nat.le_succ _)))
        fun hheader hbody => Writes.bind (by simpa using hheader) hbody
  | unitVariant _ _, h, _ => .text h
  | newtypeVariant _ _ content, h, hbare =>
    .variant h.1 (content.writtenAs h.2 (hbare.mono (Nat.le_succ _)))
  | tupleVariant _ _ items, h, hbare =>
    .variant h.1 (.array (by simpa using h.2.1)
      (items_writtenAs items h.2.2 (hbare.mono (Nat.le_add_right _ 2)))
      fun hheader hbody => Writes.bind (by simpa using hheader) hbody)
  | structVariant _ _ fields, h, hbare =>
    .variant h.1 (.map (by simpa using h.2.1)
      (fields_writtenAs fields h.2.2 (hbare.mono (Nat.le_add_right _ 2)))
      fun hheader hbody => Writes.bind (by simpa using hheader) hbody)
  | coder _, h, _ => h.elim

theorem items_writtenAs {registry : Registry} : (items : List Data) → AllEncodable items →
    registry.BareTo (depths .empty items) →
    ItemsWrittenAs config (meanings items) (encodeItems config registry items)
  | [], _, _ => .nil
  | d :: rest, h, hbare => .cons (d.writtenAs h.1 (hbare.mono (Nat.le_max_left _ _)))
    (items_writtenAs rest h.2 (hbare.mono (Nat.le_max_right _ _)))

theorem pairs_writtenAs {registry : Registry} : (entries : List (Data × Data)) →
    PairsEncodable entries → registry.BareTo (depthPairs .empty entries) →
    EntriesWrittenAs config (pairMeanings entries) (encodeEntries config registry entries)
  | [], _, _ => .nil
  | (k, v) :: rest, h, hbare =>
    .cons (k.writtenAs h.1 (hbare.mono ((Nat.le_max_left _ _).trans (Nat.le_max_left _ _))))
      (v.writtenAs h.2.1 (hbare.mono ((Nat.le_max_right _ _).trans (Nat.le_max_left _ _))))
      (pairs_writtenAs rest h.2.2 (hbare.mono (Nat.le_max_right _ _)))

theorem fields_writtenAs {registry : Registry} : (fields : List (String × Data)) →
    FieldsEncodable fields → registry.BareTo (depthFields .empty fields) →
    EntriesWrittenAs config (fieldMeanings fields) (encodeFields config registry fields)
  | [], _, _ => .nil
  | (_, d) :: rest, h, hbare =>
    .cons (.text h.1) (d.writtenAs h.2.1 (hbare.mono (Nat.le_max_left _ _)))
      (fields_writtenAs rest h.2.2 (hbare.mono (Nat.le_max_right _ _)))

/-- The parts of a tuple struct or struct are captured one by one. -/
theorem items_captured : (items : List Data) → AllEncodable items →
    depths .empty items ≤ unlimitedDepth → captureItems config items = .ok (meanings items)
  | [], _, _ => rfl
  | d :: rest, h, hheight => by
    have hd := (d.writtenAs h.1 (Registry.bareTo_empty _)).capture
      (d.height_meaning.symm ▸ (Nat.le_max_left _ _).trans hheight)
    rw [captureItems, hd, items_captured rest h.2 ((Nat.le_max_right _ _).trans hheight)]
    rfl

theorem fields_captured : (fields : List (String × Data)) → FieldsEncodable fields →
    depthFields .empty fields ≤ unlimitedDepth →
    captureFields config fields = .ok (fieldMeanings fields)
  | [], _, _ => rfl
  | (_, d) :: rest, h, hheight => by
    have hd := (d.writtenAs h.2.1 (Registry.bareTo_empty _)).capture
      (d.height_meaning.symm ▸ (Nat.le_max_left _ _).trans hheight)
    rw [captureFields, hd, fields_captured rest h.2.2 ((Nat.le_max_right _ _).trans hheight)]
    rfl

end

/-- Without any codecs data may be as deep as it is. -/
theorem written (d : Data) (h : d.Encodable) : d.meaning.WrittenBy (d.encode config .empty) :=
  (d.writtenAs h (Registry.bareTo_empty _)).writtenBy

open Decoder (new)

/-- Data is written, and what is written is read as the value that the data stands for, to the last
byte: under either policy, and within any limit that the data does not nest deeper than. -/
theorem value_of_encode (config config' : Config) {d : Data} (h : d.Encodable)
    (hroom : d.depth .empty ≤ config'.maxDepth) :
    ∃ bytes, Encoder.buffered (d.encode config .empty) = .ok bytes ∧
      ∃ s, Decoder.value (new (.ofBytes bytes) config') = .ok d.meaning s ∧
        s.source.position = bytes.length := by
  obtain ⟨bytes, hspelled, hwrites⟩ := d.written h
  obtain ⟨s, hread, hposition⟩ :=
    Decoder.value_of_spelledBy [] hspelled (d.height_meaning.symm ▸ hroom)
  rw [List.append_nil] at hread
  exact ⟨bytes, hwrites.buffered, s, hread, hposition⟩

/-- A sequence of unknown length with a number and a timestamp, and a variant with a value. -/
theorem value_of_encode_struct :
    let d : Data := .struct "P" [
      ("a", .seq none [.int .i16 300, .present (.timestamp (.ofSeconds 5))]),
      ("b", .newtypeVariant "E" "V" (.value (.raw [0xff])))]
    let config : Config := { maxDepth := 3, compactInts := true }
    d.Encodable ∧ d.depth .empty ≤ config.maxDepth ∧
      ∃ bytes, Encoder.buffered (d.encode config .empty) = .ok bytes ∧
        ∃ s, Decoder.value (new (.ofBytes bytes) config) = .ok (.map [
            (.raw [0x61], .array [.ofUInt64 300, .array [.ofUInt64 5, .ofUInt64 0]]),
            (.raw [0x62], .map [(.raw [0x56], .raw [0xff])])]) s ∧
          s.source.position = bytes.length := by
  intro d config
  have hencodable : d.Encodable :=
    ⟨by decide, by decide, ⟨nofun, by decide, ⟨rfl, by decide⟩, trivial, trivial⟩,
      by decide, ⟨by decide, show 1 ≤ maxLength by decide⟩, trivial⟩
  have hroom : d.depth .empty ≤ config.maxDepth := by decide
  exact ⟨hencodable, hroom, value_of_encode config config hencodable hroom⟩

end Data

end MessagePack
