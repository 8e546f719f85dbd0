import MessagePack.Proofs.RoundTrip.Named
import MessagePack.Proofs.Writing.Meaning

namespace MessagePack

open Decoding
open Wire (maxLength)

/-- From the value that the data stands for the reader makes the data, wherever the session is. -/
def Data.ReadsBack (d : Data) (one : Reader Item) : Prop :=
  one (.tree d.meaning) = pure d.item

variable {α : Type} {config : Config} {registry : Registry}

/-- A text in memory is offered as it is. -/
theorem Value.offerAny_text (s : String) : (Value.text s).offerAny = .text s := by
  simp [Value.text, Value.offerAny]

namespace Shape

theorem int_readsBack {kind : IntKind} {n : Int} (hnarrow : kind.isWide = false)
    (hrange : kind.contains n = true) :
    (Data.int kind n).ReadsBack ((Shape.int kind).read registry) := by
  have hbounds := IntKind.int64_range hnarrow hrange
  obtain ⟨m, hm, hval⟩ : ∃ m, Integer.ofInt? n = some m ∧ m.val = n := by
    refine ⟨⟨n, ?_, ?_⟩, dif_pos ?_, rfl⟩ <;> split at hbounds <;> omega
  have hread : kind.read (.tree (.number n)) = pure n := by
    rw [Value.number, hm, Option.getD_some, ← hval]
    exact IntKind.read_tree hnarrow (hval.symm ▸ hrange)
  rw [Data.ReadsBack, Data.meaning, Shape.read, hread]
  rfl

theorem text_readsBack (s : String) : (Data.text s).ReadsBack (Shape.text.read registry) := by
  have hask : Input.ask registry .text (.tree (.text s)) = pure (.text s) :=
    congrArg pure (Value.offerAny_text s)
  rw [Data.ReadsBack, Data.meaning, Shape.read, hask]
  rfl

theorem char_readsBack (c : Char) : (Data.char c).ReadsBack (Shape.char.read registry) := by
  have hask : Input.ask registry .text (.tree (.text c.toString)) = pure (.text c.toString) :=
    congrArg pure (Value.offerAny_text _)
  have htake : Offer.takeChar (.text c.toString) = pure c := by simp [Offer.takeChar]
  rw [Data.ReadsBack, Data.meaning, Shape.read, hask, pure_bind, htake]
  rfl

theorem integer_readsBack (n : Integer) :
    (Data.integer n).ReadsBack (Shape.integer.read registry) := by
  have hback := n.form_integer
  have htake : (Value.int n).offerAny.takeInteger = pure n := by
    rw [Value.offerAny]
    cases hform : n.form with
    | unsigned v =>
      rw [hform] at hback
      exact congrArg pure hback
    | negative v =>
      rw [hform] at hback
      exact congrArg pure hback
  have hask : Input.ask registry .any (.tree (.int n)) = pure (Value.int n).offerAny := rfl
  rw [Data.ReadsBack, Data.meaning, Shape.read, hask, pure_bind, htake]
  rfl

theorem value_readsBack (v : Value) : (Data.value v).ReadsBack (Shape.value.read registry) := by
  have hfold : Input.fold .value (.tree v) = pure v := congrArg pure v.fold_value
  rw [Data.ReadsBack, Data.meaning, Shape.read, hfold]
  rfl

theorem timestamp_readsBack (t : Timestamp) :
    (Data.timestamp t).ReadsBack (Shape.timestamp.read registry) := by
  have hask : Input.ask registry (.newtype Timestamp.typeName) (.tree t.meaning) =
      pure (.newtype (.tree t.meaning)) := rfl
  have htake : Timestamp.take (.newtype (.tree t.meaning)) = pure t := t.readTuple_tree
  rw [Data.ReadsBack, Data.meaning, Shape.read, hask, pure_bind, htake]
  rfl

/-- What is present is not taken for absent unless it stands for nil. -/
theorem present_readsBack {d : Data} {content : Shape} (hnil : d.meaning ≠ .nil)
    (h : d.ReadsBack (content.read registry)) :
    (Data.present d).ReadsBack ((Shape.option content).read registry) := by
  have hask : Input.ask registry .option (.tree d.meaning) = pure (.present (.tree d.meaning)) := by
    cases hmeaning : d.meaning with
    | nil => exact absurd hmeaning hnil
    | _ => rfl
  have hcontent : content.read registry (.tree d.meaning) = pure d.item := h
  rw [Data.ReadsBack, Data.meaning, Shape.read, hask, pure_bind]
  simp only [hcontent, Data.item, pure_bind]

theorem newtype_readsBack {name : String} {d : Data} {content : Shape}
    (h : d.ReadsBack (content.read registry)) :
    (Data.newtype name d).ReadsBack ((Shape.newtype name content).read registry) := by
  have hask : Input.ask registry (.newtype name) (.tree d.meaning) =
      pure (.newtype (.tree d.meaning)) := rfl
  have hcontent : content.read registry (.tree d.meaning) = pure d.item := h
  rw [Data.ReadsBack, Data.meaning, Shape.read, hask, pure_bind]
  simp only [hcontent, Data.item, pure_bind]

end Shape

/-- Whatever holds of data and its meaning holds of rows of them. -/
theorem Data.forall₂_meanings {R : Data → Input → Prop} {list : List Data}
    (h : ∀ d ∈ list, R d (.tree d.meaning)) :
    List.Forall₂ R list ((meanings list).map .tree) := by
  induction list with
  | nil => exact .nil
  | cons d list ih =>
    obtain ⟨hd, hrest⟩ := List.forall_mem_cons.mp h
    rw [meanings, List.map_cons]
    exact .cons hd (ih hrest)

theorem Data.mapM_readsBack {X : Type} {one : X → Decoding Item} {list : List Data}
    {places : List X} (h : List.Forall₂ (fun d place => one place = pure d.item) list places) :
    places.mapM one = pure (items list) := by
  induction h with
  | nil => rfl
  | cons hone _ ih => rw [List.mapM_cons, hone, ih, items, pure_bind, pure_bind]

namespace Items

theorem readAll_tree {one : Reader Item} {list : List Data} (h : ∀ d ∈ list, d.ReadsBack one) :
    readAll one (.tree 0 (Data.meanings list)) = pure (Data.items list) := by
  rw [readAll_eq]
  exact Data.mapM_readsBack (Data.forall₂_meanings h)

theorem readTuple_tree {list : List Data} {readers : List (Reader Item)}
    (h : List.Forall₂ Data.ReadsBack list readers) (expected : String) :
    readTuple expected readers (.tree 0 (Data.meanings list)) = pure (Data.items list) := by
  have hleft : (Items.tree 0 (Data.meanings list)).left = readers.length :=
    (Data.length_meanings list).trans h.length_eq
  have hzip : List.Forall₂ (fun d (pair : Reader Item × Input) => pair.1 pair.2 = pure d.item) list
      (readers.zip ((Data.meanings list).map .tree)) := by
    clear hleft
    induction h with
    | nil => exact .nil
    | cons hone _ ih =>
      rw [Data.meanings, List.map_cons, List.zip_cons_cons]
      exact .cons hone ih
  rw [readTuple_eq, close_of_left_eq hleft, inputs, Data.mapM_readsBack hzip]
  rfl

end Items

theorem Entries.readAll_tree {key item : Reader Item} {entries : List (Data × Data)}
    (hkeys : ∀ entry ∈ entries, entry.1.ReadsBack key)
    (hitems : ∀ entry ∈ entries, entry.2.ReadsBack item) :
    readAll key item (.tree 0 (Data.pairMeanings entries)) = pure (Data.itemPairs entries) := by
  rw [readAll_eq, pairs]
  induction entries with
  | nil => rfl
  | cons entry entries ih =>
    obtain ⟨k, v⟩ := entry
    have hk : key (.tree k.meaning) = pure k.item := hkeys (k, v) (by simp)
    have hv : item (.tree v.meaning) = pure v.item := hitems (k, v) (by simp)
    have hrest := ih (fun entry h => hkeys entry (by simp [h]))
      (fun entry h => hitems entry (by simp [h]))
    rw [Data.pairMeanings, List.map_cons, List.mapM_cons, hrest]
    simp only [readEntry, hk, hv, pure_bind, Data.itemPairs]

/-- A name in memory makes its choice. -/
theorem Choices.read_text_tree {known : Choices α} {name : String} {choice : α}
    (hchoice : known.byText? name = some choice) :
    known.read (.tree (.text name)) = pure choice := by
  have hask : Input.ask .empty .identifier (.tree (.text name)) = pure (.text name) :=
    congrArg pure (Value.offerAny_text name)
  rw [Choices.read, hask, pure_bind]
  exact settle_of_byText? hchoice

namespace FieldReader

variable {readers : List FieldReader} {fields : List (String × Data)} (strict : Bool)

/-- The slots fill up from the front, as they do from the session. -/
theorem fillSlots_tree (before : List FieldReader)
    (h : List.Forall₂ (Matches Data.ReadsBack) fields readers)
    (hdistinct : ((before ++ readers).map name).Nodup) (filled : List Item)
    (hfilled : filled.length = before.length) (taken : Nat) :
    (Entries.tree taken (Data.fieldMeanings fields)).pairs.foldlM
        (fillSlot (keys (before ++ readers) strict))
        (filled.map some ++ List.replicate readers.length none) =
      pure ((filled ++ fields.map fun field => field.2.item).map some) := by
  rw [Entries.pairs]
  induction h generalizing before filled with
  | nil =>
    simp only [List.length_nil, List.replicate_zero, List.map_nil, List.append_nil]
    rfl
  | @cons field reader fields readers hone _ ih =>
    obtain ⟨label, d⟩ := field
    obtain ⟨rfl, hread⟩ := hone
    have hread : reader.read (.tree d.meaning) = pure d.item := hread
    have hsame : before ++ reader :: readers = before ++ [reader] ++ readers := by simp
    have hrest := ih (before ++ [reader]) (hsame ▸ hdistinct) (filled ++ [d.item])
      (by simp [hfilled])
    have hkey : (keys (before ++ reader :: readers) strict).read (.tree (.text reader.name)) =
        pure (some (before.length, reader)) :=
      Choices.read_text_tree (byText?_keys strict hdistinct)
    have hopen := hfilled ▸ getD_slots filled (List.replicate readers.length none)
    have hset := hfilled ▸ set_slots filled (List.replicate readers.length none) d.item
    have hslot : fillSlot (keys (before ++ reader :: readers) strict)
        (filled.map some ++ none :: List.replicate readers.length none)
        (pure (.tree (.text reader.name)), .tree d.meaning) =
        pure ((filled ++ [d.item]).map some ++ List.replicate readers.length none) := by
      rw [fillSlot, pure_bind, hkey, pure_bind]
      dsimp only
      rw [hopen, ← hset]
      simp only [Option.isSome_none, Bool.false_eq_true, if_false, pure_bind, hread]
    rw [List.length_cons, List.replicate_succ, Data.fieldMeanings, List.map_cons, List.foldlM_cons,
      hslot, pure_bind, hsame, hrest]
    simp

theorem readEntries_tree (h : List.Forall₂ (Matches Data.ReadsBack) fields readers)
    (hdistinct : (readers.map name).Nodup) :
    readEntries readers strict (.tree 0 (Data.fieldMeanings fields)) =
      pure (Data.itemFields fields) := by
  have hslots := fillSlots_tree strict [] h hdistinct [] rfl 0
  simp only [List.map_nil, List.nil_append] at hslots
  rw [readEntries_eq, hslots, pure_bind, collect_eq h]
  rfl

end FieldReader

namespace Shape

variable {list : List Data} {shapes : List Shape} {fields : List (String × Data)}
  {fieldShapes : List (String × Shape)}

theorem tuple_readsBack (h : List.Forall₂ Data.ReadsBack list (Shape.readers registry shapes)) :
    (Data.tuple list).ReadsBack ((Shape.tuple shapes).read registry) := by
  have hask : Input.ask registry .tuple (.tree (.array (Data.meanings list))) =
      pure (.seq (.tree 0 (Data.meanings list))) := rfl
  rw [Data.ReadsBack, Data.meaning, Shape.read, hask, pure_bind, Offer.takeTuple,
    Items.readTuple_tree h]
  rfl

theorem tupleStruct_readsBack {name : String}
    (h : List.Forall₂ Data.ReadsBack list (Shape.readers registry shapes)) :
    (Data.tupleStruct name list).ReadsBack ((Shape.tupleStruct name shapes).read registry) := by
  have hask : Input.ask registry (.tupleStruct name) (.tree (.array (Data.meanings list))) =
      pure (.seq (.tree 0 (Data.meanings list))) := rfl
  rw [Data.ReadsBack, Data.meaning, Shape.read, hask, pure_bind, Offer.takeTuple,
    Items.readTuple_tree h]
  rfl

theorem seq_readsBack {d : Data} {item : Shape}
    (h : ∀ d ∈ list, d.ReadsBack (item.read registry))
    (hmeaning : d.meaning = .array (Data.meanings list)) (hitem : d.item = .seq (Data.items list)) :
    d.ReadsBack ((Shape.seq item).read registry) := by
  have hask : Input.ask registry .seq (.tree (.array (Data.meanings list))) =
      pure (.seq (.tree 0 (Data.meanings list))) := rfl
  rw [Data.ReadsBack, hmeaning, hitem, Shape.read, hask, pure_bind]
  simp only [Items.readAll_tree h, pure_bind]

theorem map_readsBack {d : Data} {entries : List (Data × Data)} {key item : Shape}
    (hkeys : ∀ entry ∈ entries, entry.1.ReadsBack (key.read registry))
    (hitems : ∀ entry ∈ entries, entry.2.ReadsBack (item.read registry))
    (hmeaning : d.meaning = .map (Data.pairMeanings entries))
    (hitem : d.item = .map (Data.itemPairs entries)) :
    d.ReadsBack ((Shape.map key item).read registry) := by
  have hask : Input.ask registry .map (.tree (.map (Data.pairMeanings entries))) =
      pure (.map (.tree 0 (Data.pairMeanings entries))) := rfl
  rw [Data.ReadsBack, hmeaning, hitem, Shape.read, hask, pure_bind]
  simp only [Entries.readAll_tree hkeys hitems, pure_bind]

theorem struct_readsBack {name : String} {strict : Bool} (hsame : FieldsMatch fields fieldShapes)
    (h : ∀ field shape, (field, shape) ∈ fields.zip fieldShapes →
      field.2.ReadsBack (shape.2.read registry)) :
    (Data.struct name fields).ReadsBack ((Shape.struct name fieldShapes strict).read registry) := by
  have hask : Input.ask registry (.struct name (fieldShapes.map Prod.fst))
      (.tree (.map (Data.fieldMeanings fields))) =
      pure (.map (.tree 0 (Data.fieldMeanings fields))) := rfl
  rw [Data.ReadsBack, Data.meaning, Shape.read, hask, pure_bind, FieldReader.readOffer,
    FieldReader.readEntries_tree strict (fieldReaders_match hsame h) (fieldReaders_distinct hsame)]
  rfl

variable {type variant : String} {variants : List (String × Content)} {content : Content}

/-- In memory too the name of a variant selects the reader of its contents. -/
theorem variant_name_tree (h : VariantOf variants variant content) :
    (ContentReader.keys (Shape.contentReaders registry type variants)).read
        (.tree (.text variant)) = pure (content.read registry type variant) := by
  apply Choices.read_text_tree
  apply lookup_of_mem
  · rw [ContentReader.keys, contentReaders_eq_map, List.map_map]
    exact h.distinct
  · rw [ContentReader.keys, contentReaders_eq_map]
    exact List.mem_map.mpr ⟨_, h.mem, rfl⟩

theorem unitVariant_readsBack (h : VariantOf variants variant .unit) :
    (Data.unitVariant type variant).ReadsBack
      ((Shape.enumeration type variants).read registry) := by
  have hask : Input.askVariant (.tree (.text variant)) =
      pure (.variant (.tree (.text variant)) none) := rfl
  rw [Data.ReadsBack, Data.meaning, Shape.read, ContentReader.readVariant, hask, pure_bind]
  simp only [variant_name_tree h, pure_bind]
  rfl

/-- The contents of a variant come from the one entry of the map. -/
theorem variant_readsBack {d : Data} {v : Value} (h : VariantOf variants variant content)
    (hmeaning : d.meaning = .map [(.text variant, v)])
    (hcontent : content.read registry type variant (some (.tree v)) = pure d.item) :
    d.ReadsBack ((Shape.enumeration type variants).read registry) := by
  have hask : Input.askVariant (.tree (.map [(.text variant, v)])) =
      pure (.variant (.tree (.text variant)) (some (.tree v))) := rfl
  rw [Data.ReadsBack, hmeaning, Shape.read, ContentReader.readVariant, hask, pure_bind]
  simp only [variant_name_tree h, pure_bind]
  exact hcontent

theorem newtypeVariant_readsBack {d : Data} {content : Shape}
    (h : VariantOf variants variant (.newtype content))
    (hcontent : d.ReadsBack (content.read registry)) :
    (Data.newtypeVariant type variant d).ReadsBack
      ((Shape.enumeration type variants).read registry) := by
  have hcontent : content.read registry (.tree d.meaning) = pure d.item := hcontent
  apply variant_readsBack h rfl
  rw [Content.read, Input.content, pure_bind, hcontent]
  rfl

theorem tupleVariant_readsBack (h : VariantOf variants variant (.tuple shapes))
    (hitems : List.Forall₂ Data.ReadsBack list (Shape.readers registry shapes)) :
    (Data.tupleVariant type variant list).ReadsBack
      ((Shape.enumeration type variants).read registry) := by
  have hask : Input.askTuple (some (.tree (.array (Data.meanings list)))) =
      pure (.seq (.tree 0 (Data.meanings list))) := rfl
  apply variant_readsBack h rfl
  rw [Content.read, hask, pure_bind, Offer.takeTuple, Items.readTuple_tree hitems]
  rfl

theorem structVariant_readsBack (h : VariantOf variants variant (.struct fieldShapes))
    (hsame : FieldsMatch fields fieldShapes)
    (hfields : ∀ field shape, (field, shape) ∈ fields.zip fieldShapes →
      field.2.ReadsBack (shape.2.read registry)) :
    (Data.structVariant type variant fields).ReadsBack
      ((Shape.enumeration type variants).read registry) := by
  have hask : Input.askStruct (some (.tree (.map (Data.fieldMeanings fields)))) =
      pure (.map (.tree 0 (Data.fieldMeanings fields))) := rfl
  apply variant_readsBack h rfl
  rw [Content.read, hask, pure_bind, FieldReader.readOffer, FieldReader.readEntries_tree false
    (fieldReaders_match hsame hfields) (fieldReaders_distinct hsame)]
  rfl

end Shape

namespace Data

theorem allEncodable_iff {list : List Data} : AllEncodable list ↔ ∀ d ∈ list, d.Encodable := by
  induction list with
  | nil => simp [AllEncodable]
  | cons d list ih => simp [AllEncodable, ih]

theorem pairsEncodable_iff {entries : List (Data × Data)} :
    PairsEncodable entries ↔ ∀ entry ∈ entries, entry.1.Encodable ∧ entry.2.Encodable := by
  induction entries with
  | nil => simp [PairsEncodable]
  | cons entry entries ih => simp [PairsEncodable, ih, and_assoc]

theorem fieldsEncodable_iff {fields : List (String × Data)} : FieldsEncodable fields ↔
    ∀ field ∈ fields, (Text.utf8 field.1).length ≤ maxLength ∧ field.2.Encodable := by
  induction fields with
  | nil => simp [FieldsEncodable]
  | cons field fields ih => simp [FieldsEncodable, ih, and_assoc]

end Data

/-- What holds of all pairs holds of all that are paired. -/
private theorem forall_mem_of_zip {β : Type} {P : α → Prop} {list : List α} {others : List β}
    (hlen : list.length = others.length) (h : ∀ a b, (a, b) ∈ list.zip others → P a) :
    ∀ a ∈ list, P a := by
  intro a ha
  obtain ⟨i, hi, rfl⟩ := List.getElem_of_mem ha
  have hmem := List.getElem_mem (l := list.zip others) (n := i) (by simp; omega)
  rw [List.getElem_zip] at hmem
  exact h _ _ hmem

namespace Fits

variable {d : Data} {shape : Shape}

/-- Whatever is a value of a type can be written. -/
theorem encodable (h : Fits config registry d shape) : d.Encodable := by
  induction h with
  | int narrow range => exact ⟨narrow, range⟩
  | text size => exact size
  | bytes size => exact size
  | value sizes => exact sizes
  | present _ _ ih => exact ih
  | seq announced size _ ih => exact ⟨announced, size, Data.allEncodable_iff.mpr ih⟩
  | collectSeq announced size _ ih => exact ⟨announced, size, Data.allEncodable_iff.mpr ih⟩
  | map announced size _ _ ihkeys ih =>
    exact ⟨announced, size, Data.pairsEncodable_iff.mpr fun entry h => ⟨ihkeys entry h, ih entry h⟩⟩
  | collectMap announced size _ _ ihkeys ih =>
    exact ⟨announced, size, Data.pairsEncodable_iff.mpr fun entry h => ⟨ihkeys entry h, ih entry h⟩⟩
  | tuple size length _ ih =>
    exact ⟨size, Data.allEncodable_iff.mpr (forall_mem_of_zip length ih)⟩
  | tupleStruct _ size length _ ih =>
    exact ⟨size, Data.allEncodable_iff.mpr (forall_mem_of_zip length ih)⟩
  | newtype _ ordinary _ ih => exact ⟨ordinary, ih⟩
  | struct _ same _ ih =>
    have hlen := congrArg List.length same.names
    rw [List.length_map, List.length_map] at hlen
    exact ⟨same.size, Data.fieldsEncodable_iff.mpr fun field h =>
      ⟨same.sizes field h, forall_mem_of_zip hlen ih field h⟩⟩
  | unitVariant known => exact known.size
  | newtypeVariant known _ ih => exact ⟨known.size, ih⟩
  | tupleVariant known size length _ ih =>
    exact ⟨known.size, size, Data.allEncodable_iff.mpr (forall_mem_of_zip length ih)⟩
  | structVariant known same _ ih =>
    have hlen := congrArg List.length same.names
    rw [List.length_map, List.length_map] at hlen
    exact ⟨known.size, same.size, Data.fieldsEncodable_iff.mpr fun field h =>
      ⟨same.sizes field h, forall_mem_of_zip hlen ih field h⟩⟩
  | _ => exact trivial

/-- Only nil is written as data that stands for nil. -/
theorem meaning_ne_nil (hd : d.Encodable)
    (hnil : ∀ tail, Encoder.buffered (d.encode config .empty) ≠ .ok (0xc0 :: tail)) :
    d.meaning ≠ .nil := by
  intro hmeaning
  have hwritten : d.meaning.WrittenBy (d.encode config .empty) := d.written hd
  obtain ⟨bytes, hspelled, hwrites⟩ := hwritten
  rw [hmeaning] at hspelled
  cases hspelled with
  | nil header =>
    cases header
    exact hnil [] hwrites.buffered

/-- A value of a type that is written without codecs is read back from memory, whatever codecs
there are: those of the session have no part in that. -/
theorem readsBack (h : Fits config .empty d shape) : d.ReadsBack (shape.read registry) := by
  induction h with
  | bool _ | f32 _ | f64 _ | bytes _ | unit | absent _ | unitStruct _ => rfl
  | int narrow range => exact Shape.int_readsBack narrow range
  | char c => exact Shape.char_readsBack c
  | text _ => exact Shape.text_readsBack _
  | value _ => exact Shape.value_readsBack _
  | integer n => exact Shape.integer_readsBack n
  | timestamp t => exact Shape.timestamp_readsBack t
  | present fits notNil ih =>
    exact Shape.present_readsBack (meaning_ne_nil fits.encodable notNil) ih
  | seq _ _ _ ih => exact Shape.seq_readsBack ih rfl rfl
  | collectSeq _ _ _ ih => exact Shape.seq_readsBack ih rfl rfl
  | map _ _ _ _ ihkeys ih => exact Shape.map_readsBack ihkeys ih rfl rfl
  | collectMap _ _ _ _ ihkeys ih => exact Shape.map_readsBack ihkeys ih rfl rfl
  | tuple _ length _ ih => exact Shape.tuple_readsBack (Shape.readers_match length ih)
  | tupleStruct _ _ length _ ih =>
    exact Shape.tupleStruct_readsBack (Shape.readers_match length ih)
  | newtype _ _ _ ih => exact Shape.newtype_readsBack ih
  | struct _ same _ ih => exact Shape.struct_readsBack same ih
  | unitVariant known => exact Shape.unitVariant_readsBack known
  | newtypeVariant known _ ih => exact Shape.newtypeVariant_readsBack known ih
  | tupleVariant known _ length _ ih =>
    exact Shape.tupleVariant_readsBack known (Shape.readers_match length ih)
  | structVariant known same _ ih => exact Shape.structVariant_readsBack known same ih

end Fits

end MessagePack
