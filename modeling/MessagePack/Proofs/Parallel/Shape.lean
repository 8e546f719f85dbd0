import MessagePack.Proofs.Parallel.Offers
import MessagePack.Proofs.Typed.Layout
import MessagePack.Shape.Read

namespace MessagePack

open Decoding Decoder

variable {terms : Terms} {α β : Type}

namespace Entries

variable {one : Reader α} {item : Reader β} {entries entries' : Entries}

section

variable (hlive : terms.live)

include hlive

theorem fieldKey_parallel (fields : Fields) :
    Parallel terms none (fieldKey fields) (fieldKey fields) := by
  rw [fieldKey_eq]
  refine .element hlive (fun e => ?_) fun free _ _ _ => ?_
  · cases e with
    | raw len => exact .map (.keyBytes fields len)
    | _ => exact .throw none rfl
  · exact .refused none rfl (terms.spare_of_loose free) _

theorem fieldKey_parallel_plainKey (fields : Fields) :
    Parallel terms none (fieldKey fields) plainKey := by
  rw [fieldKey_eq, plainKey]
  refine .element hlive (fun e => ?_) fun free _ _ _ => ?_
  · cases e with
    | raw len => exact .map (.key fields len)
    | _ => exact .throw none rfl
  · exact .refused none rfl (terms.spare_of_loose free) _

theorem key_parallel (table : Option Fields) : Parallel terms none (key table) (key table) := by
  cases table with
  | none => exact .pure _
  | some fields =>
    refine .peekMarker hlive fun marker marker' hkin => ?_
    rw [hkin.isRaw_eq]
    split
    · exact fieldKey_parallel hlive fields
    · exact .pure _

/-- The table is of no account to a reader of keys that makes of a raw what it stands for. -/
theorem key_bind_parallel (hone : one.Parallel terms) (hraws : one.ReadsRaws)
    {table table' : Option Fields} (h : table' = table ∨ table' = none) :
    Parallel terms none (key table >>= one) (key table' >>= one) := by
  have hsame := (key_parallel hlive table).seq fun input => hone input (.inl hlive)
  rcases h with rfl | rfl
  · exact hsame
  cases table with
  | none => exact hsame
  | some fields =>
    obtain ⟨next, hwire, hraw⟩ := hraws
    have hplain : (peekMarker >>= fun marker =>
        if marker.isRaw then plainKey >>= one else one .wire) = one .wire := by
      rw [hwire, plainKey, bind_assoc]
      refine peekMarker_nextElement fun len => ?_
      rw [hraw, bind_assoc]
      rfl
    change Parallel terms none _ (one .wire)
    rw [← hplain, key, bind_assoc]
    refine .peekMarker hlive fun marker marker' hkin => ?_
    rw [hkin.isRaw_eq]
    split
    · exact .seq (fieldKey_parallel_plainKey hlive fields) fun input => hone input (.inl hlive)
    · exact hone .wire (.inl hlive)

end

/-- The same entries, the keys of which are read in parallel. -/
def Alike (terms : Terms) (one : Reader α) (entries entries' : Entries) : Prop :=
  List.Forall₂ (fun pair pair' => Parallel terms none (pair.1 >>= one) (pair'.1 >>= one) ∧
    pair'.2 = pair.2 ∧ terms.Reaches pair.2.InMemory) entries.pairs entries'.pairs

namespace Alike

theorem wire {table table' : Option Fields} (hlive : terms.live) (left total : Nat)
    (h : Parallel terms none (key table >>= one) (key table' >>= one)) :
    Alike terms one (.wire left total table) (.wire left total table') :=
  forall₂_replicate (by exact ⟨h, rfl, .inl hlive⟩) left

theorem refl (hone : one.Parallel terms) (h : terms.Reaches entries.InMemory) :
    Alike terms one entries entries := by
  cases entries with
  | wire left total table =>
    have hlive := h.resolve_right id
    refine .wire hlive left total ?_
    exact .seq (key_parallel hlive table) fun input => hone input (.inl hlive)
  | tree taken rest =>
    refine List.forall₂_same.mpr fun pair hpair => ?_
    obtain ⟨entry, -, rfl⟩ := List.mem_map.mp hpair
    exact ⟨hone _ (.inr trivial), rfl, .inr trivial⟩
  | tokens hint rest =>
    refine List.forall₂_same.mpr fun pair hpair => ?_
    obtain ⟨entry, -, rfl⟩ := List.mem_map.mp hpair
    exact ⟨hone _ (.inr trivial), rfl, .inr trivial⟩

/-- The entries of a structure on the wire, with any table and without one. -/
theorem of_tables (hlive : terms.live) (hone : one.Parallel terms) (hraws : one.ReadsRaws)
    {table table' : Option Fields} (h : table' = table ∨ table' = none) (left total : Nat) :
    Alike terms one (.wire left total table) (.wire left total table') :=
  .wire hlive left total (key_bind_parallel hlive hone hraws h)

end Alike

theorem readEntry_parallel (hitem : item.Parallel terms) {pair pair' : Decoding Input × Input}
    (h : Parallel terms none (pair.1 >>= one) (pair'.1 >>= one) ∧ pair'.2 = pair.2 ∧
      terms.Reaches pair.2.InMemory) :
    Parallel terms none (readEntry one item pair) (readEntry one item pair') := by
  obtain ⟨hkey, hvalue, hreach⟩ := h
  rw [readEntry, readEntry, hvalue]
  exact hkey.seq fun _ => .map (hitem pair.2 hreach)

theorem readAll_parallel (hitem : item.Parallel terms) (h : Alike terms one entries entries') :
    Parallel terms none (entries.readAll one item) (entries'.readAll one item) := by
  rw [readAll_eq, readAll_eq]
  exact .mapM (h.imp fun _ _ => readEntry_parallel hitem)

theorem readPart_parallel (hone : one.Parallel terms) (hitem : item.Parallel terms) (count : Nat)
    (h : terms.Reaches entries.InMemory) :
    Parallel terms none (entries.readPart count one item) (entries.readPart count one item) := by
  rw [readPart_eq]
  have hentries := (Alike.refl hone h).imp fun _ _ => readEntry_parallel hitem
  refine .seq (.mapM (List.forall₂_take count hentries)) fun list => ?_
  exact .map (.settled (finish_immediate _))

end Entries

theorem Choices.read_parallel (known : Choices α) : Reader.Parallel terms known.read := by
  intro input h
  rw [read_eq]
  exact .seq (Input.ask_identifier_parallel h) fun o => .settled (known.take_immediate o)

namespace FieldReader

open Entries (Alike)

variable {fields : List FieldReader} {strict : Bool} {entries entries' : Entries}
  (hfields : ∀ field ∈ fields, field.read.Parallel terms)

include hfields

theorem fillSlot_parallel {pair pair' : Decoding Input × Input}
    (h : Parallel terms none (pair.1 >>= (keys fields strict).read)
        (pair'.1 >>= (keys fields strict).read) ∧
      pair'.2 = pair.2 ∧ terms.Reaches pair.2.InMemory) (slots : List (Option Item)) :
    Parallel terms none (fillSlot (keys fields strict) slots pair)
      (fillSlot (keys fields strict) slots pair') := by
  obtain ⟨hkey, hvalue, hreach⟩ := h
  rw [fillSlot, fillSlot, hvalue]
  refine .bind hkey fun chosen hanswer => ?_
  cases chosen with
  | none =>
    apply Decoding.Parallel.map
    exact Input.fold_parallel (fun _ => Fold.signBlind_ignored) Fold.refuses_ignored _ hreach
  | some chosen =>
    obtain ⟨slot, field⟩ := chosen
    obtain ⟨d, d', hok⟩ := hanswer
    obtain ⟨input, mid, -, hread⟩ := bind_eq_ok_iff.mp hok
    have hfield := hfields field (mem_of_offers (Choices.offers_of_read hread))
    dsimp only
    split
    · exact .bind (.throw none rfl) fun _ _ => .map (hfield _ hreach)
    · exact .map (hfield _ hreach)

theorem readEntries_parallel (h : Alike terms (keys fields strict).read entries entries') :
    Parallel terms none (readEntries fields strict entries)
      (readEntries fields strict entries') := by
  rw [readEntries_eq, readEntries_eq]
  refine .seq (.foldlM (h.imp fun _ _ => fillSlot_parallel hfields) _) fun slots => ?_
  exact .settled (.ofExcept (collect_sourceless fields slots))

/-- The fields are the same whatever table comes with the entries. -/
theorem readOffer_takes (request : Request) (strict : Bool) (expected : String) :
    Offer.Takes terms request (readOffer fields strict expected) where
  same o ho := by
    cases o with
    | map entries =>
      exact readEntries_parallel hfields (.refl (keys fields strict).read_parallel ho)
    | seq items =>
      refine .map (Items.readTuple_parallel ?_ _ ho)
      intro one hone
      obtain ⟨field, hmem, rfl⟩ := List.mem_map.mp hone
      exact hfields field hmem
    | _ => exact .refuse _ _
  number _ _ _ h := Offer.refuse_signed h _
  entries hlive _ len _ _ h :=
    readEntries_parallel hfields (.of_tables hlive (keys fields strict).read_parallel
      (keys fields strict).read_readsRaws h len len)

end FieldReader

namespace Input

theorem token_parallel (hstrict : ¬terms.loose) : Reader.Parallel terms (Input.fold .token) :=
  fold_parallel (fun free => absurd free hstrict) Fold.refuses_token

variable {content? : Option Input} (h : terms.Reaches (ContentInMemory content?))

include h

theorem noContent_parallel : Parallel terms none (noContent content?) (noContent content?) := by
  unfold noContent
  split
  · exact .pure ()
  · exact .pure ()
  · exact nil_parallel (h.resolve_right fun hmem => hmem .wire rfl)
  · exact .throw none rfl

theorem content_bind_parallel (expected : String) {use : Input → Decoding α}
    (huse : ∀ input, terms.Reaches input.InMemory → Parallel terms none (use input) (use input)) :
    Parallel terms none (content expected content? >>= use)
      (content expected content? >>= use) := by
  cases content? with
  | none =>
    refine .bind (.throw none rfl) fun _ hanswer => ?_
    obtain ⟨_, _, hthrow⟩ := hanswer
    exact absurd hthrow throw_ne_ok
  | some input => exact huse input (h.imp_right fun hmem => hmem input rfl)

theorem askTuple_offers : Offers terms .seq none (askTuple content?) := by
  intro α take htake
  rw [askTuple, bind_assoc]
  refine content_bind_parallel h _ fun input hinput => ?_
  exact ask_offers Registry.parallel_empty .seq hinput htake

/-- The contents are asked for as a map, or for whatever they are. -/
theorem askStruct_bind_parallel {take : Offer → Decoding α}
    (htake : ∀ request, Offer.Takes terms request take) :
    Parallel terms none (askStruct content? >>= take) (askStruct content? >>= take) := by
  rw [askStruct, bind_assoc]
  refine content_bind_parallel h _ fun input hinput => ?_
  exact ask_offers Registry.parallel_empty input.structRequest hinput (htake _)

end Input

/-- A probe tells both forms of a number apart. -/
theorem Offer.token_takes (hstrict : ¬terms.loose) (request : Request) :
    Takes terms request token where
  same o ho := by
    have hfold := Input.token_parallel hstrict
    cases o with
    | present content | newtype content => exact .map (hfold content ho)
    | seq items => exact .map (Items.readAll_parallel hfold ho)
    | map entries => exact .map (Entries.readAll_parallel hfold (.refl hfold ho))
    | _ => exact .pure _
  number free := absurd free hstrict
  entries hlive _ len _ _ h := by
    have hfold := Input.token_parallel hstrict
    exact .map (Entries.readAll_parallel hfold
      (.of_tables hlive hfold (Input.fold_readsRaws .token) h len len))

/-- From all contents that can be reached, and from none, the reader goes parallel to itself. -/
def ContentReader.Parallel (terms : Terms) (read : ContentReader) : Prop :=
  ∀ content?, terms.Reaches (ContentInMemory content?) →
    Decoding.Parallel terms none (read content?) (read content?)

theorem ContentReader.readVariant_parallel {variants : List (String × ContentReader)}
    (hvariants : ∀ variant ∈ variants, variant.2.Parallel terms) (expected : String) :
    Reader.Parallel terms (readVariant expected variants) := by
  refine fun input h => Input.askVariant_bind_parallel h fun o ho => ?_
  cases o with
  | other o => exact .refuse _ _
  | variant name content? =>
    have hname : terms.Reaches name.InMemory := ho.imp_right And.left
    have hcontent : terms.Reaches (ContentInMemory content?) := ho.imp_right And.right
    refine .bind ((keys variants).read_parallel name hname) fun read hanswer => ?_
    obtain ⟨d, d', hread⟩ := hanswer
    obtain ⟨variant, hmem, rfl⟩ := mem_of_offers (Choices.offers_of_read hread)
    exact hvariants variant hmem content? hcontent

theorem ContentKind.probe_parallel (hstrict : ¬terms.loose) (kind : ContentKind)
    {content? : Option Input} (h : terms.Reaches (ContentInMemory content?)) :
    Parallel terms none (kind.probe content?) (kind.probe content?) := by
  cases kind with
  | unit => exact .map (Input.noContent_parallel h)
  | newtype =>
    refine Input.content_bind_parallel h _ fun input hinput => ?_
    exact .map (Input.token_parallel hstrict input hinput)
  | tuple => exact Input.askTuple_offers h (Offer.token_takes hstrict .seq).map
  | struct =>
    exact Input.askStruct_bind_parallel h fun request => (Offer.token_takes hstrict request).map

theorem VariantOffer.probe_parallel (hstrict : ¬terms.loose) (kind : ContentKind)
    {o : VariantOffer} (h : terms.Reaches o.InMemory) :
    Parallel terms none (o.probe kind) (o.probe kind) := by
  cases o with
  | other o => exact .map ((Offer.token_takes hstrict .any).same o h)
  | variant name content? =>
    have hname : terms.Reaches name.InMemory := h.imp_right And.left
    refine .seq (Input.token_parallel hstrict name hname) fun _ => ?_
    exact .map (kind.probe_parallel hstrict (h.imp_right And.right))

variable {registry : Registry}

mutual

/-- Whatever type is read, it is read in parallel. Where the form of integers does not count, no
part of the type may take whatever it is offered. -/
theorem Shape.read_parallel (hregistry : registry.Parallel terms) :
    (shape : Shape) → (terms.loose → shape.Plain) → Reader.Parallel terms (shape.read registry)
  | .bool, _, _, hin => Input.ask_offers hregistry .bool hin (Offer.takeBool_scalar.takes rfl).map
  | .int kind, _, input, hin => .map (kind.read_parallel input hin)
  | .f32, _, _, hin => Input.ask_offers hregistry .f32 hin (Offer.takeF32_scalar.takes rfl).map
  | .f64, _, _, hin => Input.ask_offers hregistry .f64 hin (Offer.takeF64_scalar.takes rfl).map
  | .char, _, _, hin => Input.ask_offers hregistry .text hin (Offer.takeChar_scalar.takes rfl).map
  | .text, _, _, hin => Input.ask_offers hregistry .text hin (Offer.takeText_scalar.takes rfl).map
  | .bytes, _, _, hin => Input.ask_offers hregistry .bytes hin Offer.takeBytes_takes.map
  | .unit, _, _, hin =>
    Input.ask_offers hregistry .unit hin ((Offer.takeUnit_scalar _).takes rfl).map
  | .ignored, _, input, hin =>
    .map (Input.fold_parallel (fun _ => Fold.signBlind_ignored) Fold.refuses_ignored input hin)
  | .human, _, _, _ => .pure _
  | .value, _, input, hin =>
    .map (Input.fold_parallel (fun _ => Fold.signBlind_value) Fold.refuses_value input hin)
  | .integer, _, _, hin =>
    Input.ask_offers hregistry .any hin (Offer.takeInteger_scalar.takes rfl).map
  | .timestamp, _, _, hin => Input.ask_offers hregistry _ hin Timestamp.take_takes.map
  | .option content, h, _, hin => by
    refine Input.ask_offers hregistry .option hin ⟨fun o ho => ?_, fun _ _ _ => ?_, nofun⟩
    · cases o with
      | absent | unit => exact .pure _
      | present inner => exact .map (content.read_parallel hregistry h inner ho)
      | _ => exact .refuse _ _
    · exact fun hvn => Offer.refuse_signed hvn _
  | .seq item, h, _, hin => by
    refine Input.ask_offers hregistry .seq hin ⟨fun o ho => ?_, fun _ _ _ => ?_, nofun⟩
    · cases o with
      | seq items => exact .map (Items.readAll_parallel (item.read_parallel hregistry h) ho)
      | _ => exact .refuse _ _
    · exact fun hvn => Offer.refuse_signed hvn _
  | .map key item, h, _, hin => by
    refine Input.ask_offers hregistry .map hin ⟨fun o ho => ?_, fun _ _ _ => ?_, nofun⟩
    · cases o with
      | map entries =>
        have hkey := key.read_parallel hregistry fun free => (h free).1
        have hitem := item.read_parallel hregistry fun free => (h free).2
        exact .map (Entries.readAll_parallel hitem (.refl hkey ho))
      | _ => exact .refuse _ _
    · exact fun hvn => Offer.refuse_signed hvn _
  | .mapPart count key item, h, _, hin => by
    refine Input.ask_offers hregistry .map hin ⟨fun o ho => ?_, fun _ _ _ => ?_, nofun⟩
    · cases o with
      | map entries =>
        have hkey := key.read_parallel hregistry fun free => (h free).1
        have hitem := item.read_parallel hregistry fun free => (h free).2
        exact .map (Entries.readPart_parallel hkey hitem count ho)
      | _ => exact .refuse _ _
    · exact fun hvn => Offer.refuse_signed hvn _
  | .tuple items, h, _, hin => Input.ask_offers hregistry .tuple hin
    (Offer.takeTuple_takes (Shape.readers_parallel hregistry items h) _ _ rfl).map
  | .tupleStruct name items, h, _, hin => Input.ask_offers hregistry (.tupleStruct name) hin
    (Offer.takeTuple_takes (Shape.readers_parallel hregistry items h) _ _ rfl).map
  | .unitStruct name, _, _, hin => Input.ask_offers hregistry (.unitStruct name) hin
    ((Offer.takeUnit_scalar _).takes rfl).map
  | .newtype name content, h, _, hin => by
    have hcontent := content.read_parallel hregistry h
    refine Input.ask_offers hregistry (.newtype name) hin ⟨fun o ho => ?_, fun _ _ _ => ?_, nofun⟩
    · cases o with
      | newtype inner => exact .map (hcontent inner ho)
      | _ =>
        have hreaders : ∀ one ∈ [content.read registry], Reader.Parallel terms one := by
          simpa using hcontent
        exact .map (Offer.takeTuple_parallel hreaders _ _ ho)
    · exact fun hvn => congrArg (· >>= _) (Offer.refuse_signed hvn _)
  | .struct _ fields strict, h, _, hin => Input.ask_offers hregistry _ hin
    (FieldReader.readOffer_takes (Shape.fieldReaders_parallel hregistry fields h) _ strict _).map
  | .enumeration name variants, h, input, hin => ContentReader.readVariant_parallel
    (Shape.contentReaders_parallel hregistry name variants h) _ input hin
  | .probe request, h, _, hin =>
    Input.ask_offers hregistry request hin (Offer.token_takes h request).map
  | .probeVariant kind, h, _, hin =>
    Input.askVariant_bind_parallel hin fun _ ho => VariantOffer.probe_parallel h kind ho

theorem Shape.readers_parallel (hregistry : registry.Parallel terms) : (shapes : List Shape) →
    (terms.loose → Shape.PlainAll shapes) →
      ∀ one ∈ Shape.readers registry shapes, Reader.Parallel terms one
  | [], _, _, hone => nomatch hone
  | shape :: rest, h, one, hone => by
    rcases List.mem_cons.mp hone with rfl | hrest
    · exact shape.read_parallel hregistry fun free => (h free).1
    · exact Shape.readers_parallel hregistry rest (fun free => (h free).2) one hrest

theorem Shape.fieldReaders_parallel (hregistry : registry.Parallel terms) :
    (fields : List (String × Shape)) → (terms.loose → Shape.PlainFields fields) →
      ∀ field ∈ Shape.fieldReaders registry fields, Reader.Parallel terms field.read
  | [], _, _, hfield => nomatch hfield
  | (_, shape) :: rest, h, field, hfield => by
    rcases List.mem_cons.mp hfield with rfl | hrest
    · exact shape.read_parallel hregistry fun free => (h free).1
    · exact Shape.fieldReaders_parallel hregistry rest (fun free => (h free).2) field hrest

theorem Content.read_parallel (hregistry : registry.Parallel terms) (type variant : String) :
    (content : Content) → (terms.loose → content.Plain) →
      ContentReader.Parallel terms (content.read registry type variant)
  | .unit, _, _, hin => .map (Input.noContent_parallel hin)
  | .newtype content, h, _, hin => Input.content_bind_parallel hin _ fun input hinput =>
    .map (content.read_parallel hregistry h input hinput)
  | .tuple items, h, _, hin => Input.askTuple_offers hin
    (Offer.takeTuple_takes (Shape.readers_parallel hregistry items h) _ _ rfl).map
  | .struct fields, h, _, hin => Input.askStruct_bind_parallel hin fun request =>
    (FieldReader.readOffer_takes (Shape.fieldReaders_parallel hregistry fields h) request false
      _).map

theorem Shape.contentReaders_parallel (hregistry : registry.Parallel terms) (type : String) :
    (variants : List (String × Content)) → (terms.loose → Content.PlainAll variants) →
      ∀ variant ∈ Shape.contentReaders registry type variants,
        ContentReader.Parallel terms variant.2
  | [], _, _, hvariant => nomatch hvariant
  | (name, content) :: rest, h, variant, hvariant => by
    rcases List.mem_cons.mp hvariant with rfl | hrest
    · exact content.read_parallel hregistry type name fun free => (h free).1
    · exact Shape.contentReaders_parallel hregistry type rest (fun free => (h free).2) variant hrest

end

end MessagePack
