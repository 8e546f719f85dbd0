import MessagePack.Proofs.Typed.Reading

namespace MessagePack

open Decoding Decoder
open Wire (Element Forest ElementTree)

variable {α β : Type} {settled : Prop} {layout : Layout}

theorem exists_of_forall₂_of_mem {X Y : Type} {R : X → Y → Prop} {xs : List X} {ys : List Y}
    (h : List.Forall₂ R xs ys) {y : Y} (hmem : y ∈ ys) : ∃ x ∈ xs, R x y := by
  induction h with
  | nil => cases hmem
  | cons hone _ ih =>
    rcases List.mem_cons.mp hmem with rfl | hrest
    · exact ⟨_, List.mem_cons_self, hone⟩
    · obtain ⟨x, hx, hR⟩ := ih hrest
      exact ⟨x, List.mem_cons_of_mem _ hx, hR⟩

theorem Input.fold_reads {f : Fold α} (hf : f.Refuses) :
    Reader.Reads settled .whole (Input.fold f) :=
  ⟨Decoder.fold_reads f, Input.fold_parallel nofun hf⟩

theorem IntKind.read_reads (kind : IntKind) : Reader.Reads settled .leaf kind.read where
  wire := offer_reads_scalar (.int kind) fun o =>
    (kind.take_scalar.keeps o).mono fun _ h => ⟨h, trivial⟩
  memory := kind.read_parallel

theorem Choices.read_reads (known : Choices α) :
    Decoding.Reads settled .leaf true known.Offers (known.read .wire) := by
  rw [Choices.read_eq, Input.ask_wire rfl]
  exact offer_reads_scalar .identifier known.take_keeps

namespace Layout

theorem seq_of_concat {item : Layout} {n : Nat} {f : Forest}
    (h : concat (List.replicate n item) f) : seq item [.node (.array n) f] :=
  ⟨n, .inr ⟨f, h, by rw [List.length_replicate]⟩⟩

theorem whole_of_items {n : Nat} {f : Forest} (h : concat (List.replicate n whole) f) :
    whole [.node (.array n) f] := by
  obtain ⟨hsized, hlen⟩ := sized_concat .eq (fun layout hmem =>
    (List.mem_replicate.mp hmem).2 ▸ sized_whole .eq) f h
  rw [List.length_replicate, Nat.mul_one] at hlen
  exact ⟨.node (.array n) f, ⟨hlen, hsized⟩, rfl⟩

theorem whole_of_entries {n : Nat} {f : Forest}
    (h : concat (List.replicate n (append whole whole)) f) : whole [.node (.map n) f] := by
  obtain ⟨hsized, hlen⟩ := sized_concat .eq (fun layout hmem =>
    (List.mem_replicate.mp hmem).2 ▸ sized_append .eq (sized_whole .eq) (sized_whole .eq)) f h
  rw [List.length_replicate, Nat.mul_comm] at hlen
  exact ⟨.node (.map n) f, ⟨hlen, hsized⟩, rfl⟩

theorem whole_of_entry {f : Forest} (h : append whole whole f) : whole [.node (.map 1) f] := by
  have hone : concat (List.replicate 1 (append whole whole)) f := ⟨f, [], h, rfl, by simp⟩
  exact whole_of_entries hone

theorem whole_of_leaf {f : Forest} (h : leaf f) : whole f := by
  obtain ⟨e, he, rfl⟩ := h
  have hitems : e.items = 0 := by cases e <;> first | rfl | cases he
  exact ⟨.node e [], ⟨hitems.symm, trivial⟩, rfl⟩

end Layout

namespace Offer

/-- Whatever is offered, with everything inside it, is one complete element. -/
theorem token_reads (request : Request) :
    Decoding.Reads settled .whole true (fun _ => True) (Decoder.offer request >>= token) := by
  have hfold : Reader.Reads settled .whole (Input.fold .token) :=
    Input.fold_reads Fold.refuses_token
  refine offer_reads request (fun _ o ho f hf => ?_) (fun n => ?_) (fun n fields _ => ?_)
    (fun _ => ?_) fun name _ => ?_
  · have hkeeps := (token_takes id request).keeps ho.inMemory
    exact hkeeps.mono fun _ _ => ⟨trivial, Layout.whole_of_leaf hf⟩
  · exact (Items.readAll_reads hfold n).map.mono (fun _ f _ => Layout.whole_of_items)
      fun _ _ => trivial
  · exact (Entries.readPart_reads hfold hfold fields (fun _ f => Layout.whole_of_leaf) n n).map.mono
      (fun _ f _ => Layout.whole_of_entries) fun _ _ => trivial
  · exact hfold.wire.map
  · exact hfold.wire.map

theorem takeBytes_reads :
    Decoding.Reads settled (.seq .leaf) true (fun _ => True)
      (Decoder.offer .bytes >>= takeBytes) := by
  have hbyte : Reader.Reads settled .leaf fun input => do
      return UInt8.ofNat (← IntKind.u8.read input).toNat :=
    ⟨IntKind.u8.read_reads.wire.map, fun input h => .map (IntKind.u8.read_parallel input h)⟩
  refine offer_reads .bytes (fun _ o ho f hf => ?_) (fun n => ?_) (fun _ _ _ => .throw) nofun nofun
  · exact (takeBytes_takes.keeps ho.inMemory).mono fun _ _ => ⟨trivial, 0, .inl hf⟩
  · exact (Items.readAll_reads hbyte n).mono (fun _ f _ => Layout.seq_of_concat)
      fun _ _ => trivial

/-- A tuple is read from an array with its items, or from the bytes of a raw. -/
theorem takeTuple_reads {readers : List (Reader α)} {layouts : List Layout} (request : Request)
    (h : List.Forall₂ (Reader.Reads settled) layouts readers)
    (hoption : request ≠ .option) (hnewtype : ∀ name, request ≠ .newtype name)
    (expected short : String) :
    Decoding.Reads settled (.items layouts) true (fun _ => True)
      (Decoder.offer request >>= fun o => o.takeTuple expected short readers) := by
  have hreaders : ∀ one ∈ readers, one.Parallel .memory := by
    intro one hmem
    obtain ⟨layout, -, hone⟩ := exists_of_forall₂_of_mem h hmem
    exact hone.memory
  refine offer_reads request (fun _ o ho f hf => ?_) (fun n => ?_) (fun _ _ _ => .throw)
    (fun heq => absurd heq hoption) fun name heq => absurd heq (hnewtype name)
  · have hkeeps := (takeTuple_parallel hreaders expected short (.inr ho.inMemory)).keeps rfl
    exact hkeeps.mono fun _ _ => ⟨trivial, .inl hf⟩
  · exact (Items.readTuple_reads h short n).mono
      (fun _ f hn hf => .inr ⟨f, hf, by rw [hn]⟩) fun _ _ => trivial

end Offer

theorem Timestamp.readTuple_reads :
    Reader.Reads settled (.items [.leaf, .leaf]) Timestamp.readTuple where
  wire := by
    have hpair : List.Forall₂ (Reader.Reads settled) [Layout.leaf, Layout.leaf]
        [IntKind.i64.read, IntKind.i64.read] :=
      .cons IntKind.i64.read_reads (.cons IntKind.i64.read_reads .nil)
    refine offer_reads .tuple (fun _ o ho f hf => ?_) (fun n => ?_)
      (fun _ _ _ => .throw) nofun nofun
    · cases o with
      | seq items =>
        have hmemory : Terms.memory.Reaches items.InMemory := .inr ho.inMemory
        have hread := Items.readTuple_parallel pair_parallel "a tuple of size 2" hmemory
        exact (hread.keeps rfl).map.mono fun _ _ => ⟨trivial, .inl hf⟩
      | _ => exact .throw
    · exact ((Items.readTuple_reads hpair _ n).keeping (Q := fun _ => n = 2)
        fun _ hn => .pure hn).mono (fun _ f hn hf => .inr ⟨f, hf, by rw [hn]; rfl⟩)
        fun _ _ => trivial
  memory := readTuple_parallel

namespace FieldReader

variable {fields : List FieldReader} {layouts : List Layout}
  (h : List.Forall₂ (fun layout field => Reader.Reads settled layout field.read) layouts fields)

include h

/-- An entry goes over a key and, whatever that stands for, over one thing more. -/
theorem fillSlot_reads (strict : Bool) (table : Option Fields) (slots : List (Option Item)) :
    Decoding.Reads settled (.append .leaf (.either .whole (.anyOf layouts))) true (fun _ => True)
      (fillSlot (keys fields strict) slots (Entries.key table, .wire)) := by
  have hkey : Decoding.Reads settled .leaf true (keys fields strict).Offers
      (Entries.key table >>= (keys fields strict).read) := Entries.key_reads
    (keys fields strict).read_reads
    (fun _ hin => (keys fields strict).read_keeps hin) table fun _ f hf => hf
  suffices hfill : ∀ chosen, (keys fields strict).Offers chosen →
      Decoding.Reads settled (.either .whole (.anyOf layouts)) true (fun _ => True) _ from
    hkey.bind hfill
  intro chosen hchosen
  cases chosen with
  | none =>
    have hignored : Decoding.Reads settled .whole true (fun _ => True) (Decoder.fold .ignored) :=
      Decoder.fold_reads .ignored
    exact (hignored.mono (fun _ f _ hf => .inl hf) fun _ h => h).map
  | some chosen =>
    obtain ⟨slot, field⟩ := chosen
    obtain ⟨layout, hlayout, hread⟩ := exists_of_forall₂_of_mem h (mem_of_offers hchosen)
    dsimp only
    split
    · intro d a d' _ hok
      obtain ⟨_, _, hthrow, -⟩ := bind_eq_ok_iff.mp hok
      exact absurd hthrow throw_ne_ok
    · exact (hread.wire.mono (fun _ f _ hf => .inr ⟨layout, hlayout, hf⟩) fun _ h => h).map

/-- A structure is read from a map, or from an array with its fields. -/
theorem readOffer_reads (strict : Bool) (expected : String) (request : Request)
    (hr : request.forFields = true) :
    Decoding.Reads settled (.fields layouts) true (fun _ => True)
      (Decoder.offer request >>= readOffer fields strict expected) := by
  have hreaders : List.Forall₂ (Reader.Reads settled) layouts (fields.map read) :=
    List.forall₂_map_right_iff.mpr h
  refine offer_reads request (fun hfalse => ?_) (fun n => ?_) (fun n table _ => ?_) ?_ ?_
  · rw [hr] at hfalse
    cases hfalse
  · exact ((Items.readTuple_reads hreaders _ n).keeping (Q := fun _ => n = layouts.length)
      fun _ hn => .pure hn).mono (fun _ f hn hf => .inl ⟨f, hf, by rw [hn]⟩) fun _ _ => trivial
  · have hslots := Decoding.Reads.foldlM (forall₂_replicate (fillSlot_reads h strict table) n)
      (List.replicate fields.length none)
    rw [readOffer, readEntries_eq]
    exact (hslots.keeping (Q := fun _ => True) fun _ _ => .ofExcept fun _ _ => trivial).mono
      (fun _ f _ hf => .inr ⟨n, f, hf, rfl⟩) fun _ h => h
  · intro heq
    subst heq
    cases hr
  · intro name heq
    subst heq
    cases hr

end FieldReader

/-- A reader of contents that goes over elements of the layout on the wire, and over none where
there are no contents or they are in memory. -/
structure ContentReader.Reads (settled : Prop) (layout : Layout) (read : ContentReader) : Prop where
  wire : Decoding.Reads settled layout true (fun _ => True) (read (some .wire))
  memory : read.Parallel .memory

theorem Layout.single_of_append {key item : Layout} {f : Forest} (h : append key item f) :
    single key item [.node (.map 1) f] := ⟨f, h, rfl⟩

theorem ContentReader.readVariant_reads {variants : List (String × ContentReader)}
    {layouts : List Layout}
    (h : List.Forall₂ (fun layout variant => ContentReader.Reads settled layout variant.2)
      layouts variants) (expected : String) :
    Decoding.Reads settled (.either .leaf (.single .leaf (.anyOf layouts))) true (fun _ => True)
      (readVariant expected variants .wire) := by
  refine offerVariant_reads ?_ ?_
  · refine ((keys variants).read_reads.keeping fun read hread => ?_).mono
      (fun _ f _ hf => .inl hf) fun _ h => h
    obtain ⟨variant, hmem, rfl⟩ := mem_of_offers hread
    obtain ⟨layout, -, hreads⟩ := exists_of_forall₂_of_mem h hmem
    exact (hreads.memory none (.inr nofun)).keeps rfl
  · have hcontent : ∀ read, (keys variants).Offers read →
        Decoding.Reads settled (.anyOf layouts) true (fun _ => True) (read (some .wire)) := by
      intro read hread
      obtain ⟨variant, hmem, rfl⟩ := mem_of_offers hread
      obtain ⟨layout, hlayout, hreads⟩ := exists_of_forall₂_of_mem h hmem
      exact hreads.wire.mono (fun _ f _ hf => ⟨layout, hlayout, hf⟩) fun _ h => h
    exact ((keys variants).read_reads.bind hcontent).weaken.mono
      (fun _ f _ hf => .inr (Layout.single_of_append hf)) fun _ h => h

namespace Input

theorem askTuple_wire : askTuple (some .wire) = Decoder.offer .seq := rfl

theorem askStruct_wire : askStruct (some .wire) = Decoder.offer .map := rfl

theorem noContent_reads :
    Decoding.Reads settled .leaf true (fun _ => True) (noContent (some .wire)) := by
  intro d a d' hs hok
  obtain ⟨e, mid, hnext, hrest⟩ := bind_eq_ok_iff.mp hok
  cases e with
  | nil =>
    obtain ⟨rfl, rfl⟩ := pure_eq_ok_iff.mp hrest
    obtain ⟨header, -, hpassed, hp⟩ := Decoder.passed_nextElement hs hnext rfl
    exact ⟨trivial, [.node .nil []], header, ⟨.nil, rfl, rfl⟩, hpassed, fun _ _ => hp⟩
  | _ => exact absurd hrest throw_ne_ok

end Input

/-- The contents of a variant as they are offered are one complete element. -/
theorem ContentKind.probe_reads (kind : ContentKind) :
    Decoding.Reads settled .whole true (fun _ => True) (kind.probe (some .wire)) := by
  cases kind with
  | unit => exact Input.noContent_reads.map.mono (fun _ f _ => Layout.whole_of_leaf) fun _ h => h
  | newtype => exact (Decoder.fold_reads .token).map
  | tuple =>
    rw [probe, Input.askTuple_wire]
    exact (Offer.token_reads .seq).make
  | struct =>
    rw [probe, Input.askStruct_wire]
    exact (Offer.token_reads .map).make

theorem VariantOffer.probe_reads (kind : ContentKind) :
    Decoding.Reads settled .whole true (fun _ => True)
      (Decoder.offerVariant >>= probe kind) := by
  refine offerVariant_reads ?_ ?_
  · have hmemory : Terms.memory.Reaches (ContentInMemory none) := .inr nofun
    have hnone := (kind.probe_parallel id hmemory).keeps rfl
    exact (Decoder.fold_reads .token).keeping fun _ _ => hnone.map
  · suffices hpair : Decoding.Reads settled (.append .whole .whole) true (fun _ => True)
        (probe kind (.variant .wire (some .wire))) from
      hpair.weaken.mono (fun _ f _ hf => Layout.whole_of_entry hf) fun _ h => h
    exact (Decoder.fold_reads .token).bind fun _ _ => kind.probe_reads.map

end MessagePack
