import MessagePack.Proofs.Parallel.Basic
import MessagePack.Registry

namespace MessagePack

open Decoding Decoder
open Wire (Element Marker)

variable {terms : Terms} {α β : Type}

/-- What is taken is taken alike: from the same offer, from both forms of a number where they do
not count, and, if a structure was asked for, with a table of its fields and without one. -/
structure Offer.Takes (terms : Terms) (request : Request) (take : Offer → Decoding α) : Prop where
  same : ∀ o, terms.Reaches o.InMemory → Parallel terms none (take o) (take o)
  number : terms.loose → ∀ ⦃v n⦄, v.toInt = n.toNat → take (.signed v) = take (.unsigned n)
  entries : terms.live → request.isStruct = true → ∀ len table table',
    table' = table ∨ table' = none →
      Parallel terms none (take (offerEntries len table)) (take (offerEntries len table'))

/-- What is offered may be taken in any such way. -/
def Decoding.Offers (terms : Terms) (request : Request) (owed : Option Nat)
    (reading : Decoding Offer) : Prop :=
  ∀ ⦃α : Type⦄ ⦃take : Offer → Decoding α⦄, Offer.Takes terms request take →
    Parallel terms owed (reading >>= take) (reading >>= take)

namespace Offer

variable {request : Request}

theorem Takes.map {take : Offer → Decoding α} {f : α → β} (h : Takes terms request take) :
    Takes terms request fun o => take o >>= fun a => pure (f a) where
  same o ho := (h.same o ho).map
  number free _ _ hvn := by rw [h.number free hvn]
  entries hlive hstruct len table table' htable :=
    (h.entries hlive hstruct len table table' htable).map

theorem TakesScalar.takes {take : Offer → Decoding α} (h : TakesScalar take)
    (hrequest : request.isStruct = false) : Takes terms request take where
  same o _ := by
    rcases h.immediate o with ⟨-, himmediate⟩ | ⟨expected, hrefuse⟩
    · exact .settled himmediate
    · rw [hrefuse]
      exact .refuse o expected
  number _ _ _ hvn := h.number hvn
  entries _ hstruct := by simp [hrequest] at hstruct

end Offer

namespace Decoding

variable {request : Request} {owed : Option Nat} (hlive : terms.live)

include hlive

theorem Parallel.offers {reading : Decoding Offer} (h : Parallel terms owed reading reading) :
    Offers terms request owed reading :=
  fun _ _ htake => h.seq fun o => htake.same o (.inl hlive)

/-- An element is offered as it is: where both forms of a number are read, both are offered, and
where the signed form is an error, nothing is. -/
theorem Offers.element {next : Element → Decoding Offer}
    (same : ∀ e, Offers terms request e.owed? (next e))
    (number : ∀ v n, next (.int v) = pure (.signed v) ∧ next (.uint n) = pure (.unsigned n) ∨
      ∃ e : Error, e.isReadFailure = false ∧ next (.int v) = throw e) :
    Offers terms request none (nextElement >>= next) := by
  intro α take htake
  rw [bind_assoc]
  refine .element hlive (fun e => same e htake) fun free v n hvn => ?_
  rcases number v n with ⟨hsigned, hunsigned⟩ | ⟨e, own, hthrow⟩
  · rw [hsigned, hunsigned, pure_bind, pure_bind, htake.number free hvn]
    exact htake.same _ (.inl hlive)
  · rw [hthrow]
    exact .refused none own (terms.spare_of_loose free) _

end Decoding

namespace Decoder

theorem offerRaw_parallel (len : Nat) :
    Parallel terms (some len) (offerRaw len) (offerRaw len) := by
  refine .seq (.payload len) fun bytes => ?_
  split <;> exact .pure _

theorem offerText_parallel (len : Nat) :
    Parallel terms (some len) (offerText len) (offerText len) := by
  refine .seq (.payload len) fun bytes => ?_
  split
  · exact .pure _
  · exact .throw none rfl

variable {f : Fold α} {levels levels' : Nat} {request : Request} (hlive : terms.live)

include hlive

theorem offerAny_offers : Offers terms request none offerAny := by
  refine .element hlive (fun e => ?_) fun _ _ => .inl ⟨rfl, rfl⟩
  refine Parallel.offers hlive ?_
  cases e with
  | raw len => exact offerRaw_parallel len
  | _ => exact .pure _

theorem offerSeq_offers : Offers terms request none offerSeq := by
  refine .element hlive (fun e => ?_) fun _ _ => .inr ⟨_, rfl, rfl⟩
  refine Parallel.offers hlive ?_
  cases e with
  | array len => exact .pure _
  | raw len => exact .map (.payload len)
  | _ => exact .throw none rfl

/-- A signed number is no identifier, in whatever form. -/
theorem offer_identifier_parallel :
    Parallel terms none (offer .identifier) (offer .identifier) := by
  refine .element hlive (fun e => ?_) fun free _ _ _ => ?_
  · cases e with
    | raw len => exact offerRaw_parallel len
    | uint n => exact .pure _
    | _ => exact .throw none rfl
  · exact .refused none rfl (terms.spare_of_loose free) _

theorem offer_option_parallel : Parallel terms none (offer .option) (offer .option) := by
  rw [offer_option_nil]
  refine .peekMarker hlive fun marker marker' hkin => ?_
  simp only [hkin.nil_iff]
  split
  · exact .map (nil_parallel hlive)
  · exact .pure _

theorem offerVariant_parallel : Parallel terms none offerVariant offerVariant := by
  refine .peekMarker hlive fun marker marker' hkin => ?_
  rw [hkin.isMap_eq, hkin.isRaw_eq]
  split
  · refine .seq (mapLen_parallel hlive) fun len => ?_
    split
    · exact .bind (.throw none rfl) fun _ _ => .pure _
    · exact .pure _
  · split
    · exact .pure _
    · refine .element hlive (fun e => .throw _ rfl) fun free _ _ _ => ?_
      exact .refused none rfl (terms.spare_of_loose free) _

/-- Whatever the session is asked for, it may be taken of. -/
theorem offer_offers (request : Request) : Offers terms request none (offer request) := by
  cases request with
  | any | ignored => exact offerAny_offers hlive
  | bool | f32 | f64 | unit | unitStruct _ | map =>
    refine .element hlive (fun e => ?_) fun _ _ => .inr ⟨_, rfl, rfl⟩
    refine Parallel.offers hlive ?_
    cases e <;> first | exact .pure _ | exact .throw _ rfl
  | int kind =>
    rw [offer]
    split
    -- where numbers so wide are refused there is never anything to go on with
    · refine Parallel.offers hlive (.bind (.throw none rfl) fun _ hanswer => ?_)
      obtain ⟨_, _, hthrow⟩ := hanswer
      exact absurd hthrow throw_ne_ok
    · refine .element hlive (fun e => ?_) fun _ _ => .inl ⟨rfl, rfl⟩
      refine Parallel.offers hlive ?_
      cases e <;> first | exact .pure _ | exact .throw _ rfl
  | text =>
    refine .element hlive (fun e => ?_) fun _ _ => .inr ⟨_, rfl, rfl⟩
    refine Parallel.offers hlive ?_
    cases e with
    | raw len => exact offerText_parallel len
    | _ => exact .throw none rfl
  | bytes =>
    refine .element hlive (fun e => ?_) fun _ _ => .inr ⟨_, rfl, rfl⟩
    refine Parallel.offers hlive ?_
    cases e with
    | raw len => exact .map (.payload len)
    | array len => exact .pure _
    | _ => exact .throw none rfl
  | option => exact (offer_option_parallel hlive).offers hlive
  | newtype name => exact (Parallel.pure _).offers hlive
  | seq | tuple | tupleStruct name => exact offerSeq_offers hlive
  | struct name names =>
    refine .element hlive (fun e => ?_) fun _ _ => .inr ⟨_, rfl, rfl⟩
    cases e with
    | map len =>
      intro α take htake
      dsimp only
      rw [bind_assoc]
      refine .fieldsOf hlive fun table table' htable => ?_
      rw [pure_bind, pure_bind]
      exact htake.entries hlive rfl len table table' htable
    | array len => exact (Parallel.pure _).offers hlive
    | _ => exact (Parallel.throw _ rfl).offers hlive
  | identifier => exact (offer_identifier_parallel hlive).offers hlive

end Decoder

theorem Fold.SignBlind.signed_eq {f : Fold α} (hf : f.SignBlind) {v : Int64} {n : UInt64}
    (h : v.toInt = n.toNat) : f.signed v = f.unsigned n := by
  rw [hf, Integer.ofInt64_eq_ofUInt64 h, int_ofUInt64]

namespace Decoder

variable {f : Fold α} {levels levels' : Nat}

theorem foldInside_parallel
    (h : Parallel terms none (foldLevels f levels) (foldLevels f levels')) (e : Element) :
    Parallel terms e.owed? (foldInside f levels e) (foldInside f levels' e) := by
  cases e with
  | raw len => exact .map (.payload len)
  | array len => exact .map (h.replicate len)
  | map len =>
    have hentry : Parallel terms none
        (foldLevels f levels >>= fun k => foldLevels f levels >>= fun v => pure (k, v))
        (foldLevels f levels' >>= fun k => foldLevels f levels' >>= fun v => pure (k, v)) :=
      h.seq fun k => h.map
    exact .map (hentry.replicate len)
  | _ => exact .pure _

variable (hlive : terms.live) (hf : terms.loose → f.SignBlind)

include hlive hf

/-- With more levels to go down, whatever can be read is read. -/
theorem foldLevels_parallel (h : levels' = levels ∨ terms.spare ∧ levels ≤ levels') :
    Parallel terms none (foldLevels f levels) (foldLevels f levels') := by
  induction levels generalizing levels' with
  | zero =>
    rcases h with rfl | ⟨hspare, -⟩
    · exact .throw none rfl
    · exact .refused none rfl hspare _
  | succ levels ih =>
    obtain ⟨levels', rfl⟩ : ∃ n, levels' = n + 1 := ⟨levels' - 1, by omega⟩
    rw [foldLevels_succ, foldLevels_succ]
    refine .element hlive (foldInside_parallel (ih ?_)) fun free v n hvn => ?_
    · exact h.imp Nat.succ.inj (And.imp_right Nat.le_of_succ_le_succ)
    · simp only [foldInside, (hf free).signed_eq hvn]
      exact .pure _

theorem fold_parallel : Parallel terms none (fold f) (fold f) := by
  rw [fold_eq]
  refine .limit hlive fun levels levels' h => foldLevels_parallel hlive hf ?_
  exact h.imp (congrArg (· + 1)) (And.imp_right Nat.succ_le_succ)

end Decoder

/-- Every codec of the registry has a part in parallel readings. -/
def Registry.Parallel (terms : Terms) (registry : Registry) : Prop :=
  ∀ name codec, registry.get? name = some codec → terms.codec codec.decode

theorem Registry.parallel_empty : Registry.empty.Parallel terms := nofun

/-- From every input that can be reached the reader goes parallel to itself. -/
def Reader.Parallel (terms : Terms) (one : Reader α) : Prop :=
  ∀ input, terms.Reaches input.InMemory → Decoding.Parallel terms none (one input) (one input)

namespace Input

variable {registry : Registry} {input : Input}

/-- A codec's value, like anything that is in memory already, offers the same both times. -/
theorem ask_offers (hregistry : registry.Parallel terms) (request : Request)
    (h : terms.Reaches input.InMemory) :
    Offers terms request none (input.ask registry request) := by
  cases input with
  | wire =>
    have hlive := h.resolve_right id
    rw [ask]
    split
    · rename_i codec hcodec
      obtain ⟨name, -, hname⟩ := Option.bind_eq_some_iff.mp hcodec
      refine Parallel.offers hlive (.seq (.codec hlive (hregistry name codec hname)) fun v => ?_)
      exact .settled (.ofExcept (v.offer_sourceless request))
    · exact offer_offers hlive request
  | tree v =>
    intro α take htake
    refine .bind (.settled (.ofExcept (v.offer_sourceless request))) fun o hanswer => ?_
    obtain ⟨d, d', hok⟩ := hanswer
    exact htake.same o (.inr (Value.offer_inMemory (ofExcept_eq_ok_iff.mp hok).1))
  | token t =>
    intro α take htake
    change Parallel terms none (take t.offer) (take t.offer)
    exact htake.same _ (.inr t.offer_inMemory)

theorem ask_identifier_parallel (h : terms.Reaches input.InMemory) :
    Parallel terms none (input.ask .empty .identifier) (input.ask .empty .identifier) := by
  cases input with
  | wire =>
    rw [ask_wire rfl]
    exact offer_identifier_parallel (h.resolve_right id)
  | tree v => exact .settled (.ofExcept (v.offer_sourceless .identifier))
  | token t => exact .pure _

theorem askVariant_bind_parallel (h : terms.Reaches input.InMemory)
    {take : VariantOffer → Decoding α}
    (htake : ∀ o, terms.Reaches o.InMemory → Parallel terms none (take o) (take o)) :
    Parallel terms none (input.askVariant >>= take) (input.askVariant >>= take) := by
  cases input with
  | wire =>
    have hlive := h.resolve_right id
    exact .seq (offerVariant_parallel hlive) fun o => htake o (.inl hlive)
  | tree v =>
    refine .bind (.settled (.ofExcept v.offerVariant_sourceless)) fun o hanswer => ?_
    obtain ⟨d, d', hok⟩ := hanswer
    exact htake o (.inr (Value.offerVariant_inMemory (ofExcept_eq_ok_iff.mp hok).1))
  | token t =>
    change Parallel terms none (take (.other t.offer)) (take (.other t.offer))
    exact htake _ (.inr t.offer_inMemory)

theorem fold_parallel {f : Fold α} (hf : terms.loose → f.SignBlind) (hown : f.Refuses) :
    Reader.Parallel terms (Input.fold f) := by
  intro input h
  cases input with
  | wire => exact Decoder.fold_parallel (h.resolve_right id) hf
  | tree v => exact .pure _
  | token t => exact .settled (.ofExcept (t.fold_sourceless hown))

end Input

namespace Items

variable {items : Items}

theorem readAll_parallel {one : Reader α} (hone : one.Parallel terms)
    (h : terms.Reaches items.InMemory) :
    Parallel terms none (items.readAll one) (items.readAll one) := by
  rw [readAll_eq]
  exact .mapM_same fun input hmem => hone input (h.imp_right fun hmem' => hmem'.inputs input hmem)

theorem readTuple_parallel {readers : List (Reader α)} (hone : ∀ one ∈ readers, one.Parallel terms)
    (expected : String) (h : terms.Reaches items.InMemory) :
    Parallel terms none (items.readTuple expected readers)
      (items.readTuple expected readers) := by
  rw [readTuple_eq]
  refine .seq (.mapM_same fun pair hpair => ?_) fun list => .map (.settled (close_immediate ..))
  obtain ⟨hreader, hinput⟩ := List.of_mem_zip hpair
  exact hone pair.1 hreader pair.2 (h.imp_right fun hmem => hmem.inputs pair.2 hinput)

end Items

theorem IntKind.read_parallel (kind : IntKind) : Reader.Parallel terms kind.read :=
  fun _ h => Input.ask_offers Registry.parallel_empty (.int kind) h (kind.take_scalar.takes rfl)

namespace Offer

variable {request : Request}

theorem takeBytes_takes : Takes terms .bytes takeBytes where
  same o ho := by
    cases o with
    | octets bytes => exact .pure _
    | text s => exact .pure _
    | seq items =>
      have hbyte (input : Input) (h : terms.Reaches input.InMemory) :=
        (IntKind.u8.read_parallel input h).map (f := fun n => UInt8.ofNat n.toNat)
      exact Items.readAll_parallel hbyte ho
    | _ => exact .refuse _ _
  number _ _ _ h := refuse_signed h _
  entries := nofun

section

variable {readers : List (Reader α)} (hreaders : ∀ one ∈ readers, one.Parallel terms)
  (expected short : String)

include hreaders

theorem takeTuple_parallel {o : Offer} (h : terms.Reaches o.InMemory) :
    Parallel terms none (o.takeTuple expected short readers)
      (o.takeTuple expected short readers) := by
  cases o with
  | seq items => exact Items.readTuple_parallel hreaders short h
  | _ => exact .refuse _ _

theorem takeTuple_takes (hrequest : request.isStruct = false) :
    Takes terms request fun o => o.takeTuple expected short readers where
  same o ho := takeTuple_parallel hreaders expected short ho
  number _ _ _ h := refuse_signed h _
  entries _ hstruct := by simp [hrequest] at hstruct

end

end Offer

namespace Timestamp

theorem pair_parallel :
    ∀ one ∈ [IntKind.i64.read, IntKind.i64.read], Reader.Parallel terms one := by
  intro one hone
  simp only [List.mem_cons, List.not_mem_nil, or_self, or_false] at hone
  exact hone ▸ IntKind.i64.read_parallel

theorem readTuple_parallel : Reader.Parallel terms readTuple := by
  intro input h
  refine Input.ask_offers Registry.parallel_empty .tuple h ⟨fun o ho => ?_, ?_, nofun⟩
  · cases o with
    | seq items => exact .map (Items.readTuple_parallel pair_parallel _ ho)
    | _ => exact .refuse _ _
  · exact fun _ _ _ h => Offer.refuse_signed h _

theorem take_takes : Offer.Takes terms (.newtype typeName) take where
  same o ho := by
    cases o with
    | newtype content => exact readTuple_parallel content ho
    | seq items => exact .map (Items.readTuple_parallel pair_parallel _ ho)
    | _ => exact .refuse _ _
  number _ _ _ h := Offer.refuse_signed h _
  entries := nofun

end Timestamp

end MessagePack
