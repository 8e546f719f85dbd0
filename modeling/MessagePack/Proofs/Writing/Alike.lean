import MessagePack.Proofs.Writing.Blind
import MessagePack.Proofs.Writing.Frame
import Mathlib.Tactic.ByContra

namespace MessagePack

open Encoding (Blind Ends)
open Wire (maxLength)

/-- Both come to the same, or both fail: with the same error, unless a difference is excused. -/
def SameOutcome (excused : Prop) {α : Type} (result result' : Except Error α) : Prop :=
  result.toOption = result'.toOption ∧ (¬excused → result = result')

namespace SameOutcome

variable {excused : Prop} {α β : Type} {result result' result'' : Except Error α}

theorem refl (result : Except Error α) : SameOutcome excused result result := ⟨rfl, fun _ => rfl⟩

theorem symm (h : SameOutcome excused result result') : SameOutcome excused result' result :=
  ⟨h.1.symm, fun hno => (h.2 hno).symm⟩

theorem trans (h : SameOutcome excused result result') (h' : SameOutcome excused result' result'') :
    SameOutcome excused result result'' :=
  ⟨h.1.trans h'.1, fun hno => (h.2 hno).trans (h'.2 hno)⟩

theorem of_errors (hexcused : excused) (e e' : Error) :
    SameOutcome excused (.error e : Except Error α) (.error e') :=
  ⟨rfl, fun hno => absurd hexcused hno⟩

theorem eq_or_errors (h : SameOutcome excused result result') :
    result = result' ∨ ∃ e e', excused ∧ result = .error e ∧ result' = .error e' := by
  by_cases hexcused : excused
  · cases result with
    | ok a =>
      cases result' with
      | ok a' => exact .inl (congrArg Except.ok (Option.some.inj h.1))
      | error e => exact nomatch h.1
    | error e =>
      cases result' with
      | ok a => exact nomatch h.1
      | error e' => exact .inr ⟨e, e', hexcused, rfl, rfl⟩
  · exact .inl (h.2 hexcused)

theorem bind {next next' : α → Except Error β} (h : SameOutcome excused result result')
    (hnext : ∀ a, SameOutcome excused (next a) (next' a)) :
    SameOutcome excused (result >>= next) (result' >>= next') := by
  rcases h.eq_or_errors with rfl | ⟨e, e', hexcused, rfl, rfl⟩
  · cases result with
    | ok a => exact hnext a
    | error e => exact refl _
  · exact of_errors hexcused e e'

end SameOutcome

/-- The encodings end alike on every sink that takes everything. -/
def Encoding.Alike (excused : Prop) (first second : Encoding Unit) : Prop :=
  ∃ outcome outcome', first.Ends outcome ∧ second.Ends outcome' ∧
    SameOutcome excused outcome outcome'

namespace Encoding.Alike

variable {excused : Prop} {first second third : Encoding Unit}

theorem refl (h : Blind first) : Encoding.Alike excused first first :=
  ⟨_, _, h.ends, h.ends, .refl _⟩

theorem symm (h : Encoding.Alike excused first second) : Encoding.Alike excused second first := by
  obtain ⟨outcome, outcome', hends, hends', halike⟩ := h
  exact ⟨outcome', outcome, hends', hends, halike.symm⟩

theorem trans (h : Encoding.Alike excused first second)
    (h' : Encoding.Alike excused second third) : Encoding.Alike excused first third := by
  obtain ⟨outcome, middle, hends, hmiddle, halike⟩ := h
  obtain ⟨middle', outcome', hmiddle', hends', halike'⟩ := h'
  obtain rfl : middle = middle' := hmiddle.buffered.symm.trans hmiddle'.buffered
  exact ⟨outcome, outcome', hends, hends', halike.trans halike'⟩

/-- What is left to the side. -/
theorem buffered (h : Encoding.Alike excused first second) :
    SameOutcome excused (Encoder.buffered first) (Encoder.buffered second) := by
  obtain ⟨outcome, outcome', hends, hends', halike⟩ := h
  rwa [hends.buffered, hends'.buffered]

theorem of_buffered (h : Blind first) (h' : Blind second)
    (halike : SameOutcome excused (Encoder.buffered first) (Encoder.buffered second)) :
    Encoding.Alike excused first second :=
  ⟨_, _, h.ends, h'.ends, halike⟩

theorem seq {first' second' : Encoding Unit} (h : Encoding.Alike excused first second)
    (h' : Encoding.Alike excused first' second') :
    Encoding.Alike excused (first >>= fun _ => first') (second >>= fun _ => second') := by
  obtain ⟨outcome, outcome', hends, hends', halike⟩ := h
  obtain ⟨next, next', hnext, hnext', halike'⟩ := h'
  refine ⟨_, _, hends.seq hnext, hends'.seq hnext', ?_⟩
  exact halike.bind fun bytes => halike'.bind fun bytes' => .refl _

/-- The same bytes are read back as the same value. -/
theorem capture (h : Encoding.Alike excused first second) :
    SameOutcome excused (Encoder.capture first) (Encoder.capture second) :=
  h.buffered.bind fun _ => .refl _

theorem afterwards {header : Encoding Unit} (hheader : Blind header)
    (h : Encoding.Alike excused first second) :
    Encoding.Alike excused (Encoder.afterwards header (Encoder.buffered first))
      (Encoder.afterwards header (Encoder.buffered second)) := by
  refine .of_buffered (Blind.stable.afterwards hheader _) (Blind.stable.afterwards hheader _) ?_
  rw [Encoder.buffered_afterwards hheader, Encoder.buffered_afterwards hheader]
  exact h.buffered.bind fun _ => .refl _

theorem through (config : Config) {codec : Codec} (hcodec : codec.Respects Blind)
    {captured captured' : Except Error Value} (h : SameOutcome excused captured captured') :
    Encoding.Alike excused (Encoder.through codec config captured)
      (Encoder.through codec config captured') := by
  refine .of_buffered (Blind.stable.through config hcodec _)
    (Blind.stable.through config hcodec _) ?_
  rw [Encoder.buffered_through, Encoder.buffered_through]
  exact h.bind fun _ => .refl _

theorem verbatim {captured captured' : Except Error Value}
    (h : SameOutcome excused captured captured') :
    Encoding.Alike excused (Encoder.verbatim captured) (Encoder.verbatim captured') := by
  refine .of_buffered (Blind.stable.verbatim _) (Blind.stable.verbatim _) ?_
  rw [Encoder.buffered_verbatim, Encoder.buffered_verbatim]
  exact h.bind fun _ => .refl _

/-- An error of something that writes its own bytes goes on under another name. -/
theorem coder (config : Config) (h : Encoding.Alike excused first second) :
    Encoding.Alike excused (Encoder.coder config first) (Encoder.coder config second) := by
  unfold Encoder.coder
  rcases h.buffered.eq_or_errors with hsame | ⟨e, e', hexcused, he, he'⟩
  · rw [hsame]
    exact .refl (Blind.stable.coder config second)
  · rw [he, he']
    exact ⟨_, _, Ends.throw _, Ends.throw _, .of_errors hexcused _ _⟩

/-- Of a header and a body, the one that is tried first gives the error. That makes no difference as
long as the header is no error by itself. -/
theorem announced (config : Config) (e : Wire.Element) (h : Blind first)
    (hexcused : maxLength < e.length → excused) :
    Encoding.Alike excused (Encoder.element config e >>= fun _ => first)
      (Encoder.afterwards (Encoder.element config e) (Encoder.buffered first)) := by
  have hheader : Blind (Encoder.element config e) := Blind.stable.element config e
  refine .of_buffered (Blind.stable.seq hheader h) (Blind.stable.afterwards hheader _) ?_
  rw [hheader.buffered_seq h, Encoder.buffered_afterwards hheader]
  cases hbuffered : Encoder.buffered (Encoder.element config e) with
  | ok header => exact .refl _
  | error fault =>
    have htooLong : maxLength < e.length := by
      by_contra hfits
      obtain ⟨header, -, hwrites⟩ := Writes.exists_element config (Nat.le_of_not_lt hfits)
      exact nomatch hbuffered.symm.trans hwrites.buffered
    cases Encoder.buffered first with
    | ok body => exact .refl _
    | error fault' => exact .of_errors (hexcused htooLong) fault fault'

end Encoding.Alike

/-- A relation of encodings that every blind one has to itself, and that is kept by encodings one
after the other and by writing to the side first. -/
structure Encoding.Congruent (R : Encoding Unit → Encoding Unit → Prop) : Prop where
  refl {encoding : Encoding Unit} : Blind encoding → R encoding encoding
  seq {first first' second second' : Encoding Unit} : R first first' → R second second' →
    R (first >>= fun _ => second) (first' >>= fun _ => second')
  afterwards {header first second : Encoding Unit} : Blind header → R first second →
    R (Encoder.afterwards header (Encoder.buffered first))
      (Encoder.afterwards header (Encoder.buffered second))

theorem Encoding.Alike.congruent {excused : Prop} :
    Encoding.Congruent (Encoding.Alike excused) :=
  ⟨.refl, .seq, .afterwards⟩

/-- None of the names has a codec. -/
def Registry.Leaves (free : String → Prop) (registry : Registry) : Prop :=
  ∀ name, free name → registry.get? name = none

namespace Data

/-- The two are written alike wherever the free names have no codec. -/
def Alike (excused : Prop) (free : String → Prop) (d d' : Data) : Prop :=
  ∀ config registry, Registry.Blind registry → registry.Leaves free →
    Encoding.Alike excused (d.encode config registry) (d'.encode config registry)

variable {excused : Prop} {free : String → Prop} {config : Config} {registry : Registry}
  {d d' : Data} {R : Encoding Unit → Encoding Unit → Prop}

theorem encode_blind (config : Config) (hblind : registry.Blind) (d : Data) :
    Blind (d.encode config registry) :=
  d.encode_stable config Blind.stable hblind

theorem Alike.symm (h : Alike excused free d d') : Alike excused free d' d :=
  fun config registry hblind hleaves => (h config registry hblind hleaves).symm

theorem Alike.trans {d'' : Data} (h : Alike excused free d d') (h' : Alike excused free d' d'') :
    Alike excused free d d'' :=
  fun config registry hblind hleaves =>
    (h config registry hblind hleaves).trans (h' config registry hblind hleaves)

namespace ItemPlace

variable (place : ItemPlace)

/-- By induction on the items before the place: from there on the rest is the same. -/
theorem encode_related (hR : Encoding.Congruent R) (hblind : registry.Blind)
    (h : R (d.encode config registry) (d'.encode config registry)) :
    R (encodeItems config registry (place.fill d))
      (encodeItems config registry (place.fill d')) := by
  obtain ⟨before, after⟩ := place
  induction before with
  | nil => exact hR.seq h (hR.refl (items_stable config Blind.stable hblind after))
  | cons first before ih => exact hR.seq (hR.refl (encode_blind config hblind first)) ih

theorem captured_alike (h : Alike excused free d d') :
    SameOutcome excused (captureItems config (place.fill d))
      (captureItems config (place.fill d')) := by
  obtain ⟨before, after⟩ := place
  induction before with
  | nil =>
    have hd := h config .empty Registry.blind_empty fun _ _ => rfl
    exact hd.capture.bind fun _ => .refl _
  | cons first before ih =>
    refine (SameOutcome.refl (Encoder.capture (first.encode config .empty))).bind fun v => ?_
    exact ih.bind fun _ => .refl _

end ItemPlace

namespace EntryPlace

variable (place : EntryPlace)

theorem encode_related (hR : Encoding.Congruent R) (hblind : registry.Blind)
    (h : R (d.encode config registry) (d'.encode config registry)) :
    R (encodeEntries config registry (place.fill d))
      (encodeEntries config registry (place.fill d')) := by
  have hsame (part : Data) : R (part.encode config registry) (part.encode config registry) :=
    hR.refl (encode_blind config hblind part)
  have hrest (entries : List (Data × Data)) :
      R (encodeEntries config registry entries) (encodeEntries config registry entries) :=
    hR.refl (entries_stable config Blind.stable hblind entries)
  cases place with
  | asKey before v after =>
    induction before with
    | nil => exact hR.seq h (hR.seq (hsame v) (hrest after))
    | cons first before ih => exact hR.seq (hsame first.1) (hR.seq (hsame first.2) ih)
  | asValue before k after =>
    induction before with
    | nil => exact hR.seq (hsame k) (hR.seq h (hrest after))
    | cons first before ih => exact hR.seq (hsame first.1) (hR.seq (hsame first.2) ih)

end EntryPlace

namespace FieldPlace

variable (place : FieldPlace)

theorem encode_related (hR : Encoding.Congruent R) (hblind : registry.Blind)
    (h : R (d.encode config registry) (d'.encode config registry)) :
    R (encodeFields config registry (place.fill d))
      (encodeFields config registry (place.fill d')) := by
  obtain ⟨before, name, after⟩ := place
  have hname (name : String) : R (Encoder.text config name) (Encoder.text config name) :=
    hR.refl (Blind.stable.bytes config _)
  induction before with
  | nil =>
    exact hR.seq (hname name) <| hR.seq h
      (hR.refl (fields_stable config Blind.stable hblind after))
  | cons first before ih =>
    exact hR.seq (hname first.1) (hR.seq (hR.refl (encode_blind config hblind first.2)) ih)

theorem captured_alike (h : Alike excused free d d') :
    SameOutcome excused (captureFields config (place.fill d))
      (captureFields config (place.fill d')) := by
  obtain ⟨before, name, after⟩ := place
  induction before with
  | nil =>
    have hd := h config .empty Registry.blind_empty fun _ _ => rfl
    exact hd.capture.bind fun _ => .refl _
  | cons first before ih =>
    obtain ⟨other, part⟩ := first
    refine (SameOutcome.refl (Encoder.capture (part.encode config .empty))).bind fun v => ?_
    exact ih.bind fun _ => .refl _

end FieldPlace

/-- The node is written as it stands: no codec takes it over, and none of its bytes are its own. -/
def Frame.IsOpen (registry : Registry) : Frame → Prop
  | tupleStruct name _ | struct name _ => registry.get? name = none
  | newtype name => name ≠ Encoder.coderName ∧ registry.get? name = none
  | coder => False
  | _ => True

/-- What is related is related in every such node. -/
theorem Frame.encode_related (hR : Encoding.Congruent R) (hblind : registry.Blind) {frame : Frame}
    (hopen : frame.IsOpen registry)
    (h : R (d.encode config registry) (d'.encode config registry)) :
    R ((frame.fill d).encode config registry) ((frame.fill d').encode config registry) := by
  have helement (e : Wire.Element) : Blind (Encoder.element config e) :=
    Blind.stable.element config e
  have hheader (e : Wire.Element) : R (Encoder.element config e) (Encoder.element config e) :=
    hR.refl (helement e)
  have hvariant (name : String) : R (Encoder.variant config name) (Encoder.variant config name) :=
    hR.refl (Blind.stable.variant config name)
  cases frame with
  | present => exact h
  | seq len place =>
    have hitems := place.encode_related hR hblind h
    cases len with
    | some len => exact hR.seq (hheader _) hitems
    | none =>
      rw [fill, fill, encode, encode, place.length_fill d d']
      exact hR.afterwards (helement _) hitems
  | map len place =>
    have hentries := place.encode_related hR hblind h
    cases len with
    | some len => exact hR.seq (hheader _) hentries
    | none =>
      rw [fill, fill, encode, encode, place.length_fill d d']
      exact hR.afterwards (helement _) hentries
  | collectSeq hint place =>
    rw [fill, fill, encode, encode, place.length_fill d d']
    exact hR.seq (hheader _) <| hR.seq (place.encode_related hR hblind h) <|
      hR.refl (Blind.stable.check _ _)
  | collectMap hint place =>
    rw [fill, fill, encode, encode, place.length_fill d d']
    exact hR.seq (hheader _) <| hR.seq (place.encode_related hR hblind h) <|
      hR.refl (Blind.stable.check _ _)
  | tuple place =>
    rw [fill, fill, encode, encode, place.length_fill d d']
    exact hR.seq (hheader _) (place.encode_related hR hblind h)
  | tupleStruct name place =>
    have hname : registry.get? name = none := hopen
    simp only [fill, encode, hname, place.length_fill d d']
    exact hR.seq (hheader _) (place.encode_related hR hblind h)
  | newtype name =>
    rw [fill, fill, encode, encode, if_neg hopen.1, if_neg hopen.1, hopen.2]
    exact h
  | struct name place =>
    have hname : registry.get? name = none := hopen
    simp only [fill, encode, hname, place.length_fill d d']
    exact hR.seq (hheader _) (place.encode_related hR hblind h)
  | newtypeVariant type name => exact hR.seq (hvariant name) h
  | tupleVariant type name place =>
    rw [fill, fill, encode, encode, place.length_fill d d']
    exact hR.seq (hvariant name) (hR.seq (hheader _) (place.encode_related hR hblind h))
  | structVariant type name place =>
    rw [fill, fill, encode, encode, place.length_fill d d']
    exact hR.seq (hvariant name) (hR.seq (hheader _) (place.encode_related hR hblind h))
  | coder => exact hopen.elim

/-- Whatever node they are put in, data that is written alike is written alike. What a codec is
handed is captured without any registry, and something that writes its own bytes has the default
one, so the names must be free there as well. -/
theorem Alike.fill (h : Alike excused free d d') (htime : ¬free Timestamp.typeName)
    (frame : Frame) : Alike excused free (frame.fill d) (frame.fill d') := by
  intro config registry hblind hleaves
  have hcaptured := (h config .empty Registry.blind_empty fun _ _ => rfl).capture
  by_cases hopen : frame.IsOpen registry
  · exact Frame.encode_related Encoding.Alike.congruent hblind hopen
      (h config registry hblind hleaves)
  cases frame with
  | tupleStruct name place =>
    obtain ⟨codec, hcodec⟩ := Option.ne_none_iff_exists'.mp hopen
    simp only [Frame.fill, encode, hcodec]
    exact .through config (hblind _ _ hcodec) ((place.captured_alike h).bind fun _ => .refl _)
  | struct name place =>
    obtain ⟨codec, hcodec⟩ := Option.ne_none_iff_exists'.mp hopen
    simp only [Frame.fill, encode, hcodec]
    exact .through config (hblind _ _ hcodec) ((place.captured_alike h).bind fun _ => .refl _)
  | newtype name =>
    rw [Frame.fill, Frame.fill, encode, encode]
    split_ifs with hname
    · exact .verbatim hcaptured
    · obtain ⟨codec, hcodec⟩ := Option.ne_none_iff_exists'.mp fun hnone => hopen ⟨hname, hnone⟩
      rw [hcodec]
      exact .through config (hblind _ _ hcodec) hcaptured
  | coder =>
    have hdefault : Registry.default.Leaves free := by
      intro name hfree
      rw [Registry.default, Registry.get?_register, if_neg]
      · rfl
      · rintro rfl
        exact htime hfree
    exact .coder config (h {} .default Registry.blind_default hdefault)
  | _ => exact absurd trivial hopen

end Data

end MessagePack
