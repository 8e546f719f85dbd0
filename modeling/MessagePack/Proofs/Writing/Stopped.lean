import MessagePack.Proofs.Writing.Frame
import MessagePack.Proofs.Writing.Sinks

namespace MessagePack

open Encoding

variable {α β : Type}

/-- The first result is an error: this one, or one that the second is as well. -/
def Error.Fails (e : Error) (r r' : Except Error α) : Prop :=
  ∃ err, r = .error err ∧ (err = e ∨ r' = .error err)

/-- The first encoding makes some offers and fails. If it is this error that stops it, the second
makes the same offers and may go on; otherwise there is no difference between the two. -/
def Error.Stops (e : Error) (first second : Encoding Unit) : Prop :=
  ∃ offers err, first = perform (.error err) offers ∧
    (err = e ∧ (∃ offers' ending, second = perform ending (offers ++ offers')) ∨ second = first)

namespace Error.Fails

variable {e : Error} {r r' : Except Error α}

theorem bind (h : e.Fails r r') (next : α → Except Error β) :
    e.Fails (r >>= next) (r' >>= next) := by
  obtain ⟨err, rfl, hsame⟩ := h
  refine ⟨err, rfl, hsame.imp_right fun hr' => ?_⟩
  rw [hr']
  rfl

/-- Where what comes before fails, it fails in both. -/
theorem after (first : Except Error β) {next next' : β → Except Error α}
    (h : ∀ b, e.Fails (next b) (next' b)) : e.Fails (first >>= next) (first >>= next') := by
  cases first with
  | ok b => exact h b
  | error err => exact ⟨err, rfl, .inr rfl⟩

/-- An encoding that waits for the result reports its error before anything is offered. -/
theorem stops (h : e.Fails r r') {f : Except Error α → Encoding Unit} (g : Error → Error)
    (hthrow : ∀ err, f (.error err) = throw (g err)) (hdirect : ∀ r, Direct (f r)) :
    (g e).Stops (f r) (f r') := by
  obtain ⟨err, rfl, hsame⟩ := h
  refine ⟨[], g err, hthrow err, ?_⟩
  rcases hsame with rfl | rfl
  · obtain ⟨offers', ending, hsecond⟩ := (hdirect r').exists_offers
    exact .inl ⟨rfl, offers', ending, hsecond⟩
  · exact .inr rfl

/-- What a codec is handed was captured before. -/
theorem through {r r' : Except Error Value} (h : e.Fails r r') {codec : Codec}
    (hcodec : codec.Direct) (config : Config) :
    e.Stops (Encoder.through codec config r) (Encoder.through codec config r') :=
  h.stops (f := Encoder.through codec config) id (fun _ => rfl) fun _ =>
    Direct.stable.through config hcodec _

end Error.Fails

/-- Offers that are all made, and others behind them. -/
theorem Encoding.perform_seq (offers offers' : List (List UInt8)) (ending : Except Error β)
    (a : α) :
    (perform (.ok a) offers >>= fun _ => perform ending offers') =
      perform ending (offers ++ offers') :=
  perform_bind (by rfl) offers

namespace Error.Stops

variable {e : Error} {first second : Encoding Unit}

theorem throw (e : Error) (h : Direct second) : e.Stops (MonadExcept.throw e) second := by
  obtain ⟨offers', ending, hsecond⟩ := h.exists_offers
  exact ⟨[], e, rfl, .inl ⟨rfl, offers', ending, hsecond⟩⟩

/-- Behind the same offers there is the same to be said. -/
theorem after {head : Encoding Unit} (hhead : Direct head) (h : e.Stops first second) :
    e.Stops (head >>= fun _ => first) (head >>= fun _ => second) := by
  obtain ⟨before, ending, rfl⟩ := hhead.exists_offers
  obtain ⟨offers, err, rfl, hsecond⟩ := h
  cases ending with
  | error err' =>
    exact ⟨before, err', perform_error_bind err' before _, .inr (by simp only [perform_error_bind])⟩
  | ok u =>
    refine ⟨before ++ offers, err, perform_seq before offers _ u, ?_⟩
    rcases hsecond with ⟨rfl, offers', ending, rfl⟩ | rfl
    · exact .inl ⟨rfl, offers', ending, by rw [perform_seq, List.append_assoc]⟩
    · exact .inr rfl

/-- What comes behind an encoding that fails makes no difference to it. -/
theorem before (h : e.Stops first second) {tail : Encoding Unit} (htail : Direct tail) :
    e.Stops (first >>= fun _ => tail) (second >>= fun _ => tail) := by
  obtain ⟨offers, err, rfl, hsecond⟩ := h
  refine ⟨offers, err, perform_error_bind err offers _, ?_⟩
  rcases hsecond with ⟨rfl, offers', ending, rfl⟩ | rfl
  · refine .inl ⟨rfl, ?_⟩
    obtain ⟨behind, ending', rfl⟩ := htail.exists_offers
    cases ending with
    | error err' => exact ⟨offers', .error err', perform_error_bind err' _ _⟩
    | ok u => exact ⟨offers' ++ behind, ending', by rw [perform_seq, List.append_assoc]⟩
  · exact .inr rfl

/-- To the side there is nothing but the error. -/
theorem buffered (h : e.Stops first second) :
    e.Fails (Encoder.buffered first) (Encoder.buffered second) := by
  obtain ⟨offers, err, rfl, hsecond⟩ := h
  have herror : Encoder.buffered (perform (.error err) offers) = .error err := by
    have houtcome := (perform_takesAll (.error err : Except Error Unit) offers
      Sink.takesAll_unlimited).1
    unfold outcome at houtcome
    unfold Encoder.buffered
    split at houtcome <;> simp_all
  refine ⟨err, herror, ?_⟩
  rcases hsecond with ⟨rfl, -⟩ | rfl
  · exact .inl rfl
  · exact .inr herror

theorem capture (h : e.Stops first second) :
    e.Fails (Encoder.capture first) (Encoder.capture second) :=
  h.buffered.bind _

/-- What is behind a header was written to the side before. -/
theorem afterwards (h : e.Stops first second) {header : Encoding Unit} (hheader : Direct header) :
    e.Stops (Encoder.afterwards header (Encoder.buffered first))
      (Encoder.afterwards header (Encoder.buffered second)) :=
  h.buffered.stops (f := Encoder.afterwards header) id (fun _ => rfl) fun _ =>
    Direct.stable.afterwards hheader _

/-- Something that writes its own bytes reports the text of its error. -/
theorem coder (h : e.Stops first second) (config : Config) :
    (Error.custom e.message).Stops (Encoder.coder config first) (Encoder.coder config second) := by
  obtain ⟨err, hfirst, hsame⟩ := h.buffered
  have hthrow : Encoder.coder config first = MonadExcept.throw (.custom err.message) := by
    simp only [Encoder.coder, hfirst]
  refine ⟨[], .custom err.message, hthrow, ?_⟩
  rcases hsame with rfl | hsecond
  · obtain ⟨offers', ending, hcoder⟩ := (Direct.stable.coder config second).exists_offers
    exact .inl ⟨rfl, offers', ending, hcoder⟩
  · exact .inr (by simp only [Encoder.coder, hfirst, hsecond])

/-- On a sink that takes everything the first leaves the beginning of what the second leaves. -/
theorem exists_written (h : e.Stops first second) {sink : Sink} (hsink : sink.TakesAll) :
    ∃ err bytes more, outcome first sink = .error err ∧
      (Encoding.after first sink).written = sink.written ++ bytes ∧
      (Encoding.after second sink).written = sink.written ++ bytes ++ more ∧
      (err = e ∨ outcome second sink = .error err ∧ more = []) := by
  obtain ⟨offers, err, rfl, hsecond⟩ := h
  obtain ⟨houtcome, hwritten⟩ := perform_takesAll (.error err : Except Error Unit) offers hsink
  rcases hsecond with ⟨rfl, offers', ending, rfl⟩ | rfl
  · have hsecond := (perform_takesAll ending (offers ++ offers') hsink).2
    rw [List.flatten_append, ← List.append_assoc] at hsecond
    exact ⟨err, offers.flatten, offers'.flatten, houtcome, hwritten, hsecond, .inl rfl⟩
  · exact ⟨err, offers.flatten, [], houtcome, hwritten, by rw [hwritten, List.append_nil],
      .inr ⟨houtcome, rfl⟩⟩

end Error.Stops

namespace Data

/-- The error that comes out of a node for one in its place: only what writes its own bytes makes a
text of it. -/
def Frame.report : Frame → Error → Error
  | coder, e => .custom e.message
  | _, e => e

/-- The error that comes out of a nested place for one in it. -/
def reported (frames : List Frame) (e : Error) : Error := frames.foldr Frame.report e

theorem reported_of_not_mem {frames : List Frame} (h : Frame.coder ∉ frames) (e : Error) :
    reported frames e = e := by
  induction frames with
  | nil => rfl
  | cons frame frames ih =>
    rw [List.mem_cons, not_or] at h
    have hrest : reported (frame :: frames) e = frame.report e := congrArg frame.report (ih h.2)
    rw [hrest]
    cases frame with
    | coder => exact absurd rfl h.1
    | _ => rfl

section

variable {e : Error} {d d' : Data}
  (h : ∀ config (registry : Registry), registry.Direct →
    e.Stops (d.encode config registry) (d'.encode config registry))
  (config : Config)

include h

theorem ItemPlace.captures_fail (place : ItemPlace) :
    e.Fails (captureItems config (place.fill d)) (captureItems config (place.fill d')) := by
  obtain ⟨before, after⟩ := place
  induction before with
  | nil => exact (h config .empty (Registry.respects_empty _)).capture.bind _
  | cons first before ih => exact .after _ fun v => ih.bind _

theorem FieldPlace.captures_fail (place : FieldPlace) :
    e.Fails (captureFields config (place.fill d)) (captureFields config (place.fill d')) := by
  obtain ⟨before, name, after⟩ := place
  induction before with
  | nil => exact (h config .empty (Registry.respects_empty _)).capture.bind _
  | cons first before ih => exact .after _ fun v => ih.bind _

variable {registry : Registry} (hregistry : registry.Direct)

include hregistry

theorem ItemPlace.encode_stops (place : ItemPlace) :
    e.Stops (encodeItems config registry (place.fill d))
      (encodeItems config registry (place.fill d')) := by
  obtain ⟨before, after⟩ := place
  induction before with
  | nil =>
    exact (h config registry hregistry).before (items_stable config Direct.stable hregistry after)
  | cons first before ih => exact .after (first.encode_direct config hregistry) ih

theorem EntryPlace.encode_stops (place : EntryPlace) :
    e.Stops (encodeEntries config registry (place.fill d))
      (encodeEntries config registry (place.fill d')) := by
  have hd := h config registry hregistry
  cases place with
  | asKey before v after =>
    have hafter := entries_stable config Direct.stable hregistry after
    induction before with
    | nil => exact hd.before (Direct.stable.seq (v.encode_direct config hregistry) hafter)
    | cons first before ih =>
      exact .after (first.1.encode_direct config hregistry)
        (.after (first.2.encode_direct config hregistry) ih)
  | asValue before k after =>
    have hafter := entries_stable config Direct.stable hregistry after
    induction before with
    | nil => exact .after (k.encode_direct config hregistry) (hd.before hafter)
    | cons first before ih =>
      exact .after (first.1.encode_direct config hregistry)
        (.after (first.2.encode_direct config hregistry) ih)

theorem FieldPlace.encode_stops (place : FieldPlace) :
    e.Stops (encodeFields config registry (place.fill d))
      (encodeFields config registry (place.fill d')) := by
  obtain ⟨before, name, after⟩ := place
  induction before with
  | nil =>
    exact .after (Direct.stable.bytes config _) ((h config registry hregistry).before
      (fields_stable config Direct.stable hregistry after))
  | cons first before ih =>
    exact .after (Direct.stable.bytes config _)
      (.after (first.2.encode_direct config hregistry) ih)

/-- A node around the place passes the error on, by its header or before anything is written. -/
theorem Frame.encode_stops (frame : Frame) :
    (frame.report e).Stops ((frame.fill d).encode config registry)
      ((frame.fill d').encode config registry) := by
  have hd := h config registry hregistry
  have hcaptured := (h config .empty (Registry.respects_empty _)).capture
  have harray (n : Nat) : Direct (Encoder.arrayLen config n) := Direct.stable.element config _
  have hmap (n : Nat) : Direct (Encoder.mapLen config n) := Direct.stable.element config _
  cases frame with
  | present => exact hd
  | seq len place =>
    have hitems := place.encode_stops h config hregistry
    cases len with
    | some len => exact .after (harray len) hitems
    | none =>
      rw [fill, fill, encode, encode, place.length_fill d d']
      exact hitems.afterwards (harray _)
  | map len place =>
    have hentries := place.encode_stops h config hregistry
    cases len with
    | some len => exact .after (hmap len) hentries
    | none =>
      rw [fill, fill, encode, encode, place.length_fill d d']
      exact hentries.afterwards (hmap _)
  | collectSeq hint place =>
    rw [fill, fill, encode, encode, place.length_fill d d']
    exact .after (harray _)
      ((place.encode_stops h config hregistry).before (Direct.stable.check _ _))
  | collectMap hint place =>
    rw [fill, fill, encode, encode, place.length_fill d d']
    exact .after (hmap _)
      ((place.encode_stops h config hregistry).before (Direct.stable.check _ _))
  | tuple place =>
    rw [fill, fill, encode, encode, place.length_fill d d']
    exact .after (harray _) (place.encode_stops h config hregistry)
  | tupleStruct name place =>
    rw [fill, fill, encode, encode, place.length_fill d d']
    split
    · exact ((place.captures_fail h config).bind _).through (hregistry _ _ ‹_›) config
    · exact .after (harray _) (place.encode_stops h config hregistry)
  | newtype name =>
    rw [fill, fill, encode, encode]
    split_ifs
    · exact hcaptured.stops id (fun _ => rfl) fun _ => Direct.stable.verbatim _
    · split
      · exact hcaptured.through (hregistry _ _ ‹_›) config
      · exact hd
  | struct name place =>
    rw [fill, fill, encode, encode, place.length_fill d d']
    split
    · exact ((place.captures_fail h config).bind _).through (hregistry _ _ ‹_›) config
    · exact .after (hmap _) (place.encode_stops h config hregistry)
  | newtypeVariant type name => exact .after (Direct.stable.variant config name) hd
  | tupleVariant type name place =>
    rw [fill, fill, encode, encode, place.length_fill d d']
    exact .after (Direct.stable.variant config name)
      (.after (harray _) (place.encode_stops h config hregistry))
  | structVariant type name place =>
    rw [fill, fill, encode, encode, place.length_fill d d']
    exact .after (Direct.stable.variant config name)
      (.after (hmap _) (place.encode_stops h config hregistry))
  | coder => exact (h {} .default Registry.direct_default).coder config

/-- In a place as deep as may be an encoding stops where another does, with the error that is
reported there. -/
theorem inside_stops (frames : List Frame) :
    (reported frames e).Stops ((inside frames d).encode config registry)
      ((inside frames d').encode config registry) := by
  induction frames generalizing config registry with
  | nil => exact h config registry hregistry
  | cons frame frames ih =>
    exact frame.encode_stops (fun config _ hdirect => ih config hdirect) config hregistry

end

/-- An integer of 128 bits, wherever it is nested, leaves in a sink that takes everything only the
beginning of what any other data would leave in its place, behind what the sink already held. Its
error comes out, as a text where something writes its own bytes around it, unless what comes before
it fails: then there is no difference between the two. -/
theorem encode_inside_wide {registry : Registry} (hregistry : registry.Direct) (config : Config)
    (frames : List Frame) {kind : IntKind} (hwide : kind.isWide = true) (n : Int) {sink : Sink}
    (hsink : sink.TakesAll) :
    let run (d : Data) := (inside frames d).encode config registry
    ∃ err bytes, (run (.int kind n)).outcome sink = .error err ∧
      ((run (.int kind n)).after sink).written = sink.written ++ bytes ∧
      (∀ d : Data, ∃ more, ((run d).after sink).written = sink.written ++ bytes ++ more) ∧
      ((err = reported frames (.unsupported kind.name) ∧
          (Frame.coder ∉ frames → err = .unsupported kind.name)) ∨
        ∀ d : Data, (run d).outcome sink = .error err ∧
          ((run d).after sink).written = sink.written ++ bytes) := by
  intro run
  have hstops (d : Data) :
      (reported frames (.unsupported kind.name)).Stops (run (.int kind n)) (run d) := by
    refine inside_stops (fun config registry hdirect => ?_) config hregistry frames
    have hthrow : (Data.int kind n).encode config registry = throw (.unsupported kind.name) := by
      rw [encode, Encoder.kind, if_pos hwide]
    rw [hthrow]
    exact .throw _ (d.encode_direct config hdirect)
  obtain ⟨err, bytes, -, houtcome, hwritten, -⟩ :=
    (hstops (.int kind n)).exists_written hsink
  have hother (d : Data) : ∃ more, ((run d).after sink).written = sink.written ++ bytes ++ more ∧
      (err = reported frames (.unsupported kind.name) ∨
        (run d).outcome sink = .error err ∧ more = []) := by
    obtain ⟨err', bytes', more, houtcome', hwritten', hmore, hcause⟩ :=
      (hstops d).exists_written hsink
    obtain rfl : err = err' := Except.error.inj (houtcome.symm.trans houtcome')
    obtain rfl : bytes = bytes' := List.append_cancel_left (hwritten.symm.trans hwritten')
    exact ⟨more, hmore, hcause⟩
  refine ⟨err, bytes, houtcome, hwritten, fun d => ?_, ?_⟩
  · obtain ⟨more, hmore, -⟩ := hother d
    exact ⟨more, hmore⟩
  · by_cases hcause : err = reported frames (.unsupported kind.name)
    · exact .inl ⟨hcause, fun hcoder => hcause.trans (reported_of_not_mem hcoder _)⟩
    · refine .inr fun d => ?_
      obtain ⟨more, hmore, hsame⟩ := hother d
      obtain ⟨houtcome', rfl⟩ := hsame.resolve_left hcause
      exact ⟨houtcome', by rw [hmore, List.append_nil]⟩

/-- In an array of unknown length within one of known length, behind a text. -/
theorem encode_inside_wide_nested :
    let frames : List Frame :=
      [.tuple ⟨[.text "a"], [.unit]⟩, .seq none ⟨[.bool true], []⟩, .present]
    let run (d : Data) := (inside frames d).encode {} .default
    Registry.default.Direct ∧ Sink.unlimited.TakesAll ∧ Frame.coder ∉ frames ∧
      (run (.int .u128 7)).outcome .unlimited = .error (.unsupported "u128") ∧
      ((run (.int .u128 7)).after .unlimited).written = [0x93, 0xa1, 0x61] ∧
      ∀ d : Data, [0x93, 0xa1, 0x61] <+: ((run d).after .unlimited).written := by
  intro frames run
  have hcoder : Frame.coder ∉ frames := by simp [frames]
  have houtcome : (run (.int .u128 7)).outcome .unlimited = .error (.unsupported "u128") := by
    subst run frames
    decide +kernel
  have hwritten : ((run (.int .u128 7)).after .unlimited).written = [0x93, 0xa1, 0x61] := by
    subst run frames
    decide +kernel
  obtain ⟨err, bytes, -, hbytes, hother, -⟩ := encode_inside_wide Registry.direct_default {} frames
    (rfl : IntKind.u128.isWide = true) 7 Sink.takesAll_unlimited
  have hnone : Sink.unlimited.written = [] := rfl
  rw [hnone, List.nil_append] at hbytes
  obtain rfl : [0x93, 0xa1, 0x61] = bytes := hwritten.symm.trans hbytes
  refine ⟨Registry.direct_default, Sink.takesAll_unlimited, hcoder, houtcome, hwritten, fun d => ?_⟩
  obtain ⟨more, hmore⟩ := hother d
  exact ⟨more, hmore.symm⟩

end Data

end MessagePack
