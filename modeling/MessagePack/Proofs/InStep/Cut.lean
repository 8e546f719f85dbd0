import MessagePack.Proofs.InStep.Consumed

namespace MessagePack

open Decoding Decoder

/-- A read of the source: so many bytes of a step, or the payload of a raw. -/
inductive Read where
  | exactly (step : Step) (count : Nat)
  | payload (len : Nat)

namespace Read

def count : Read → Nat
  | exactly _ count => count
  | payload len => len

def step : Read → Step
  | exactly step _ => step
  | payload _ => .payload

/-- How many more bytes are said to be needed after the first `got`. -/
def needed (got : Nat) : Read → Nat
  | exactly _ count => count
  | payload len => len - got

/-- A failure that says that the input has ended counts as its end, except in a payload. -/
def knowsEnd : Read → Bool
  | exactly .. => true
  | payload _ => false

/-- How a read ends that gets `got` bytes and then nothing, or a failure. -/
def error (got : Nat) (read : Read) (failure : Option IoFault) : Error :=
  match failure with
  | none => .truncated read.step (read.needed got)
  | some fault =>
    if read.knowsEnd && fault.isEnd then .truncated read.step (read.needed got) else .io fault

def reading : Read → Decoding (List UInt8)
  | exactly step count => Decoder.exactly step count
  | payload len => Decoder.payload len

/-- How many bytes all of the reads take. -/
def total (reads : List Read) : Nat :=
  (reads.map count).sum

/-- The byte after the first `p` is taken by this read, after `got` others. -/
inductive Covers : List Read → Nat → Read → Nat → Prop
  | head {read : Read} {got : Nat} {rest : List Read} (h : got < read.count) :
      Covers (read :: rest) got read got
  | tail {first read : Read} {rest : List Read} {p got : Nat} (h : Covers rest p read got) :
      Covers (first :: rest) (first.count + p) read got

variable {read : Read} {reads first last : List Read} {p got : Nat}

theorem total_cons (read : Read) (rest : List Read) :
    total (read :: rest) = read.count + total rest := by
  simp [total]

theorem total_append (first last : List Read) :
    total (first ++ last) = total first + total last := by
  simp [total]

theorem exists_covers (h : p < total reads) : ∃ read got, Covers reads p read got := by
  induction reads generalizing p with
  | nil => simp [total] at h
  | cons first rest ih =>
    rw [total_cons] at h
    rcases Nat.lt_or_ge p first.count with hlt | hle
    · exact ⟨first, p, .head hlt⟩
    · obtain ⟨q, rfl⟩ := Nat.exists_eq_add_of_le hle
      obtain ⟨read, got, hcovers⟩ := ih (Nat.lt_of_add_lt_add_left h)
      exact ⟨read, got, .tail hcovers⟩

/-- A byte of two lists of reads is taken by one of the first, or comes after all of them. -/
theorem Covers.of_append (h : Covers (first ++ last) p read got) :
    Covers first p read got ∨ ∃ q, p = total first + q ∧ Covers last q read got := by
  induction first generalizing p with
  | nil => exact .inr ⟨p, by simp [total], h⟩
  | cons head rest ih =>
    cases h with
    | head h => exact .inl (.head h)
    | tail h =>
      rcases ih h with hfirst | ⟨q, rfl, hlast⟩
      · exact .inl (.tail hfirst)
      · exact .inr ⟨q, by rw [total_cons, Nat.add_assoc], hlast⟩

theorem isReadFailure_error (got : Nat) (read : Read) (failure : Option IoFault) :
    (read.error got failure).isReadFailure = true := by
  unfold error
  cases failure with
  | none => rfl
  | some fault => dsimp only; split <;> rfl

section

variable {d : Decoder} (hs : d.source.Steady)

include hs

theorem reading_of_le (h : read.count ≤ d.source.rest.length) : read.reading d =
    .ok (d.source.rest.take read.count) { d with source := d.source.advance read.count } := by
  cases read with
  | exactly step count => exact exactly_of_le hs h
  | payload len => exact payload_of_le hs h

theorem reading_of_lt (h : d.source.rest.length < read.count) : read.reading d =
    .error (read.error d.source.rest.length d.source.failure)
      { d with source := d.source.advance d.source.rest.length } := by
  cases read with
  | exactly step count =>
    refine (exactly_of_lt hs h).trans ?_
    cases d.source.failure <;> rfl
  | payload len =>
    refine (payload_of_lt hs h).trans ?_
    cases d.source.failure <;> rfl

end

end Read

open Read (Covers total)

/-- The session over another source. -/
def Decoder.over (source : Source) (d : Decoder) : Decoder :=
  { d with source }

namespace Decoding

variable {α β : Type}

/-- The reading gets from `d` to `s` through these reads, one after another, and does so over every
source that has the same bytes. Over one that ends within a read it ends as that read does. -/
structure Traced (reading : Decoding α) (d : Decoder) (out : Except Error α) (s : Decoder)
    (reads : List Read) : Prop where
  enough : total reads ≤ d.source.rest.length
  advanced : s.source = d.source.advance (total reads)
  again : ∀ ⦃source⦄, source.Steady →
    source.rest.take (total reads) = d.source.rest.take (total reads) →
    Ends reading (d.over source) out (s.over (source.advance (total reads)))
  cut : ∀ ⦃p read got⦄, Covers reads p read got → ∀ ⦃source⦄, source.Steady →
    source.rest = d.source.rest.take p → ∃ s',
      reading (d.over source) = .error (read.error got source.failure) s' ∧
      s'.source = source.advance p

variable {d s mid : Decoder} {reads reads' : List Read}

namespace Traced

variable {reading : Decoding α} {out : Except Error α}

/-- A reading that takes nothing from its source. -/
theorem nothing (hs : s.source = d.source)
    (h : ∀ source, Ends reading (d.over source) out (s.over source)) :
    Traced reading d out s [] where
  enough := Nat.zero_le _
  advanced := hs
  again source _ _ := h source
  cut _ _ _ hcovers := nomatch hcovers

theorem of_eq {last whole : Decoding β} {out : Except Error β} (h : Traced last mid out s reads)
    (hsource : mid.source = d.source)
    (hrun : ∀ source, whole (d.over source) = last (mid.over source)) :
    Traced whole d out s reads where
  enough := hsource ▸ h.enough
  advanced := hsource ▸ h.advanced
  again source hs hsame := (hrun source).trans (h.again hs (hsource ▸ hsame))
  cut _ _ _ hcovers source hs hrest := by
    obtain ⟨s', hcut, hadvanced⟩ := h.cut hcovers hs (hsource ▸ hrest)
    exact ⟨s', (hrun source).trans hcut, hadvanced⟩

section

variable {part : Decoding α} {whole : Decoding β} {outPart : Except Error α}
  (hfail : ∀ ⦃d e s⦄, part d = .error e s → e.isReadFailure = true → whole d = .error e s)

include hfail

/-- A reading that comes out with its only part. -/
theorem lift {out : Except Error β} (h : Traced part d outPart s reads)
    (hwhole : ∀ ⦃d s⦄, Ends part d outPart s → Ends whole d out s) :
    Traced whole d out s reads where
  enough := h.enough
  advanced := h.advanced
  again _ hs hsame := hwhole (h.again hs hsame)
  cut _ _ _ hcovers _ hs hrest := by
    obtain ⟨s', hcut, hadvanced⟩ := h.cut hcovers hs hrest
    exact ⟨s', hfail hcut (Read.isReadFailure_error _ _ _), hadvanced⟩

/-- A reading of one part and, where that has come out, of another. -/
theorem append {last : Decoding β} {out : Except Error β}
    (h : Traced part d outPart mid reads) (h' : Traced last mid out s reads')
    (hwhole : ∀ ⦃d mid⦄, Ends part d outPart mid → whole d = last mid) :
    Traced whole d out s (reads ++ reads') := by
  have hmid : mid.source.rest = d.source.rest.drop (total reads) := by rw [h.advanced]; rfl
  refine ⟨?_, ?_, fun source hs hsame => ?_, fun p read got hcovers source hs hrest => ?_⟩
  · have hle := h.enough
    have hrest := h'.enough
    rw [hmid, List.length_drop] at hrest
    rw [Read.total_append]
    omega
  · rw [h'.advanced, h.advanced, Source.advance_advance, Read.total_append]
  · rw [Read.total_append] at hsame ⊢
    have hfirst : source.rest.take (total reads) = d.source.rest.take (total reads) := by
      have htake := congrArg (List.take (total reads)) hsame
      rwa [List.take_take, List.take_take, Nat.min_eq_left (Nat.le_add_right _ _)] at htake
    have hlast : (source.advance (total reads)).rest.take (total reads') =
        mid.source.rest.take (total reads') := by
      have hdrop := congrArg (List.drop (total reads)) hsame
      rw [List.drop_take, List.drop_take, Nat.add_sub_cancel_left] at hdrop
      rw [hmid]
      exact hdrop
    have hrun : Ends last (mid.over (source.advance (total reads))) out _ := h'.again hs hlast
    rw [Source.advance_advance] at hrun
    exact (hwhole (h.again hs hfirst)).trans hrun
  · rcases hcovers.of_append with hfirst | ⟨q, rfl, hlast⟩
    · obtain ⟨s', hcut, hadvanced⟩ := h.cut hfirst hs hrest
      exact ⟨s', hfail hcut (Read.isReadFailure_error _ _ _), hadvanced⟩
    · have hsame : source.rest.take (total reads) = d.source.rest.take (total reads) := by
        rw [hrest, List.take_take, Nat.min_eq_left (Nat.le_add_right _ _)]
      have hleft : (source.advance (total reads)).rest = mid.source.rest.take q := by
        change source.rest.drop (total reads) = _
        rw [hrest, hmid, List.drop_take, Nat.add_sub_cancel_left]
      have hs' : (source.advance (total reads)).Steady := hs
      obtain ⟨s', hcut, hadvanced⟩ := h'.cut hlast hs' hleft
      rw [Source.advance_advance] at hadvanced
      exact ⟨s', (hwhole (h.again hs hsame)).trans hcut, hadvanced⟩

end

end Traced

/-- Wherever the reading comes out clean, it does so through some reads. -/
def Traces (reading : Decoding α) : Prop :=
  ∀ ⦃d s : Decoder⦄ ⦃out : Except Error α⦄, d.source.Steady → Ends reading d out s → Clean out →
    ∃ reads, Traced reading d out s reads

/-- The reads of a reading are those of its parts, one part after the other. -/
theorem composes_traced :
    Composes fun _ reading d out s => ∃ reads, Traced reading d out s reads where
  steady h hs := by
    obtain ⟨reads, htraced⟩ := h
    rw [htraced.advanced]
    exact hs
  lift hfail h hwhole := by
    obtain ⟨reads, htraced⟩ := h
    exact ⟨reads, htraced.lift hfail hwhole⟩
  append hfail h h' hwhole := by
    obtain ⟨reads, htraced⟩ := h
    obtain ⟨reads', htraced'⟩ := h'
    exact ⟨reads ++ reads', htraced.append hfail htraced' hwhole⟩

namespace Traces

theorem pure (a : α) : Traces (Pure.pure a) := by
  intro d s out hs hends hclean
  cases out with
  | error e => cases hends
  | ok b =>
    cases hends
    exact ⟨[], .nothing rfl fun source => rfl⟩

theorem throw (e : Error) : Traces (α := α) (MonadExcept.throw e) := by
  intro d s out hs hends hclean
  cases out with
  | ok b => cases hends
  | error e =>
    cases hends
    exact ⟨[], .nothing rfl fun source => rfl⟩

theorem inside (step : Nesting → Option UInt8 → Except Error α × Nesting × Option UInt8) :
    Traces (Decoder.inside step) := by
  intro d s out hs hends hclean
  refine ⟨[], ?_⟩
  rcases hstep : step d.nesting d.peeked with ⟨answer, nesting, peeked⟩
  cases answer with
  | ok b =>
    have hrun (source : Source) : Decoder.inside step (d.over source) =
        .ok b ({ d with nesting, peeked }.over source) := by
      simp only [Decoder.inside, Decoder.over, hstep]
    cases out with
    | error e => cases (hrun d.source).symm.trans hends
    | ok a =>
      cases (hrun d.source).symm.trans hends
      exact .nothing rfl hrun
  | error e =>
    have hrun (source : Source) : Decoder.inside step (d.over source) =
        .error e ({ d with nesting, peeked }.over source) := by
      simp only [Decoder.inside, Decoder.over, hstep]
    cases out with
    | ok a => cases (hrun d.source).symm.trans hends
    | error e' =>
      cases (hrun d.source).symm.trans hends
      exact .nothing rfl hrun

/-- A read comes out clean by being filled. -/
theorem read (read : Read) : Traces read.reading := by
  intro d s out hs hends hclean
  rcases Nat.lt_or_ge d.source.rest.length read.count with hlt | hle
  · have hrun := Read.reading_of_lt hs hlt
    cases out with
    | ok bytes => cases hrun.symm.trans hends
    | error e =>
      cases hrun.symm.trans hends
      cases (Read.isReadFailure_error _ _ _).symm.trans (hclean _ rfl)
  · have hrun := Read.reading_of_le hs hle
    cases out with
    | error e => cases hrun.symm.trans hends
    | ok bytes =>
      cases hrun.symm.trans hends
      have htotal : total [read] = read.count := by simp [total]
      refine ⟨[read], by rwa [htotal], by rw [htotal], fun source hs' hsame => ?_,
        fun p read' got hcovers source hs' hrest => ?_⟩
      · rw [htotal] at hsame ⊢
        have hle' : read.count ≤ source.rest.length := by
          have hlength := congrArg List.length hsame
          simp only [List.length_take] at hlength
          omega
        have hrun' : read.reading (d.over source) = _ :=
          Read.reading_of_le (d := d.over source) hs' hle'
        change _ = EStateM.Result.ok _ _
        rw [hrun', ← hsame]
        rfl
      · cases hcovers with
        | tail h => cases h
        | head hgot =>
          have hlength : source.rest.length = p := by
            rw [hrest, List.length_take]
            omega
          have hrun' : read.reading (d.over source) = .error
              (read.error source.rest.length source.failure)
              (d.over (source.advance source.rest.length)) :=
            Read.reading_of_lt (d := d.over source) hs' (hlength.symm ▸ hgot)
          rw [hlength] at hrun'
          exact ⟨_, hrun', rfl⟩

theorem fieldsOf {name : String} {names : List String} {next : Option Fields → Decoding α}
    (tail : ∀ table, Traces (next table)) : Traces (Decoder.fieldsOf name names >>= next) := by
  intro d s out hs hends hclean
  obtain ⟨tables, hfields, -⟩ := Decoder.fieldsOf_eq name names d
  have hover (source : Source) : Decoder.fieldsOf name names (d.over source) =
      .ok (d.tables.map fun _ => .ofNames names) ({ d with tables }.over source) := by
    have hparts : Decoder.fieldsOf name names (d.over source) =
        match Decoder.fieldsOf name names d with
          | .ok table mid => .ok table (mid.over source)
          | .error e mid => .error e (mid.over source) := by
      obtain ⟨source', nesting, peeked, cache⟩ := d
      cases cache <;> rfl
    rw [hparts, hfields]
  have hmid : ({ d with tables } : Decoder).source.Steady := hs
  obtain ⟨reads, htraced⟩ := tail _ hmid ((bind_of_ok hfields).symm.trans hends) hclean
  exact ⟨reads, htraced.of_eq rfl fun source => bind_of_ok (hover source)⟩

end Traces

/-- A reading in steps of a session comes out clean through reads. -/
theorem InStep.traces {reading reading' : Decoding α} (h : InStep reading reading') :
    Traces reading := by
  induction h with
  | pure a => exact .pure a
  | throw e => exact .throw e
  | bind _ _ ihHead ihTail => exact composes_traced.bind ihHead ihTail
  | rescue _ _ failure ihHead ihTail =>
    exact composes_traced.rescue ihHead ihTail fun e h => ⟨(failure e h).1, (failure e h).1⟩
  | inside step => exact .inside step
  | exactly step count => exact .read (.exactly step count)
  | payload len => exact .read (.payload len)
  | key fields len =>
    unfold Entries.keyBytes
    split
    · exact .read (.exactly .payload len)
    · exact .read (.payload len)
  | fieldsOf _ ih => exact .fieldsOf fun table => ih table table (.inl rfl)

end Decoding

/-- Where a type is read from some bytes, its reading is a row of reads of the source, and how it
comes out of a source with only the first of the bytes depends on the read that they end in. A
source that just ends cuts the data short. One that fails to say that the input has ended does the
same, with the same error, except in the payload of a raw, where its failure is handed on. -/
theorem Shape.read_of_cut {registry : Registry} (hregistry : registry.Stepwise) (shape : Shape)
    (bytes : List UInt8) (config : Config) (tables : Option FieldCache) {item : Item} {d : Decoder}
    (h : shape.read registry .wire { new (.ofBytes bytes) config with tables } = .ok item d) :
    ∃ reads : List Read, total reads = d.source.position ∧
      ∀ p < d.source.position, ∃ read got, Covers reads p read got ∧
        ∀ source : Source, source.Steady → source.rest = bytes.take p →
          let run := shape.read registry .wire { new source config with tables }
          let short := Error.truncated read.step (read.needed got)
          (source.failure = none →
            ∃ d', run = .error short d' ∧ d'.source = source.advance p) ∧
          ∀ fault, source.failure = some fault → fault.isEnd = true →
            ∃ d', run = .error (if read.knowsEnd then short else .io fault) d' ∧
              d'.source = source.advance p := by
  have hends : Ends (shape.read registry .wire)
    { new (.ofBytes bytes) config with tables } (.ok item) d := h
  obtain ⟨reads, htraced⟩ := (shape.read_stepwise hregistry .wire).traces
    (Source.steady_ofBytes bytes) hends nofun
  have hposition : d.source.position = total reads := by
    rw [htraced.advanced]
    exact Nat.zero_add _
  refine ⟨reads, hposition.symm, fun p hp => ?_⟩
  obtain ⟨read, got, hcovers⟩ := Read.exists_covers (hposition ▸ hp)
  refine ⟨read, got, hcovers, fun source hs hrest => ?_⟩
  obtain ⟨d', hrun, hadvanced⟩ := htraced.cut hcovers hs hrest
  refine ⟨fun hnone => ⟨d', ?_, hadvanced⟩, fun fault hfault hend => ⟨d', ?_, hadvanced⟩⟩
  · rw [hnone] at hrun
    exact hrun
  · rw [hfault, Read.error, hend, Bool.and_true] at hrun
    exact hrun

/-- A text whose bytes end in the middle: a source that fails to say so fails the reading. -/
theorem Shape.text_cut_in_payload :
    let bytes : List UInt8 := [0xa5, 0x61, 0x62, 0x63, 0x64, 0x65]
    let fault : IoFault := { message := "unexpected end of file", isEnd := true }
    let source : Source := { rest := bytes.take 2, failure := some fault }
    source.Steady ∧
    (∃ d, Shape.text.read .default .wire (new (.ofBytes bytes) {}) = .ok (.text "abcde") d ∧
      d.source.position = 6) ∧
    (∃ d', Shape.text.read .default .wire (new (.ofBytes (bytes.take 2)) {}) =
      .error (.truncated .payload 4) d') ∧
    ¬∃ step expected d', Shape.text.read .default .wire (new source {}) =
      .error (.truncated step expected) d' := by
  intro bytes fault source
  have hwhole : Shape.text.read .default .wire (new (.ofBytes bytes) {}) =
      .ok (.text "abcde")
        { new (.ofBytes bytes) {} with source := { rest := [], position := 6 } } := by
    subst bytes
    rfl
  have hended : Shape.text.read .default .wire (new (.ofBytes (bytes.take 2)) {}) =
      .error (.truncated .payload 4)
        { new (.ofBytes bytes) {} with source := { rest := [], position := 2 } } := by
    subst bytes
    rfl
  have hfailed : Shape.text.read .default .wire (new source {}) = .error (.io fault)
      { new (.ofBytes bytes) {} with
        source := { rest := [], position := 2, failure := some fault } } := by
    subst source bytes fault
    rfl
  refine ⟨fun _ wanted h => h, ⟨_, hwhole, rfl⟩, ⟨_, hended⟩, fun hcut => ?_⟩
  obtain ⟨step, expected, d', hrun⟩ := hcut
  cases hfailed.symm.trans hrun

/-- A text and a structure, cut in the text, in the header of the structure and in its key. -/
theorem Shape.read_of_cut_struct :
    let shape : Shape := .tuple [.text, .struct "P" [("key", .bool)] false]
    let bytes : List UInt8 := [0x92, 0xa2, 0x61, 0x62, 0x81, 0xa3, 0x6b, 0x65, 0x79, 0xc3]
    Registry.default.Stepwise ∧
      ∃ item d, shape.read .default .wire (new (.ofBytes bytes) {}) = .ok item d ∧
        ∃ reads : List Read, total reads = 10 ∧
          ∀ p < 10, ∃ read got, Covers reads p read got ∧
            ∃ d', shape.read .default .wire (new (.ofBytes (bytes.take p)) {}) =
              .error (.truncated read.step (read.needed got)) d' := by
  intro shape bytes
  have hall : result ((shape.read .default .wire).seen fun _ d => d.source.position)
      (new (.ofBytes bytes) {}) = .ok 10 := by decide +kernel
  obtain ⟨item, d, hread, hposition⟩ := exists_of_seen hall
  obtain ⟨reads, htotal, hcut⟩ :=
    Shape.read_of_cut Registry.stepwise_default shape bytes {} (some {}) hread
  rw [hposition] at htotal hcut
  refine ⟨Registry.stepwise_default, item, d, hread, reads, htotal, fun p hp => ?_⟩
  obtain ⟨read, got, hcovers, hrun⟩ := hcut p hp
  obtain ⟨d', hended, -⟩ := (hrun (.ofBytes (bytes.take p)) (Source.steady_ofBytes _) rfl).1 rfl
  exact ⟨read, got, hcovers, d', hended⟩

end MessagePack
