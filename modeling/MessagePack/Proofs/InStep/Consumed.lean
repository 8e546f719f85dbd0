import MessagePack.Codec.Samples
import MessagePack.Proofs.InStep.Shape
import MessagePack.Proofs.Session.Yields
import Mathlib.Data.List.Infix

namespace MessagePack

open Decoding

variable {α β : Type}

/-- The error tells of the end of the source: data cut short, or the failure that the source ends
with. A failure that says that the input has ended may count as either. -/
def Source.EndsIn (source : Source) (e : Error) : Prop :=
  match source.failure with
  | none => ∃ step expected, e = .truncated step expected
  | some fault => e = .io fault ∨ fault.isEnd = true ∧ ∃ step expected, e = .truncated step expected

theorem Source.EndsIn.isReadFailure {source : Source} {e : Error} (h : source.EndsIn e) :
    e.isReadFailure = true := by
  unfold Source.EndsIn at h
  split at h
  · obtain ⟨_, _, rfl⟩ := h
    rfl
  · rcases h with rfl | ⟨-, _, _, rfl⟩ <;> rfl

/-- A source that just ends cuts the data short. -/
theorem Source.EndsIn.truncated {source : Source} {e : Error} (h : source.EndsIn e)
    (hnone : source.failure = none) : ∃ step expected, e = .truncated step expected := by
  unfold Source.EndsIn at h
  rwa [hnone] at h

/-- A failure that does not say that the input has ended is handed on as it is. -/
theorem Source.EndsIn.fault {source : Source} {e : Error} {fault : IoFault} (h : source.EndsIn e)
    (hfault : source.failure = some fault) (hkind : fault.isEnd = false) : e = .io fault := by
  unfold Source.EndsIn at h
  rw [hfault] at h
  rcases h with rfl | ⟨hend, -⟩
  · rfl
  · cases hkind.symm.trans hend

namespace Decoder

/-- Two sessions that are as far as each other, over sources of their own. The second may do without
tables. -/
structure Twin (d d' : Decoder) : Prop where
  steady : d'.source.Steady
  nesting : d'.nesting = d.nesting
  peeked : d'.peeked = d.peeked
  tables : d.tables = none → d'.tables = none

end Decoder

namespace Decoding

/-- The reading comes out like this, and leaves the session like that. -/
def Ends (reading : Decoding α) (d : Decoder) (out : Except Error α) (s : Decoder) : Prop :=
  reading d = match out with
    | .ok a => .ok a s
    | .error e => .error e s

/-- What came out was not for want of bytes. -/
def Clean (out : Except Error α) : Prop :=
  ∀ e, out = .error e → e.isReadFailure = false

/-- From a twin of the session that `s` came from, the reading comes out just so after `n` bytes, or
it ends with its source where that has fewer. -/
inductive Follows (reading : Decoding α) (out : Except Error α) (s : Decoder) (n : Nat)
    (d' : Decoder) : Prop
  | whole {s' : Decoder} (enough : n ≤ d'.source.rest.length) (ends : Ends reading d' out s')
      (twin : s.Twin s') (advanced : s'.source = d'.source.advance n)
  | cut {e : Error} {s' : Decoder} (short : d'.source.rest.length < n)
      (run : reading d' = .error e s') (end_of : d'.source.EndsIn e)
      (advanced : s'.source = d'.source.advance d'.source.rest.length)

/-- The session got to `s` by `n` bytes, and the reading follows from every twin whose source has
the same bytes, as far as it has any. -/
structure Determines (reading : Decoding α) (d : Decoder) (out : Except Error α) (s : Decoder)
    (n : Nat) : Prop where
  enough : n ≤ d.source.rest.length
  advanced : s.source = d.source.advance n
  follows : ∀ ⦃d'⦄, d.Twin d' → d'.source.rest.take n <+: d.source.rest → Follows reading out s n d'

variable {reading : Decoding α} {d s : Decoder} {n m : Nat}

/-- The reading takes so many bytes from its source, or ends with it. -/
structure TakesBytes (reading : Decoding (List UInt8)) (count : Nat) : Prop where
  full : ∀ ⦃d : Decoder⦄, d.source.Steady → count ≤ d.source.rest.length →
    reading d = .ok (d.source.rest.take count) { d with source := d.source.advance count }
  short : ∀ ⦃d : Decoder⦄, d.source.Steady → d.source.rest.length < count →
    ∃ e, d.source.EndsIn e ∧
      reading d = .error e { d with source := d.source.advance d.source.rest.length }

theorem takesBytes_exactly (step : Step) (count : Nat) :
    TakesBytes (Decoder.exactly step count) count where
  full _ hs h := Decoder.exactly_of_le hs h
  short d hs h := by
    refine ⟨_, ?_, Decoder.exactly_of_lt hs h⟩
    unfold Source.EndsIn Error.ofRead
    cases d.source.failure with
    | none => exact ⟨step, count, rfl⟩
    | some fault =>
      by_cases hend : fault.isEnd = true
      · exact .inr ⟨hend, step, count, if_pos hend⟩
      · exact .inl (if_neg hend)

theorem takesBytes_payload (len : Nat) : TakesBytes (Decoder.payload len) len where
  full _ hs h := Decoder.payload_of_le hs h
  short d hs h := by
    refine ⟨_, ?_, Decoder.payload_of_lt hs h⟩
    unfold Source.EndsIn
    cases d.source.failure with
    | none => exact ⟨_, _, rfl⟩
    | some fault => exact .inl rfl

theorem takesBytes_keyBytes (fields : Fields) (len : Nat) :
    TakesBytes (Entries.keyBytes fields len) len := by
  unfold Entries.keyBytes
  split
  · exact takesBytes_exactly _ len
  · exact takesBytes_payload len

theorem Follows.of_eq {last whole : Decoding β} {out : Except Error β} {d mid : Decoder}
    (h : Follows last out s n mid) (hrun : whole d = last mid) (hsource : mid.source = d.source) :
    Follows whole out s n d := by
  cases h with
  | whole enough ends twin advanced =>
    exact .whole (hsource ▸ enough) (hrun.trans ends) twin (hsource ▸ advanced)
  | cut short run end_of advanced =>
    exact .cut (hsource ▸ short) (hrun.trans run) (hsource ▸ end_of) (hsource ▸ advanced)

/-- A reading that takes nothing from its source. -/
theorem Determines.nothing {out : Except Error α} (hs : s.source = d.source)
    (h : ∀ ⦃d'⦄, d.Twin d' → ∃ s', Ends reading d' out s' ∧ s.Twin s' ∧ s'.source = d'.source) :
    Determines reading d out s 0 where
  enough := Nat.zero_le _
  advanced := hs
  follows d' htwin _ := by
    obtain ⟨s', hends, htwin', hsource⟩ := h htwin
    exact .whole (Nat.zero_le _) hends htwin' hsource

section

variable {part : Decoding α} {whole : Decoding β} {outPart : Except Error α}
  (hfail : ∀ ⦃d e s⦄, part d = .error e s → e.isReadFailure = true → whole d = .error e s)

include hfail

/-- A reading that comes out with its only part. -/
theorem Determines.lift {out : Except Error β} (h : Determines part d outPart s n)
    (hwhole : ∀ ⦃d s⦄, Ends part d outPart s → Ends whole d out s) :
    Determines whole d out s n where
  enough := h.enough
  advanced := h.advanced
  follows d' htwin hprefix := by
    cases h.follows htwin hprefix with
    | whole enough ends twin advanced => exact .whole enough (hwhole ends) twin advanced
    | cut short run hend advanced =>
      exact .cut short (hfail run (Source.EndsIn.isReadFailure hend)) hend advanced

/-- A reading of one part and, where that has come out, of another. -/
theorem Determines.append {last : Decoding β} {mid : Decoder} {out : Except Error β}
    (h : Determines part d outPart mid n) (h' : Determines last mid out s m)
    (hwhole : ∀ ⦃d mid⦄, Ends part d outPart mid → whole d = last mid) :
    Determines whole d out s (n + m) where
  enough := by
    have hle := h.enough
    have hrest := h'.enough
    rw [h.advanced, Source.advance, List.length_drop] at hrest
    omega
  advanced := by rw [h'.advanced, h.advanced, Source.advance_advance]
  follows d' htwin hprefix := by
    have hprefixPart : d'.source.rest.take n <+: d.source.rest :=
      (List.take_prefix_take_left (Nat.le_add_right n m)).trans hprefix
    cases h.follows htwin hprefixPart with
    | cut short run hend advanced =>
      exact .cut (by omega) (hfail run (Source.EndsIn.isReadFailure hend)) hend advanced
    | @whole mid' enough ends twin advanced =>
      have hrest : mid'.source.rest = d'.source.rest.drop n := by rw [advanced]; rfl
      have hprefixLast : mid'.source.rest.take m <+: mid.source.rest := by
        rw [hrest, h.advanced]
        have hdrop := List.IsPrefix.drop hprefix n
        rwa [List.drop_take, Nat.add_sub_cancel_left] at hdrop
      cases h'.follows twin hprefixLast with
      | whole enough' ends' twin' advanced' =>
        rw [hrest, List.length_drop] at enough'
        refine .whole (by omega) ((hwhole ends).trans ends') twin' ?_
        rw [advanced', advanced, Source.advance_advance]
      | cut short run hend advanced' =>
        rw [hrest, List.length_drop] at short
        refine .cut (by omega) ((hwhole ends).trans run) ?_ ?_
        · rw [advanced] at hend
          exact hend
        · rw [advanced', hrest, List.length_drop, advanced, Source.advance_advance,
            Nat.add_sub_cancel' enough]

end

/-- From a twin with the same bytes there is the same answer. -/
theorem Determines.again {a : α} {d' : Decoder} (h : Determines reading d (.ok a) s n)
    (htwin : d.Twin d') (hsame : d'.source.rest.take n = d.source.rest.take n) :
    ∃ s', reading d' = .ok a s' ∧ s'.source = d'.source.advance n := by
  cases h.follows htwin (hsame ▸ List.take_prefix n _) with
  | whole enough ends twin advanced => exact ⟨_, ends, advanced⟩
  | cut short =>
    have hcount := congrArg List.length hsame
    have henough := h.enough
    simp only [List.length_take] at hcount
    omega

/-- From a twin with only the first of the bytes there is an error at the end of its source. -/
theorem Determines.short {out : Except Error α} {d' : Decoder} {p : Nat}
    (h : Determines reading d out s n) (htwin : d.Twin d') (hp : p < n)
    (hrest : d'.source.rest = d.source.rest.take p) :
    ∃ e s', reading d' = .error e s' ∧ d'.source.EndsIn e ∧ s'.source = d'.source.advance p := by
  have hlength : d'.source.rest.length = p := by
    have henough := h.enough
    rw [hrest, List.length_take]
    omega
  have hprefix : d'.source.rest.take n <+: d.source.rest :=
    (List.take_prefix n _).trans (hrest ▸ List.take_prefix p _)
  cases h.follows htwin hprefix with
  | whole enough => omega
  | cut _ run end_of advanced => exact ⟨_, _, run, end_of, hlength ▸ advanced⟩

/-- What may be said of how a reading comes out that is true of a whole reading once it is true of
its parts. A failure of the source in a part must be one of the whole. -/
structure Composes (P : ∀ α : Type, Decoding α → Decoder → Except Error α → Decoder → Prop) :
    Prop where
  steady : ∀ {α reading d out s}, P α reading d out s → d.source.Steady → s.source.Steady
  lift : ∀ {α β part d outPart s} {whole : Decoding β} {out : Except Error β},
    (∀ ⦃d e s⦄, part d = .error e s → e.isReadFailure = true → whole d = .error e s) →
    P α part d outPart s → (∀ ⦃d s⦄, Ends part d outPart s → Ends whole d out s) →
    P β whole d out s
  append : ∀ {α β part d outPart mid s} {whole last : Decoding β} {out : Except Error β},
    (∀ ⦃d e s⦄, part d = .error e s → e.isReadFailure = true → whole d = .error e s) →
    P α part d outPart mid → P β last mid out s →
    (∀ ⦃d mid⦄, Ends part d outPart mid → whole d = last mid) → P β whole d out s

/-- Where the first reading comes out clean, this may be said of the second. -/
def Grants (P : ∀ α : Type, Decoding α → Decoder → Except Error α → Decoder → Prop)
    (reading reading' : Decoding α) : Prop :=
  ∀ ⦃d s : Decoder⦄ ⦃out : Except Error α⦄, d.source.Steady → Ends reading d out s → Clean out →
    P α reading' d out s

namespace Composes

variable {P : ∀ α : Type, Decoding α → Decoder → Except Error α → Decoder → Prop}
  (hP : Composes P) {first first' : Decoding α}

include hP

theorem bind {next next' : α → Decoding β} (head : Grants P first first')
    (tail : ∀ a, (∃ d d', first d = .ok a d') → Grants P (next a) (next' a)) :
    Grants P (first >>= next) (first' >>= next') := by
  intro d s out hs hends hclean
  have hfail : ∀ ⦃d e s⦄, first' d = .error e s → e.isReadFailure = true →
      (first' >>= next') d = .error e s := fun _ _ _ hrun _ => bind_of_error hrun
  cases hfirst : first d with
  | ok a mid =>
    have hpart : Ends first d (.ok a) mid := hfirst
    have hfirst' := head hs hpart nofun
    have hnext := tail a ⟨d, mid, hfirst⟩ (hP.steady hfirst' hs)
      ((bind_of_ok hfirst).symm.trans hends) hclean
    exact hP.append hfail hfirst' hnext fun _ _ hrun => bind_of_ok hrun
  | error e mid =>
    have hpart : Ends first d (.error e) mid := hfirst
    have hwhole : (first >>= next) d = .error e mid := bind_of_error hfirst
    cases out with
    | ok b => cases hwhole.symm.trans hends
    | error e' =>
      cases hwhole.symm.trans hends
      have hfirst' := head hs hpart fun _ heq => by
        cases heq
        exact hclean e rfl
      exact hP.lift hfail hfirst' fun _ _ hrun => bind_of_error hrun

theorem rescue {next next' : Error → Decoding α} (head : Grants P first first')
    (tail : ∀ e, Grants P (next e) (next' e))
    (failure : ∀ e, e.isReadFailure = true →
      next e = MonadExcept.throw e ∧ next' e = MonadExcept.throw e) :
    Grants P (tryCatch first next) (tryCatch first' next') := by
  intro d s out hs hends hclean
  have hfail : ∀ ⦃d e s⦄, first' d = .error e s → e.isReadFailure = true →
      tryCatch first' next' d = .error e s := fun _ e _ hrun hread => by
    rw [tryCatch_of_error hrun, (failure e hread).2]
    rfl
  cases hfirst : first d with
  | ok a mid =>
    have hpart : Ends first d (.ok a) mid := hfirst
    have hwhole : tryCatch first next d = .ok a mid := tryCatch_of_ok hfirst
    cases out with
    | error e => cases hwhole.symm.trans hends
    | ok b =>
      cases hwhole.symm.trans hends
      exact hP.lift hfail (head hs hpart nofun) fun _ _ hrun => tryCatch_of_ok hrun
  | error e mid =>
    have hpart : Ends first d (.error e) mid := hfirst
    have hwhole : tryCatch first next d = next e mid := tryCatch_of_error hfirst
    have hhandled : Ends (next e) mid out s := hwhole.symm.trans hends
    cases hread : e.isReadFailure with
    | true =>
      -- the handler throws a failure of the source again, so nothing clean comes out
      rw [(failure e hread).1] at hhandled
      cases out with
      | ok b => cases hhandled
      | error e' =>
        cases hhandled
        cases hread.symm.trans (hclean e rfl)
    | false =>
      have hfirst' := head hs hpart fun _ heq => by
        cases heq
        exact hread
      have hnext := tail e (hP.steady hfirst' hs) hhandled hclean
      exact hP.append hfail hfirst' hnext fun _ _ hrun => tryCatch_of_error hrun

end Composes

/-- What a reading determines is put together from what its parts do. -/
theorem composes_determines :
    Composes fun _ reading d out s => ∃ n, Determines reading d out s n where
  steady h hs := by
    obtain ⟨n, hn⟩ := h
    rw [hn.advanced]
    exact hs
  lift hfail h hwhole := by
    obtain ⟨n, hn⟩ := h
    exact ⟨n, hn.lift hfail hwhole⟩
  append hfail h h' hwhole := by
    obtain ⟨n, hn⟩ := h
    obtain ⟨m, hm⟩ := h'
    exact ⟨n + m, hn.append hfail hm hwhole⟩

/-- Where the first reading comes out clean, the second follows from every twin. -/
def Leads (reading reading' : Decoding α) : Prop :=
  ∀ ⦃d s : Decoder⦄ ⦃out : Except Error α⦄, d.source.Steady → Ends reading d out s → Clean out →
    ∃ n, Determines reading' d out s n

namespace Leads

theorem pure (a : α) : Leads (Pure.pure a) (Pure.pure a) := by
  intro d s out hs hends hclean
  cases out with
  | error e => cases hends
  | ok b =>
    cases hends
    exact ⟨0, .nothing rfl fun d' htwin => ⟨d', rfl, htwin, rfl⟩⟩

theorem throw (e : Error) : Leads (α := α) (MonadExcept.throw e) (MonadExcept.throw e) := by
  intro d s out hs hends hclean
  cases out with
  | ok b => cases hends
  | error e =>
    cases hends
    exact ⟨0, .nothing rfl fun d' htwin => ⟨d', rfl, htwin, rfl⟩⟩

theorem inside (step : Nesting → Option UInt8 → Except Error α × Nesting × Option UInt8) :
    Leads (Decoder.inside step) (Decoder.inside step) := by
  intro d s out hs hends hclean
  refine ⟨0, ?_⟩
  rcases hstep : step d.nesting d.peeked with ⟨answer, nesting, peeked⟩
  cases answer with
  | ok b =>
    have hrun {d' : Decoder} (htwin : d.Twin d') : Decoder.inside step d' =
        .ok b { d' with nesting, peeked } := by
      simp only [Decoder.inside, htwin.nesting, htwin.peeked, hstep]
    have hself := hrun ⟨hs, rfl, rfl, id⟩
    cases out with
    | error e => cases hself.symm.trans hends
    | ok a =>
      cases hself.symm.trans hends
      exact .nothing rfl fun d' htwin =>
        ⟨_, hrun htwin, ⟨htwin.steady, rfl, rfl, htwin.tables⟩, rfl⟩
  | error e =>
    have hrun {d' : Decoder} (htwin : d.Twin d') : Decoder.inside step d' =
        .error e { d' with nesting, peeked } := by
      simp only [Decoder.inside, htwin.nesting, htwin.peeked, hstep]
    have hself := hrun ⟨hs, rfl, rfl, id⟩
    cases out with
    | ok a => cases hself.symm.trans hends
    | error e' =>
      cases hself.symm.trans hends
      exact .nothing rfl fun d' htwin =>
        ⟨_, hrun htwin, ⟨htwin.steady, rfl, rfl, htwin.tables⟩, rfl⟩

/-- Where one way to read so many bytes comes out clean, every other way follows. -/
theorem bytes {reading reading' : Decoding (List UInt8)} {count : Nat}
    (h : TakesBytes reading count) (h' : TakesBytes reading' count) : Leads reading reading' := by
  intro d s out hs hends hclean
  rcases Nat.lt_or_ge d.source.rest.length count with hlt | hle
  · obtain ⟨e, hend, hrun⟩ := h.short hs hlt
    cases out with
    | ok bytes => cases hrun.symm.trans hends
    | error e' =>
      cases hrun.symm.trans hends
      cases hend.isReadFailure.symm.trans (hclean e rfl)
  · have hrun := h.full hs hle
    cases out with
    | error e => cases hrun.symm.trans hends
    | ok bytes =>
      cases hrun.symm.trans hends
      refine ⟨count, hle, rfl, fun d' htwin hprefix => ?_⟩
      rcases Nat.lt_or_ge d'.source.rest.length count with hlt | hle'
      · obtain ⟨e, hend, hrun⟩ := h'.short htwin.steady hlt
        exact .cut hlt hrun hend rfl
      · have hsame : d'.source.rest.take count = d.source.rest.take count := by
          have htake := List.prefix_iff_eq_take.mp hprefix
          rwa [List.length_take, Nat.min_eq_left hle'] at htake
        have hrun := h'.full htwin.steady hle'
        rw [hsame] at hrun
        exact .whole hle' hrun ⟨htwin.steady, htwin.nesting, htwin.peeked, htwin.tables⟩ rfl

/-- The twin gets the same table or none, and takes as many bytes with either. -/
theorem fieldsOf {name : String} {names : List String} {next next' : Option Fields → Decoding α}
    (tail : ∀ table table', table' = table ∨ table' = none → Leads (next table) (next' table')) :
    Leads (Decoder.fieldsOf name names >>= next) (Decoder.fieldsOf name names >>= next') := by
  intro d s out hs hends hclean
  obtain ⟨tables, hfields, htables⟩ := Decoder.fieldsOf_eq name names d
  have hnext : Ends (next (d.tables.map fun _ => .ofNames names)) { d with tables } out s :=
    (bind_of_ok hfields).symm.trans hends
  have hmid : ({ d with tables } : Decoder).source.Steady := hs
  obtain ⟨n, hsame⟩ := tail _ _ (.inl rfl) hmid hnext hclean
  obtain ⟨m, hnone⟩ := tail _ none (.inr rfl) hmid hnext hclean
  have hcount : n = m := by
    have hposition := congrArg Source.position (hsame.advanced.symm.trans hnone.advanced)
    exact Nat.add_left_cancel hposition
  subst hcount
  refine ⟨n, hsame.enough, hsame.advanced, fun d' htwin hprefix => ?_⟩
  obtain ⟨tables', hfields', htables'⟩ := Decoder.fieldsOf_eq name names d'
  have htwin' : Decoder.Twin { d with tables } { d' with tables := tables' } :=
    ⟨htwin.steady, htwin.nesting, htwin.peeked, fun h =>
      htables'.mpr (htwin.tables (htables.mp h))⟩
  refine Follows.of_eq ?_ (bind_of_ok hfields') rfl
  cases htaken : d'.tables with
  | none => exact hnone.follows htwin' hprefix
  | some cache =>
    cases hhad : d.tables with
    | none => cases htaken.symm.trans (htwin.tables hhad)
    | some cache' =>
      rw [hhad] at hsame
      exact hsame.follows htwin' hprefix

end Leads

/-- Where a reading comes out clean, a reading in step with it follows from every twin. -/
theorem InStep.leads {reading reading' : Decoding α} (h : InStep reading reading') :
    Leads reading reading' := by
  induction h with
  | pure a => exact .pure a
  | throw e => exact .throw e
  | bind _ _ ihHead ihTail => exact composes_determines.bind ihHead ihTail
  | rescue _ _ failure ihHead ihTail => exact composes_determines.rescue ihHead ihTail failure
  | inside step => exact .inside step
  | exactly step count =>
    exact .bytes (takesBytes_exactly step count) (takesBytes_exactly step count)
  | payload len => exact .bytes (takesBytes_payload len) (takesBytes_payload len)
  | key fields len => exact .bytes (takesBytes_keyBytes fields len) (takesBytes_payload len)
  | fieldsOf _ ih => exact .fieldsOf ih

end Decoding

open Decoder

/-- What is read depends only on the bytes it consumes. Where a type is read from some bytes, every
source that starts with the bytes consumed gives the same answer and is left after them, whatever
comes next and however its reads split the bytes. A source that has only the first of them is read
to its end: where it just ends, the data is cut short, and where it fails, the error is its own. -/
theorem Shape.read_of_consumed {registry : Registry} (hregistry : registry.Stepwise)
    (shape : Shape) (bytes : List UInt8) (config : Config) (cache : FieldCache) {item : Item}
    {d : Decoder} (h : shape.read registry .wire
      { new (.ofBytes bytes) config with tables := some cache } = .ok item d)
    (source : Source) (hs : source.Steady) (tables : Option FieldCache) :
    let n := d.source.position
    let run := shape.read registry .wire { new source config with tables }
    (source.rest.take n = bytes.take n → ∃ d', run = .ok item d' ∧ d'.source = source.advance n) ∧
      ∀ p < n, source.rest = bytes.take p →
        (source.failure = none → ∃ step expected d',
          run = .error (.truncated step expected) d' ∧ d'.source = source.advance p) ∧
        ∀ fault, source.failure = some fault → fault.isEnd = false →
          ∃ d', run = .error (.io fault) d' ∧ d'.source = source.advance p := by
  have hends : Ends (shape.read registry .wire)
    { new (.ofBytes bytes) config with tables := some cache } (.ok item) d := h
  obtain ⟨n, hn⟩ := (shape.read_stepwise hregistry .wire).leads
    (Source.steady_ofBytes bytes) hends nofun
  have hposition : d.source.position = n := by
    rw [hn.advanced]
    exact Nat.zero_add n
  have htwin : Twin { new (.ofBytes bytes) config with tables := some cache }
    { new source config with tables } := ⟨hs, rfl, rfl, nofun⟩
  rw [hposition]
  refine ⟨hn.again htwin, fun p hp hrest => ?_⟩
  obtain ⟨e, d', hrun, hend, hsource⟩ := hn.short htwin hp hrest
  refine ⟨fun hnone => ?_, fun fault hfault hkind => ?_⟩
  · obtain ⟨step, expected, rfl⟩ := hend.truncated hnone
    exact ⟨step, expected, d', hrun, hsource⟩
  · obtain rfl := hend.fault hfault hkind
    exact ⟨d', hrun, hsource⟩

/-- A codec that checks what it reads on the way. -/
theorem Codec.stepwise_tagged : Codec.tagged.Stepwise := by
  have hvalue : Parallel .steps none Decoder.value Decoder.value :=
    fold_parallel trivial fun _ => Fold.signBlind_value
  have hrest : Parallel .steps none (do
      let tag ← Decoder.string
      if tag ≠ "tag" then throw (.custom "not tagged")
      Decoder.value) (do
      let tag ← Decoder.string
      if tag ≠ "tag" then throw (.custom "not tagged")
      Decoder.value) := by
    refine .seq (string_parallel trivial) fun tag => ?_
    split
    · exact .seq (.throw none rfl) fun _ => hvalue
    · exact hvalue
  have htagged : Parallel .steps none Codec.tagged.decode Codec.tagged.decode := by
    refine .seq (arrayLen_parallel trivial) fun len => ?_
    split
    · exact .seq (.throw none rfl) fun _ => hrest
    · exact hrest
  exact htagged.stepwise

/-- A tagged text and a structure, whole and byte by byte until the source fails within a key. -/
theorem Shape.read_of_consumed_failing :
    let registry := Registry.default.register "T" .tagged
    let shape : Shape := .tuple [.newtype "T" .text, .struct "P" [("key", .bool)] false]
    let bytes : List UInt8 := [0x92, 0x92, 0xa3, 0x74, 0x61, 0x67, 0xa1, 0x61, 0x81, 0xa3, 0x6b,
      0x65, 0x79, 0xc3, 0xff]
    let fault : IoFault := { message := "reset" }
    let source : Source := Source.inPieces 1 { rest := bytes.take 11, failure := some fault }
    registry.Stepwise ∧ source.Steady ∧
      ∃ item d, shape.read registry .wire (new (.ofBytes bytes) {}) = .ok item d ∧
        d.source.position = 14 ∧
        ∃ d', shape.read registry .wire (new source {}) = .error (.io fault) d' ∧
          d'.source = source.advance 11 := by
  intro registry shape bytes fault source
  have hregistry : registry.Stepwise :=
    Registry.stepwise_default.register "T" Codec.stepwise_tagged
  have hall : result ((shape.read registry .wire).seen fun _ d => d.source.position)
      (new (.ofBytes bytes) {}) = .ok 14 := by decide +kernel
  obtain ⟨item, d, hread, hposition⟩ := exists_of_seen hall
  have hsteady : source.Steady := fun _ wanted h => Nat.lt_min.mpr ⟨Nat.one_pos, h⟩
  have hcut := (Shape.read_of_consumed hregistry shape bytes {} {} hread source hsteady
    (some {})).2 11 (by rw [hposition]; decide) rfl
  exact ⟨hregistry, hsteady, item, d, hread, hposition, hcut.2 fault rfl rfl⟩

end MessagePack
