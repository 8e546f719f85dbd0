import MessagePack.Proofs.InStep.Shape

namespace MessagePack

open Decoding

variable {α β : Type}

/-- Bytes in memory: every read brings something while there is anything left, and after the last
byte the source reports the end. -/
structure Source.InMemory (source : Source) : Prop where
  steady : source.Steady
  failure : source.failure = none

theorem Source.InMemory.advance {source : Source} (h : source.InMemory) (n : Nat) :
    (source.advance n).InMemory :=
  ⟨h.steady, h.failure⟩

theorem Source.inMemory_ofBytes (bytes : List UInt8) : (ofBytes bytes).InMemory :=
  ⟨steady_ofBytes bytes, rfl⟩

namespace Decoder

/-- The session without tables of fields. -/
def plain (d : Decoder) : Decoder := { d with tables := none }

end Decoder

namespace Decoding

/-- A run of the reading from one session comes to a run of a part of it from another. -/
inductive ComesTo (part : Decoding β) (mid : Decoder) : {α : Type} → Decoding α → Decoder → Prop
  | here : ComesTo part mid part mid
  | first {α γ : Type} {first : Decoding α} {next : α → Decoding γ} {d : Decoder}
      (h : ComesTo part mid first d) : ComesTo part mid (first >>= next) d
  | next {α γ : Type} {first first' : Decoding α} {next : α → Decoding γ} {d d' : Decoder} {a : α}
      (steps : InStep first first') (answer : first d = .ok a d')
      (h : ComesTo part mid (next a) d') : ComesTo part mid (first >>= next) d
  | fieldsOf {γ : Type} {name : String} {names : List String} {table : Option Fields}
      {next : Option Fields → Decoding γ} {d d' : Decoder}
      (answer : Decoder.fieldsOf name names d = .ok table d')
      (h : ComesTo part mid (next table) d') :
      ComesTo part mid (Decoder.fieldsOf name names >>= next) d
  | tried {α : Type} {first : Decoding α} {handler : Error → Decoding α} {d : Decoder}
      (h : ComesTo part mid first d) : ComesTo part mid (tryCatch first handler) d
  | handled {α : Type} {first first' : Decoding α} {handler : Error → Decoding α}
      {d d' : Decoder} {e : Error} (steps : InStep first first') (error : first d = .error e d')
      (h : ComesTo part mid (handler e) d') : ComesTo part mid (tryCatch first handler) d

/-- The reading comes to a structure's key that the table has it read all at once, and that is cut
short. The one error says how long the key is, the other how much of it is missing. -/
def CutKey (reading : Decoding α) (d : Decoder) (e e' : Error) : Prop :=
  ∃ fields len mid, ComesTo (Entries.keyBytes fields len) mid reading d ∧
    len ≤ min fields.longest Entries.shortKey ∧ mid.source.rest.length < len ∧
    e = .truncated .payload len ∧ e' = .truncated .payload (len - mid.source.rest.length)

/-- The first reading comes out from the session as the second does from the session without
tables: with the same answer or the same error, and in the same place. Only of a key that is cut
short may the errors give different counts. -/
inductive Tallies (reading reading' : Decoding α) (d : Decoder) : Prop
  | ok {a : α} {s : Decoder} (run : reading d = .ok a s) (run' : reading' d.plain = .ok a s.plain)
      (inMemory : s.source.InMemory)
  | error {e e' : Error} {s : Decoder} (run : reading d = .error e s)
      (run' : reading' d.plain = .error e' s.plain) (inMemory : s.source.InMemory)
      (same : e' = e ∨ CutKey reading d e e')

variable {d : Decoder}

theorem CutKey.mono {part : Decoding α} {whole : Decoding β} {d d' : Decoder} {e e' : Error}
    (h : ∀ {γ : Type} {key : Decoding γ} {mid : Decoder},
      ComesTo key mid part d → ComesTo key mid whole d') (hcut : CutKey part d e e') :
    CutKey whole d' e e' := by
  obtain ⟨fields, len, mid, hcomes, hrest⟩ := hcut
  exact ⟨fields, len, mid, h hcomes, hrest⟩

section

variable (hs : d.source.InMemory)

include hs

theorem tallies_exactly (step : Step) (count : Nat) :
    Tallies (Decoder.exactly step count) (Decoder.exactly step count) d := by
  have hplain : d.plain.source.Steady := hs.steady
  rcases Nat.lt_or_ge d.source.rest.length count with h | h
  · exact .error (Decoder.exactly_of_lt hs.steady h) (Decoder.exactly_of_lt hplain h)
      (hs.advance _) (.inl rfl)
  · exact .ok (Decoder.exactly_of_le hs.steady h) (Decoder.exactly_of_le hplain h) (hs.advance _)

theorem tallies_payload (len : Nat) :
    Tallies (Decoder.payload len) (Decoder.payload len) d := by
  have hplain : d.plain.source.Steady := hs.steady
  rcases Nat.lt_or_ge d.source.rest.length len with h | h
  · exact .error (Decoder.payload_of_lt hs.steady h) (Decoder.payload_of_lt hplain h)
      (hs.advance _) (.inl rfl)
  · exact .ok (Decoder.payload_of_le hs.steady h) (Decoder.payload_of_le hplain h) (hs.advance _)

/-- The table's way of reading a key and the plain one differ only where a short key is cut. -/
theorem tallies_keyBytes (fields : Fields) (len : Nat) :
    Tallies (Entries.keyBytes fields len) (Decoder.payload len) d := by
  have hplain : d.plain.source.Steady := hs.steady
  by_cases hshort : len ≤ min fields.longest Entries.shortKey
  · have hkey : Entries.keyBytes fields len = Decoder.exactly .payload len := if_pos hshort
    rcases Nat.lt_or_ge d.source.rest.length len with h | h
    · have hrun : Decoder.exactly .payload len d = _ := Decoder.exactly_of_lt hs.steady h
      have hrun' := Decoder.payload_of_lt hplain h
      have hplainFailure : d.plain.source.failure = none := hs.failure
      rw [hs.failure, ← hkey] at hrun
      rw [hplainFailure] at hrun'
      exact .error hrun hrun' (hs.advance _) (.inr ⟨fields, len, d, .here, hshort, h, rfl, rfl⟩)
    · exact .ok (hkey ▸ Decoder.exactly_of_le hs.steady h) (Decoder.payload_of_le hplain h)
        (hs.advance _)
  · have hkey : Entries.keyBytes fields len = Decoder.payload len := if_neg hshort
    exact hkey ▸ tallies_payload hs len

end

/-- A session without tables gives no table, whatever the one with tables gives. -/
theorem fieldsOf_plain (name : String) (names : List String) (d : Decoder) :
    ∃ table s, Decoder.fieldsOf name names d = .ok table s ∧ s.source = d.source ∧
      ∃ table', Decoder.fieldsOf name names d.plain = .ok table' s.plain ∧ table' = none := by
  obtain ⟨source, nesting, peeked, tables⟩ := d
  cases tables with
  | none => exact ⟨_, _, rfl, rfl, _, rfl, rfl⟩
  | some cache => exact ⟨_, _, rfl, rfl, _, rfl, rfl⟩

/-- From every session in memory the two come out alike. -/
def TalliesAlways (reading reading' : Decoding α) : Prop :=
  ∀ ⦃d : Decoder⦄, d.source.InMemory → Tallies reading reading' d

namespace TalliesAlways

variable {first first' : Decoding α}

theorem bind {next next' : α → Decoding β} (head : TalliesAlways first first')
    (steps : InStep first first')
    (tail : ∀ a, (∃ d d', first d = .ok a d') → TalliesAlways (next a) (next' a)) :
    TalliesAlways (first >>= next) (first' >>= next') := by
  intro d hs
  cases head hs with
  | @ok a s run run' hmid =>
    cases tail a ⟨d, s, run⟩ hmid with
    | ok next next' hlast =>
      exact .ok ((bind_of_ok run).trans next) ((bind_of_ok run').trans next') hlast
    | error next next' hlast same =>
      exact .error ((bind_of_ok run).trans next) ((bind_of_ok run').trans next') hlast
        (same.imp_right (.mono (.next steps run)))
  | error run run' hmid same =>
    exact .error (bind_of_error run) (bind_of_error run') hmid (same.imp_right (.mono .first))

theorem rescue {next next' : Error → Decoding α} (head : TalliesAlways first first')
    (steps : InStep first first') (tail : ∀ e, TalliesAlways (next e) (next' e))
    (failure : ∀ e, e.isReadFailure = true →
      next e = MonadExcept.throw e ∧ next' e = MonadExcept.throw e) :
    TalliesAlways (tryCatch first next) (tryCatch first' next') := by
  intro d hs
  cases head hs with
  | ok run run' hmid => exact .ok (tryCatch_of_ok run) (tryCatch_of_ok run') hmid
  | @error e e' s run run' hmid same =>
    have hcatch : tryCatch first next d = next e s := tryCatch_of_error run
    have hcatch' : tryCatch first' next' d.plain = next' e' s.plain := tryCatch_of_error run'
    by_cases hread : e.isReadFailure = true
    · -- both handlers throw again, so the errors stay as far apart as they were
      have hread' : e'.isReadFailure = true := by
        rcases same with rfl | ⟨_, _, _, _, _, _, _, rfl⟩
        · exact hread
        · rfl
      rw [(failure e hread).1] at hcatch
      rw [(failure e' hread').2] at hcatch'
      exact .error hcatch hcatch' hmid (same.imp_right (.mono .tried))
    · obtain rfl : e' = e := same.resolve_right fun hcut => by
        obtain ⟨_, _, _, _, _, _, rfl, _⟩ := hcut
        exact hread rfl
      cases tail e' hmid with
      | ok last last' hlast => exact .ok (hcatch.trans last) (hcatch'.trans last') hlast
      | error last last' hlast same =>
        exact .error (hcatch.trans last) (hcatch'.trans last') hlast
          (same.imp_right (.mono (.handled steps run)))

theorem inside (step : Nesting → Option UInt8 → Except Error α × Nesting × Option UInt8) :
    TalliesAlways (Decoder.inside step) (Decoder.inside step) := by
  intro d hs
  rcases hstep : step d.nesting d.peeked with ⟨answer, nesting, peeked⟩
  cases answer with
  | ok b =>
    have hrun (tables : Option FieldCache) : Decoder.inside step { d with tables } =
        .ok b { d with nesting, peeked, tables } := by
      simp only [Decoder.inside, hstep]
    exact .ok (hrun d.tables) (hrun none) hs
  | error e =>
    have hrun (tables : Option FieldCache) : Decoder.inside step { d with tables } =
        .error e { d with nesting, peeked, tables } := by
      simp only [Decoder.inside, hstep]
    exact .error (hrun d.tables) (hrun none) hs (.inl rfl)

theorem fieldsOf {name : String} {names : List String} {next next' : Option Fields → Decoding α}
    (tail : ∀ table table', table' = table ∨ table' = none →
      TalliesAlways (next table) (next' table')) :
    TalliesAlways (Decoder.fieldsOf name names >>= next)
      (Decoder.fieldsOf name names >>= next') := by
  intro d hs
  obtain ⟨table, s, run, hsource, _, run', rfl⟩ := fieldsOf_plain name names d
  have hmid : s.source.InMemory := hsource ▸ hs
  cases tail table none (.inr rfl) hmid with
  | ok next next' hlast =>
    exact .ok ((bind_of_ok run).trans next) ((bind_of_ok run').trans next') hlast
  | error next next' hlast same =>
    exact .error ((bind_of_ok run).trans next) ((bind_of_ok run').trans next') hlast
      (same.imp_right (.mono (.fieldsOf run)))

end TalliesAlways

/-- Readings in step come out alike with tables and without. -/
theorem InStep.tallies {reading reading' : Decoding α} (h : InStep reading reading') :
    TalliesAlways reading reading' := by
  induction h with
  | pure a => exact fun _ hs => .ok rfl rfl hs
  | throw e => exact fun _ hs => .error rfl rfl hs (.inl rfl)
  | bind steps _ ihHead ihTail => exact .bind ihHead steps ihTail
  | rescue steps _ failure ihHead ihTail => exact .rescue ihHead steps ihTail failure
  | inside step => exact .inside step
  | exactly step count => exact fun _ hs => tallies_exactly hs step count
  | payload len => exact fun _ hs => tallies_payload hs len
  | key fields len => exact fun _ hs => tallies_keyBytes hs fields len
  | fieldsOf _ ih => exact .fieldsOf ih

end Decoding

open Decoder

/-- Whatever type is read from bytes in memory, and whatever tables of fields have been made before:
what is answered, how many bytes are read and which error there is are as without tables, each key
being read for itself. Only where a key of a structure is cut short may the errors give different
counts of missing bytes. -/
theorem Shape.read_without_tables {registry : Registry} (hregistry : registry.Stepwise)
    (shape : Shape) (bytes : List UInt8) (config : Config) (cache : FieldCache) :
    Tallies (shape.read registry .wire) (shape.read registry .wire)
      { new (.ofBytes bytes) config with tables := some cache } :=
  (shape.read_stepwise hregistry .wire).tallies (Source.inMemory_ofBytes bytes)

/-- Two structures of one type name, the inner one with a key that is cut short. -/
theorem Shape.read_without_tables_cut :
    let shape : Shape := .struct "P" [("a", .struct "P" [("bcd", .bool)] true)] false
    let bytes : List UInt8 := [0x81, 0xa1, 0x61, 0x81, 0xa3, 0x62]
    let cache : FieldCache := { tables := [("P", .ofNames ["b"])] }
    let d : Decoder := { new (.ofBytes bytes) {} with tables := some cache }
    Registry.default.Stepwise ∧
      result (shape.read .default .wire) d = .error (.truncated .payload 3) ∧
      result (shape.read .default .wire) d.plain = .error (.truncated .payload 2) ∧
      Tallies (shape.read .default .wire) (shape.read .default .wire) d := by
  intro shape bytes cache d
  have hregistry := Registry.stepwise_default
  have hcached : result ((shape.read .default .wire).seen fun _ _ => ()) d =
      .error (.truncated .payload 3) := by decide +kernel
  have hplain : result ((shape.read .default .wire).seen fun _ _ => ()) d.plain =
      .error (.truncated .payload 2) := by decide +kernel
  exact ⟨hregistry, Decoding.result_eq_error_iff.mpr (error_of_seen hcached),
    result_eq_error_iff.mpr (error_of_seen hplain),
    Shape.read_without_tables hregistry shape bytes {} cache⟩

end MessagePack
