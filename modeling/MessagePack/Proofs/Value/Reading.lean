import MessagePack.Decoder.Fold
import MessagePack.Proofs.Session.Passed
import MessagePack.Proofs.Session.Yields
import MessagePack.Proofs.Value.Fold
import MessagePack.Proofs.Value.SpelledBy

namespace MessagePack

open Decoding
open Value (ItemsSpelledBy EntriesSpelledBy)
open Wire (Element Streams ElementTree)

variable {α : Type} {f : Fold α}

namespace Decoder

variable {d d' : Decoder}

/-- The session went over the spelling of a value, and the fold made `a` of it. -/
def Folded (f : Fold α) (d : Decoder) (a : α) (d' : Decoder) : Prop :=
  ∃ (v : Value) (bytes : List UInt8) (elements : List Element), v.SpelledBy bytes ∧
    Passed d elements bytes d' ∧ d'.peeked = none ∧
    (f.SignBlind → a = v.fold f)

section

variable {one : Decoding α} (hone : ∀ {d a d'}, d.Sound → one d = .ok a d' → Folded f d a d')

include hone

private theorem folded_items {count : Nat} {done list : List α} (hs : d.Sound)
    (hp : d.peeked = none) (h : repeatFrom one done count d = .ok list d') :
    ∃ items bytes elements, ItemsSpelledBy items bytes ∧ items.length = count ∧
      Passed d elements bytes d' ∧ d'.peeked = none ∧
      (f.SignBlind → list = done.reverse ++ Value.foldItems f items) := by
  induction count generalizing d done with
  | zero =>
    obtain ⟨rfl, rfl⟩ := pure_eq_ok_iff.mp h
    exact ⟨[], [], [], .nil, rfl, .refl hs, hp, fun _ => by simp [Value.foldItems]⟩
  | succ count ih =>
    obtain ⟨a, mid, hfirst, hrest⟩ := bind_eq_ok_iff.mp h
    obtain ⟨v, bytes, elements, hv, hpassed, hmid, hfold⟩ := hone hs hfirst
    obtain ⟨items, bytes', elements', hitems, rfl, hpassed', hd', hfolds⟩ :=
      ih (hpassed.sound hs) hmid hrest
    refine ⟨v :: items, bytes ++ bytes', elements ++ elements', .cons hv hitems, rfl,
      hpassed.trans hpassed', hd', fun hf => ?_⟩
    rw [hfolds hf, hfold hf]
    simp [Value.foldItems]

private theorem folded_entries {count : Nat} {done list : List (α × α)} (hs : d.Sound)
    (hp : d.peeked = none)
    (h : repeatFrom (do let k ← one; let v ← one; return (k, v)) done count d = .ok list d') :
    ∃ entries bytes elements, EntriesSpelledBy entries bytes ∧ entries.length = count ∧
      Passed d elements bytes d' ∧ d'.peeked = none ∧
      (f.SignBlind → list = done.reverse ++ Value.foldEntries f entries) := by
  induction count generalizing d done with
  | zero =>
    obtain ⟨rfl, rfl⟩ := pure_eq_ok_iff.mp h
    exact ⟨[], [], [], .nil, rfl, .refl hs, hp, fun _ => by simp [Value.foldEntries]⟩
  | succ count ih =>
    obtain ⟨ab, mid, hfirst, hrest⟩ := bind_eq_ok_iff.mp h
    obtain ⟨a, between, hkey, hfirst⟩ := bind_eq_ok_iff.mp hfirst
    obtain ⟨b, last, hitem, hpair⟩ := bind_eq_ok_iff.mp hfirst
    obtain ⟨rfl, rfl⟩ := pure_eq_ok_iff.mp hpair
    obtain ⟨k, key, elements, hk, hpassed, -, hfold⟩ := hone hs hkey
    have hbetween := hpassed.sound hs
    obtain ⟨v, bytes, elements', hv, hpassed', hlast, hfold'⟩ := hone hbetween hitem
    obtain ⟨entries, body, elements'', hentries, rfl, hpassed'', hd', hfolds⟩ :=
      ih (hpassed'.sound hbetween) hlast hrest
    refine ⟨(k, v) :: entries, key ++ (bytes ++ body), elements ++ (elements' ++ elements''),
      .cons hk hv hentries, rfl, hpassed.trans (hpassed'.trans hpassed''), hd', fun hf => ?_⟩
    rw [hfolds hf, hfold hf, hfold' hf]
    simp [Value.foldEntries]

end

/-- What the reading of anything goes over is the spelling of a value. -/
theorem folded_of_foldLevels {levels : Nat} {a : α} (hs : d.Sound)
    (h : foldLevels f levels d = .ok a d') : Folded f d a d' := by
  induction levels generalizing d a d' with
  | zero => exact absurd h throw_ne_ok
  | succ levels ih =>
    obtain ⟨e, mid, hnext, hrest⟩ := bind_eq_ok_iff.mp h
    have hscalar {v : Value} {b : α} (hpure : (pure b : Decoding α) mid = .ok a d')
        (he : e.payload = 0) (hv : ∀ {header}, Wire.IsHeader e header → v.SpelledBy header)
        (hfold : f.SignBlind → b = v.fold f) : Folded f d a d' := by
      obtain ⟨rfl, rfl⟩ := pure_eq_ok_iff.mp hpure
      obtain ⟨header, hheader, hpassed, hp⟩ := passed_nextElement hs hnext he
      exact ⟨v, header, [e], hv hheader, hpassed, hp, hfold⟩
    cases e with
    | nil => exact hscalar hrest rfl .nil fun _ => rfl
    | bool b => exact hscalar hrest rfl .bool fun _ => rfl
    | uint n => exact hscalar hrest rfl .uint fun _ => (f.int_ofUInt64 n).symm
    | int n => exact hscalar hrest rfl .int fun hf => hf n
    | f32 bits => exact hscalar hrest rfl .f32 fun _ => rfl
    | f64 bits => exact hscalar hrest rfl .f64 fun _ => rfl
    | raw len =>
      obtain ⟨data, last, hdata, hpure⟩ := bind_eq_ok_iff.mp hrest
      obtain ⟨rfl, rfl⟩ := pure_eq_ok_iff.mp hpure
      obtain ⟨header, hheader, hpassed, hp⟩ := passed_payload hs hnext hdata
      exact ⟨.raw data, header ++ data, _, .raw hheader, hpassed, hp, fun _ => rfl⟩
    | array len =>
      obtain ⟨list, last, hlist, hpure⟩ := bind_eq_ok_iff.mp hrest
      obtain ⟨rfl, rfl⟩ := pure_eq_ok_iff.mp hpure
      obtain ⟨header, hheader, hpassed, hp⟩ := passed_nextElement hs hnext rfl
      obtain ⟨items, body, elements, hitems, rfl, hpassed', hp', hfold⟩ :=
        folded_items ih (hpassed.sound hs) hp hlist
      refine ⟨.array items, header ++ body, _, .array hheader hitems, hpassed.trans hpassed', hp',
        fun hf => ?_⟩
      rw [hfold hf]
      rfl
    | map len =>
      obtain ⟨list, last, hlist, hpure⟩ := bind_eq_ok_iff.mp hrest
      obtain ⟨rfl, rfl⟩ := pure_eq_ok_iff.mp hpure
      obtain ⟨header, hheader, hpassed, hp⟩ := passed_nextElement hs hnext rfl
      obtain ⟨entries, body, elements, hentries, rfl, hpassed', hp', hfold⟩ :=
        folded_entries ih (hpassed.sound hs) hp hlist
      refine ⟨.map entries, header ++ body, _, .map hheader hentries, hpassed.trans hpassed', hp',
        fun hf => ?_⟩
      rw [hfold hf]
      rfl

end Decoder

namespace Value

open Decoder

mutual

/-- The spelling of a value is read as its fold, given a level for each container inside. -/
theorem SpelledBy.yields (hf : f.SignBlind) : {v : Value} → {bytes : List UInt8} →
    v.SpelledBy bytes → {levels : Nat} → v.height ≤ levels → ∃ elements,
      Streams elements bytes ∧ Yields (foldLevels f (levels + 1)) elements bytes (v.fold f)
  | _, _, .nil h, _, _ => ⟨_, .header h rfl, .scalar h rfl⟩
  | _, _, .bool h, _, _ => ⟨_, .header h rfl, .scalar h rfl⟩
  | _, _, .uint (n := n) h, _, _ => by
    rw [ofUInt64, fold, f.int_ofUInt64]
    exact ⟨_, .header h rfl, .scalar h rfl⟩
  | _, _, .int (n := n) h, _, _ => by
    rw [ofInt64, fold, ← hf]
    exact ⟨_, .header h rfl, .scalar h rfl⟩
  | _, _, .f32 h, _, _ => ⟨_, .header h rfl, .scalar h rfl⟩
  | _, _, .f64 h, _, _ => ⟨_, .header h rfl, .scalar h rfl⟩
  | _, _, .raw h, _, _ => ⟨_, .raw h, .raw h bind_of_ok⟩
  | _, _, @SpelledBy.array items _ _ h contents, levels, hroom => by
    obtain ⟨elements, hstreams, hyields⟩ := contents.yields hf (Nat.lt_of_succ_le hroom)
    refine ⟨_ :: elements, (Streams.header h rfl).append hstreams, .element h ?_⟩
    exact (hyields []).map
  | _, _, @SpelledBy.map entries _ _ h contents, levels, hroom => by
    obtain ⟨elements, hstreams, hyields⟩ := contents.yields hf (Nat.lt_of_succ_le hroom)
    refine ⟨_ :: elements, (Streams.header h rfl).append hstreams, .element h ?_⟩
    exact (hyields []).map

theorem ItemsSpelledBy.yields (hf : f.SignBlind) : {items : List Value} → {bytes : List UInt8} →
    ItemsSpelledBy items bytes → {levels : Nat} → heights items < levels → ∃ elements,
      Streams elements bytes ∧ ∀ done, Yields (repeatFrom (foldLevels f levels) done items.length)
        elements bytes (done.reverse ++ foldItems f items)
  | _, _, .nil, _, _ => ⟨[], .nil, fun done => by
    rw [foldItems, List.append_nil]
    exact .pure done.reverse⟩
  | _, _, @ItemsSpelledBy.cons v rest _ _ head tail, levels, hroom => by
    rw [heights, Nat.max_lt] at hroom
    obtain ⟨levels, rfl⟩ := Nat.exists_eq_add_one_of_ne_zero (Nat.ne_zero_of_lt hroom.1)
    obtain ⟨elements, hstreams, hyields⟩ := head.yields hf (Nat.le_of_lt_succ hroom.1)
    obtain ⟨elements', hstreams', hyields'⟩ := tail.yields hf hroom.2
    refine ⟨elements ++ elements', hstreams.append hstreams', fun done => ?_⟩
    have hall := hyields.bind (k := fun a => repeatFrom _ (a :: done) rest.length)
      (hyields' (v.fold f :: done))
    rw [List.reverse_cons, List.append_assoc] at hall
    exact hall

theorem EntriesSpelledBy.yields (hf : f.SignBlind) : {entries : List (Value × Value)} →
    {bytes : List UInt8} → EntriesSpelledBy entries bytes → {levels : Nat} →
    entryHeights entries < levels → ∃ elements, Streams elements bytes ∧ ∀ done,
      Yields (repeatFrom (do
          let k ← foldLevels f levels
          let v ← foldLevels f levels
          return (k, v)) done entries.length)
        elements bytes (done.reverse ++ foldEntries f entries)
  | _, _, .nil, _, _ => ⟨[], .nil, fun done => by
    rw [foldEntries, List.append_nil]
    exact .pure done.reverse⟩
  | _, _, @EntriesSpelledBy.cons k v rest _ _ _ key item tail, levels, hroom => by
    rw [entryHeights, Nat.max_lt, Nat.max_lt] at hroom
    obtain ⟨levels, rfl⟩ := Nat.exists_eq_add_one_of_ne_zero (Nat.ne_zero_of_lt hroom.2)
    obtain ⟨elements, hstreams, hyields⟩ := key.yields hf (Nat.le_of_lt_succ hroom.1.1)
    obtain ⟨elements', hstreams', hyields'⟩ := item.yields hf (Nat.le_of_lt_succ hroom.1.2)
    obtain ⟨elements'', hstreams'', hyields''⟩ := tail.yields hf hroom.2
    refine ⟨elements ++ (elements' ++ elements''),
      hstreams.append (hstreams'.append hstreams''), fun done => ?_⟩
    have hpair := hyields.bind (k := fun a => do
      let b ← foldLevels f (levels + 1)
      return (a, b)) hyields'.map
    have hall := hpair.bind (k := fun ab => repeatFrom _ (ab :: done) rest.length)
      (hyields'' ((k.fold f, v.fold f) :: done))
    simp only [List.reverse_cons, List.append_assoc] at hall
    exact hall

end

/-- Anything is read whole from its spelling where the nesting has room for its elements. -/
theorem SpelledBy.yields_fold (hf : f.SignBlind) {v : Value} {bytes : List UInt8}
    (h : v.SpelledBy bytes) : ∃ t : ElementTree, t.Whole ∧ t.height = v.height ∧
      Streams t.elements bytes ∧ Yields (Decoder.fold f) t.elements bytes (v.fold f) := by
  obtain ⟨t, hwhole, hheight, hstreams⟩ := h.exists_tree
  refine ⟨t, hwhole, hheight, hstreams, fun d rest next hs hahead hnext => ?_⟩
  obtain ⟨hroom, -⟩ := (Nesting.enterAll_whole_eq_ok_iff hwhole hs.nesting).mp hnext
  obtain ⟨elements, hstreams', hyields⟩ := h.yields hf (show v.height ≤ d.nesting.limit by omega)
  obtain rfl := hstreams.unique hstreams'
  exact hyields hs hahead hnext

end Value

namespace Decoder

variable {d d' : Decoder}

/-- What has been gone over is one complete element, and the limit had room for it. -/
theorem Folded.exists_tree {a : α} (hs : d.Sound) (h : Folded f d a d') :
    ∃ (v : Value) (bytes : List UInt8) (t : ElementTree), v.SpelledBy bytes ∧ t.Whole ∧
      t.height = v.height ∧ Passed d t.elements bytes d' ∧ d'.peeked = none ∧
      d.nesting.depth + v.height ≤ d.nesting.limit ∧ (f.SignBlind → a = v.fold f) := by
  obtain ⟨v, bytes, elements, hv, hpassed, hp, hfold⟩ := h
  obtain ⟨t, hwhole, hheight, hstreams⟩ := hv.exists_tree
  obtain rfl := hstreams.unique hpassed.streams
  obtain ⟨hroom, -⟩ :=
    (Nesting.enterAll_whole_eq_ok_iff hwhole hs.nesting).mp hpassed.nesting
  exact ⟨v, bytes, t, hv, hwhole, hheight, hpassed, hp, by omega, hfold⟩

/-- A session over a spelling at the beginning of its bytes reads the value and stops after it. -/
theorem value_of_spelledBy {bytes : List UInt8} (rest : List UInt8) {config : Config} {v : Value}
    (hv : v.SpelledBy bytes) (hroom : v.height ≤ config.maxDepth) :
    ∃ d, value (new (.ofBytes (bytes ++ rest)) config) = .ok v d ∧
      d.source.position = bytes.length := by
  obtain ⟨t, hwhole, hheight, hstreams, hyields⟩ := hv.yields_fold Fold.signBlind_value
  have hs := sound_new (bytes ++ rest) config
  have hnext := (Nesting.enterAll_whole_eq_ok_iff hwhole hs.nesting).mpr
    ⟨show 0 + t.height ≤ config.maxDepth by omega, rfl⟩
  obtain ⟨tables, hok⟩ := hyields hs (ahead_new (bytes ++ rest) config) hnext
  rw [Value.fold_value] at hok
  refine ⟨_, hok, ?_⟩
  simp [past_of_peeked_none, new, Source.advance, Source.ofBytes]

end Decoder

open Decoder in
/-- No spelling begins another, and none spells two values. -/
theorem Value.SpelledBy.append_inj {v w : Value} {bytes bytes' rest rest' : List UInt8}
    (h : v.SpelledBy bytes) (h' : w.SpelledBy bytes') (heq : bytes ++ rest = bytes' ++ rest') :
    v = w ∧ bytes = bytes' ∧ rest = rest' := by
  let config : Config := { maxDepth := max v.height w.height }
  have hroom : v.height ≤ config.maxDepth := Nat.le_max_left _ _
  have hroom' : w.height ≤ config.maxDepth := Nat.le_max_right _ _
  obtain ⟨d, hread, hposition⟩ := value_of_spelledBy rest h hroom
  obtain ⟨d', hread', hposition'⟩ := value_of_spelledBy rest' h' hroom'
  rw [heq, hread'] at hread
  obtain ⟨rfl, rfl⟩ := EStateM.Result.ok.inj hread
  obtain ⟨rfl, hrest⟩ := List.append_inj heq (hposition.symm.trans hposition')
  exact ⟨rfl, rfl, hrest⟩

namespace Decoder

/-- The bytes that a fresh session reads a value over spell it, and the limit had room for it. -/
theorem spelledBy_of_value_new {bytes : List UInt8} {config : Config} {v : Value} {d : Decoder}
    (h : value (new (.ofBytes bytes) config) = .ok v d) :
    d.source.position ≤ bytes.length ∧ v.SpelledBy (bytes.take d.source.position) ∧
      v.height ≤ config.maxDepth := by
  have hs := sound_new bytes config
  obtain ⟨w, first, t, hw, -, -, hpassed, hp, hroom, hfold⟩ :=
    (folded_of_foldLevels hs h).exists_tree hs
  obtain ⟨hposition, hall⟩ := hpassed.position_eq hp
  obtain rfl : v = w := (hfold Fold.signBlind_value).trans (Value.fold_value w)
  rw [hposition, hall, List.take_left, List.length_append]
  exact ⟨Nat.le_add_right _ _, hw, by simpa [new, Nesting.depth] using hroom⟩

/-- A fresh session reads a value over the first `n` bytes exactly when they spell the value and
its containers nest no deeper than the limit. -/
theorem value_new_eq_ok_iff (bytes : List UInt8) (config : Config) (n : Nat) (v : Value) :
    (∃ d, value (new (.ofBytes bytes) config) = .ok v d ∧ d.source.position = n) ↔
      n ≤ bytes.length ∧ v.SpelledBy (bytes.take n) ∧ v.height ≤ config.maxDepth := by
  constructor
  · intro hparts
    obtain ⟨d, hread, rfl⟩ := hparts
    exact spelledBy_of_value_new hread
  · intro hparts
    obtain ⟨hn, hv, hroom⟩ := hparts
    obtain ⟨d, hread, hposition⟩ := value_of_spelledBy (bytes.drop n) hv hroom
    rw [List.take_append_drop] at hread
    rw [List.length_take, Nat.min_eq_left hn] at hposition
    exact ⟨d, hread, hposition⟩

end Decoder

end MessagePack
