import MessagePack.Proofs.Nesting.Opened
import MessagePack.Proofs.Session.Steps
import MessagePack.Proofs.Wire.Shortest

namespace MessagePack

/-- A count as a word of 64 bits, if it fits. -/
def word? (n : Nat) : Option UInt64 :=
  if n < 18446744073709551616 then some (UInt64.ofNat n) else none

namespace Nesting

open Wire (Element PartialForest maxLength)

/-- Counts one item in words. There is nothing below 0. -/
def countWord? : List UInt64 → Option (List UInt64)
  | [] => some []
  | n :: outer => if n = 0 then none else some ((n - 1) :: outer)

/-- Opens a container in words. -/
def openWord? (e : Element) (words : List UInt64) : Option (List UInt64) :=
  match e with
  | .array len => (word? len).map (· :: words)
  | .map len => (word? (2 * len)).map (· :: words)
  | _ => some words

/-- Takes note of an element with its counts in words, unless one of them leaves its range. -/
def enterWord? (limit : Nat) (words : List UInt64) (e : Element) :
    Option (Except Error (List UInt64)) := do
  let counted ← countWord? words
  let opened ← openWord? e counted
  return if limit < opened.length then .error .depthLimit else .ok (opened.dropWhile (· == 0))

/-- Takes note of elements one after another. -/
def enterWords? (limit : Nat) (words : List UInt64) :
    List Element → Option (Except Error (List UInt64))
  | [] => some (.ok words)
  | e :: rest => do
    match ← enterWord? limit words e with
    | .error err => return .error err
    | .ok next => enterWords? limit next rest

/-- The nesting that words count. -/
def ofWords (limit : Nat) (words : List UInt64) : Nesting :=
  { pending := words.map UInt64.toNat, limit }

variable {limit : Nat} {words : List UInt64} {e : Element}

theorem countWord?_eq (hhead : (words.map UInt64.toNat).head? ≠ some 0) :
    ∃ counted, countWord? words = some counted ∧
      counted.map UInt64.toNat = countItem (words.map UInt64.toNat) := by
  cases words with
  | nil => exact ⟨[], rfl, rfl⟩
  | cons n outer =>
    have hn : n ≠ 0 := by
      rintro rfl
      exact hhead rfl
    have hpos : 0 < n.toNat := Nat.pos_of_ne_zero fun h => hn (UInt64.toNat_inj.mp h)
    have hone : 1 ≤ n := UInt64.le_iff_toNat_le.mpr hpos
    refine ⟨(n - 1) :: outer, if_neg hn, ?_⟩
    rw [List.map_cons, List.map_cons, UInt64.toNat_sub_of_le n 1 hone, countItem_of_pos hpos]
    rfl

/-- A header announces less than half of what a word can count. -/
theorem word?_eq {n : Nat} (hn : n ≤ 2 * maxLength) :
    word? n = some (UInt64.ofNat n) ∧ (UInt64.ofNat n).toNat = n := by
  have hlt : n < 18446744073709551616 := Nat.lt_of_le_of_lt hn (by decide)
  exact ⟨if_pos hlt, UInt64.toNat_ofNat_of_lt' hlt⟩

theorem openWord?_eq (words : List UInt64) (hlength : e.length ≤ maxLength) :
    ∃ next, openWord? e words = some next ∧
      next.map UInt64.toNat = opened e (words.map UInt64.toNat) := by
  cases e with
  | array len =>
    have hlen : len ≤ 2 * maxLength := Nat.le_trans hlength (by decide)
    obtain ⟨hsome, hsame⟩ := word?_eq hlen
    refine ⟨UInt64.ofNat len :: words, ?_, ?_⟩
    · simp only [openWord?, hsome, Option.map_some]
    · simp only [List.map_cons, hsame, opened]
  | map len =>
    have hlen : 2 * len ≤ 2 * maxLength := Nat.mul_le_mul_left 2 hlength
    obtain ⟨hsome, hsame⟩ := word?_eq hlen
    refine ⟨UInt64.ofNat (2 * len) :: words, ?_, ?_⟩
    · simp only [openWord?, hsome, Option.map_some]
    · simp only [List.map_cons, hsame, opened]
  | _ => exact ⟨words, rfl, rfl⟩

theorem dropWhile_words (words : List UInt64) :
    (words.dropWhile (· == 0)).map UInt64.toNat =
      (words.map UInt64.toNat).dropWhile (· == 0) := by
  induction words with
  | nil => rfl
  | cons n outer ih =>
    by_cases hn : n = 0
    · simpa [hn] using ih
    · have hnat : n.toNat ≠ 0 := fun h => hn (UInt64.toNat_inj.mp h)
      simp [hn, hnat]

/-- Where no complete container is on top, an element that a header can announce keeps every count
in its range. -/
theorem enterWord?_eq (hhead : (ofWords limit words).pending.head? ≠ some 0)
    (hlength : e.length ≤ maxLength) :
    (enterWord? limit words e).map (Except.map (ofWords limit)) =
      some ((ofWords limit words).enter e) := by
  obtain ⟨counted, hcount, hcounted⟩ := countWord?_eq hhead
  obtain ⟨next, hopen, hopened⟩ := openWord?_eq counted hlength
  rw [hcounted] at hopened
  have hlen : next.length = ((ofWords limit words).noted e).depth := by
    simp only [depth, noted, ofWords, ← hopened, List.length_map]
  have hlimit : (ofWords limit words).limit = limit := rfl
  simp only [enterWord?, hcount, hopen, Option.bind_eq_bind, Option.bind_some, Option.pure_def,
    Option.map_some, Nesting.enter, ← hlen, hlimit]
  by_cases h : limit < next.length
  · rw [if_pos h, if_pos h]
    rfl
  · rw [if_neg h, if_neg h]
    simp only [Except.map, ofWords, closed, noted, dropWhile_words, hopened]

/-- The counts stay in their range as long as elements pass. -/
theorem enterWords?_eq {elements : List Element} (hsound : (ofWords limit words).Sound)
    (hlengths : ∀ e ∈ elements, e.length ≤ maxLength) :
    (enterWords? limit words elements).map (Except.map (ofWords limit)) =
      some ((ofWords limit words).enterAll elements) := by
  induction elements generalizing words with
  | nil => rfl
  | cons e rest ih =>
    have hstep := enterWord?_eq hsound.head_ne_zero (hlengths e (List.mem_cons_self ..))
    obtain ⟨result, hresult, hsame⟩ := Option.map_eq_some_iff.mp hstep
    simp only [enterWords?, hresult, Option.bind_eq_bind, Option.bind_some, enterAll_cons, ← hsame]
    cases result with
    | error err => rfl
    | ok next =>
      obtain ⟨hnext, -⟩ := hsound.enter hsame.symm
      exact ih hnext fun e he => hlengths e (List.mem_cons_of_mem _ he)

/-- What a session knows of the containers that are open: of each, the innermost first, how many
items are unread. -/
structure TracksOpen (nesting : Nesting) (p : PartialForest) : Prop where
  pending_eq : nesting.pending = p.unread
  head_ne_zero : nesting.pending.head? ≠ some 0
  depth_eq : nesting.depth = p.depth
  /-- The next element stands in the open containers, and a container is one more itself. -/
  refuses : ∀ e err, nesting.enter e = .error err ↔
    err = .depthLimit ∧ e.isContainer = true ∧ nesting.limit < p.depth + 1

theorem tracksOpen {p : PartialForest} (hlimit : p.height ≤ limit) :
    TracksOpen { pending := p.unread, limit } p := by
  have hdepth : Nesting.depth { pending := p.unread, limit } = p.depth :=
    PartialForest.length_unreadOf
  refine ⟨rfl, PartialForest.unreadOf_head_ne_zero, hdepth, fun e err => ?_⟩
  have hopen := p.depth_le_height
  rw [enter_eq, hdepth]
  cases hcontainer : e.isContainer <;> grind

/-- A row of elements is the listing of exactly one forest, up to the containers that are still
open. A new session lets it pass exactly if no container in it is beyond the limit, and then it
knows of the open ones what is unread. No count leaves the range of a word on the way, as no header
announces more than 32 bits can say. -/
theorem enterAll_tracks_open (limit : Nat) (elements : List Element)
    (hlengths : ∀ e ∈ elements, e.length ≤ maxLength) :
    (∃! p : PartialForest, p.elements = elements) ∧
    (∀ p : PartialForest, p.elements = elements →
      ((∃ nesting, ({ limit } : Nesting).enterAll elements = .ok nesting) ↔ p.height ≤ limit) ∧
      ∀ nesting, ({ limit } : Nesting).enterAll elements = .ok nesting →
        nesting.limit = limit ∧ nesting.TracksOpen p) ∧
    (enterWords? limit [] elements).map (Except.map (ofWords limit)) =
      some (({ limit } : Nesting).enterAll elements) ∧
    ∀ d d' e, Decoder.nextElement d = .ok e d' → e.length ≤ maxLength := by
  obtain ⟨p, helements, hpass⟩ := exists_enterAll_eq elements
  have honly : ∀ q : PartialForest, q.elements = elements → q = p :=
    fun q hq => PartialForest.elements_inj (hq.trans helements.symm)
  refine ⟨⟨p, helements, honly⟩, ?_, enterWords?_eq (sound_empty limit) hlengths, ?_⟩
  · intro q hq
    obtain rfl := honly q hq
    rw [hpass limit]
    by_cases hlimit : q.height ≤ limit
    · rw [if_pos hlimit]
      refine ⟨iff_of_true ⟨_, rfl⟩ hlimit, fun nesting h => ?_⟩
      cases h
      exact ⟨rfl, tracksOpen hlimit⟩
    · rw [if_neg hlimit]
      exact ⟨iff_of_false (by rintro ⟨_, h⟩; cases h) hlimit, fun _ h => nomatch h⟩
  · intro d d' e hread
    obtain ⟨header, hheader⟩ := Decoder.exists_header_of_nextElement hread
    exact hheader.length_le_maxLength

/-- The outer array has its last item under way: its count is 0 beneath that of the inner one, and
both are still open for an empty map. -/
theorem enterAll_tracks_open_last :
    ∃ p : PartialForest, p.elements = [.array 1, .array 2, .nil] ∧ p.unread = [1, 0] ∧
      ({ limit := 2 } : Nesting).enterAll p.elements = .ok { pending := [1, 0], limit := 2 } ∧
      TracksOpen { pending := [1, 0], limit := 2 } p ∧
      Nesting.enter { pending := [1, 0], limit := 2 } (.map 0) = .error .depthLimit := by
  obtain ⟨⟨p, helements, -⟩, hpass, -⟩ :=
    enterAll_tracks_open 2 [.array 1, .array 2, .nil] (by decide)
  obtain ⟨-, htracks⟩ := (hpass p helements).2 { pending := [1, 0], limit := 2 } rfl
  have hroom : 2 < p.depth + 1 := by
    rw [← htracks.depth_eq]
    decide
  exact ⟨p, helements, htracks.pending_eq.symm, helements ▸ rfl, htracks,
    (htracks.refuses (.map 0) .depthLimit).mpr ⟨rfl, rfl, hroom⟩⟩

end Nesting

end MessagePack
