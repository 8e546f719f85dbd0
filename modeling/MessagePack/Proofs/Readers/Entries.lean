import MessagePack.Input.FieldReader
import MessagePack.Proofs.Readers.Items

namespace MessagePack

open Decoding

variable {α β : Type}

namespace Entries

/-- How the key of each entry is come to, and where its value is read. -/
def pairs : Entries → List (Decoding Input × Input)
  | wire left _ fields => List.replicate left (key fields, .wire)
  | tree _ rest => rest.map fun entry => (pure (.tree entry.1), .tree entry.2)
  | tokens _ rest => rest.map fun entry => (pure (.token entry.1), .token entry.2)

/-- The entries after the first one. -/
def tail : Entries → Entries
  | wire left total fields => wire (left - 1) total fields
  | tree taken (_ :: rest) => tree (taken + 1) rest
  | tokens hint (_ :: rest) => tokens (hint.map (· - 1)) rest
  | entries => entries

/-- The entries that are left after the next so many. -/
def skip : Nat → Entries → Entries
  | 0, entries => entries
  | n + 1, entries => entries.tail.skip n

variable (entries : Entries)

theorem length_pairs : entries.pairs.length = entries.left := by
  cases entries <;> simp [pairs, left]

theorem next_cases : entries.next = pure none ∧ entries.pairs = [] ∨
    ∃ key value, entries.pairs = (key, value) :: entries.tail.pairs ∧
      entries.next = key >>= fun input => pure (some (input, value, entries.tail)) := by
  cases entries with
  | wire left total fields =>
    cases left with
    | zero => exact .inl ⟨rfl, rfl⟩
    | succ left => exact .inr ⟨key fields, .wire, rfl, rfl⟩
  | tree taken rest =>
    cases rest with
    | nil => exact .inl ⟨rfl, rfl⟩
    | cons entry rest => exact .inr ⟨_, .tree entry.2, rfl, rfl⟩
  | tokens hint rest =>
    cases rest with
    | nil => exact .inl ⟨rfl, rfl⟩
    | cons entry rest => exact .inr ⟨_, .token entry.2, rfl, rfl⟩

variable {entries} in
theorem tail_of_pairs_nil (h : entries.pairs = []) : entries.tail = entries := by
  cases entries with
  | wire left total fields =>
    obtain rfl : left = 0 := by simpa [pairs] using h
    rfl
  | tree taken rest | tokens hint rest =>
    obtain rfl : rest = [] := by simpa [pairs] using h
    rfl

theorem pairs_tail : entries.tail.pairs = entries.pairs.tail := by
  rcases entries.next_cases with ⟨-, hnone⟩ | ⟨key, value, hsome, -⟩
  · rw [tail_of_pairs_nil hnone, hnone, List.tail_nil]
  · rw [hsome, List.tail_cons]

theorem pairs_skip (n : Nat) : (entries.skip n).pairs = entries.pairs.drop n := by
  induction n generalizing entries with
  | zero => rfl
  | succ n ih => rw [skip, ih, pairs_tail, List.drop_tail]

theorem skip_of_pairs_nil {entries : Entries} (h : entries.pairs = []) (n : Nat) :
    entries.skip n = entries := by
  induction n with
  | zero => rfl
  | succ n ih => rw [skip, tail_of_pairs_nil h, ih]

theorem skip_wire (n left total : Nat) (fields : Option Fields) :
    (wire left total fields).skip n = wire (left - n) total fields := by
  induction n generalizing left with
  | zero => rfl
  | succ n ih => rw [skip, tail, ih, Nat.sub_sub, Nat.add_comm]

theorem finish_immediate : entries.finish.Immediate := by
  unfold finish
  split <;> first | exact .pure () | exact .throw rfl

variable {entries} in
theorem finish_of_pairs_nil (h : entries.pairs = []) : entries.finish = pure () := by
  cases entries with
  | wire left total fields =>
    obtain rfl : left = 0 := by simpa [pairs] using h
    rfl
  | tree taken rest =>
    obtain rfl : rest = [] := by simpa [pairs] using h
    rfl
  | tokens hint rest => rfl

theorem finish_skip_left : (entries.skip entries.left).finish = pure () := by
  refine finish_of_pairs_nil ?_
  rw [pairs_skip, ← length_pairs, List.drop_length]

/-- Entries of the session that are left over are refused. -/
theorem finish_skip_wire_of_lt {n left : Nat} (h : n < left) (total : Nat)
    (fields : Option Fields) :
    ∃ e : Error, ((wire left total fields).skip n).finish = throw e := by
  obtain ⟨k, hk⟩ : ∃ k, left - n = k + 1 := ⟨left - n - 1, by omega⟩
  rw [skip_wire, hk]
  exact ⟨_, rfl⟩

/-- Reads an entry whose key is come to in the first way and whose value is in the second place. -/
def readEntry (key : Reader α) (value : Reader β) (pair : Decoding Input × Input) :
    Decoding (α × β) := do
  let k ← pair.1 >>= key
  let v ← value pair.2
  return (k, v)

variable (key : Reader α) (value : Reader β)

theorem readUpTo_eq (done : List (α × β)) (count : Nat) :
    entries.readUpTo key value done count =
      (entries.pairs.take count).mapM (readEntry key value) >>= fun list =>
        pure (done.reverse ++ list, entries.skip count) := by
  induction count generalizing entries done with
  | zero => simp [readUpTo, skip]
  | succ count ih =>
    rw [readUpTo]
    rcases entries.next_cases with ⟨hnext, hnone⟩ | ⟨_, _, hsome, hnext⟩
    · simp [hnext, hnone, skip_of_pairs_nil hnone]
    · simp [hnext, hsome, ih, skip, readEntry]

/-- Part of a map is read by reading its entries, and then there must be none left. -/
theorem readPart_eq (count : Nat) : entries.readPart count key value =
    (entries.pairs.take count).mapM (readEntry key value) >>= fun list =>
      (entries.skip (min count entries.left)).finish >>= fun _ => pure list := by
  have htake : entries.pairs.take (min count entries.left) = entries.pairs.take count := by
    rw [← length_pairs, ← List.take_eq_take_min]
  rw [readPart, readUpTo_eq, htake, bind_assoc]
  simp only [pure_bind, List.reverse_nil, List.nil_append]

variable {entries key value} in
/-- Part of a map is all of it where there is no more. -/
theorem readPart_of_le {count : Nat} (h : entries.left ≤ count) :
    entries.readPart count key value = entries.readAll key value := by
  rw [readAll, readPart, readPart, Nat.min_self, Nat.min_eq_right h]

theorem readAll_eq : entries.readAll key value = entries.pairs.mapM (readEntry key value) := by
  have htake : entries.pairs.take entries.left = entries.pairs := by
    rw [← length_pairs, List.take_length]
  rw [readAll, readPart_eq, htake, Nat.min_self]
  simp only [finish_skip_left, pure_bind, bind_pure]

end Entries

namespace FieldReader

/-- Reads an entry into the slot of its field. -/
def fillSlot (keys : Choices (Option (Nat × FieldReader))) (slots : List (Option Item))
    (pair : Decoding Input × Input) : Decoding (List (Option Item)) := do
  match ← pair.1 >>= keys.read with
  | none =>
    pair.2.fold .ignored
    return slots
  | some (slot, field) =>
    if (slots.getD slot none).isSome then throw (.rejected (.duplicateField field.name))
    let item ← field.read pair.2
    return slots.set slot (some item)

theorem fillSlots_eq (keys : Choices (Option (Nat × FieldReader))) (count : Nat)
    (entries : Entries) (slots : List (Option Item)) :
    fillSlots keys count entries slots =
      (entries.pairs.take count).foldlM (fillSlot keys) slots >>= fun slots =>
        pure (slots, entries.skip count) := by
  induction count generalizing entries slots with
  | zero => simp [fillSlots, Entries.skip]
  | succ count ih =>
    rw [fillSlots]
    rcases entries.next_cases with ⟨hnext, hnone⟩ | ⟨key, value, hsome, hnext⟩
    · simp [hnext, hnone, Entries.skip_of_pairs_nil hnone]
    · rw [hnext, hsome, List.take_succ_cons, List.foldlM_cons, fillSlot]
      simp only [bind_assoc, pure_bind, Entries.skip]
      congr 1
      funext input
      congr 1
      funext chosen
      cases chosen with
      | none => simp only [bind_assoc, pure_bind, ih]
      | some chosen =>
        dsimp only
        split
        · rfl
        · simp only [bind_assoc, pure_bind, ih]

/-- The fields of a map are read entry by entry, and what is wanting is found out at the end. -/
theorem readEntries_eq (fields : List FieldReader) (strict : Bool) (entries : Entries) :
    readEntries fields strict entries =
      entries.pairs.foldlM (fillSlot (keys fields strict)) (List.replicate fields.length none) >>=
        fun slots => .ofExcept (collect fields slots) := by
  have htake : entries.pairs.take entries.left = entries.pairs := by
    rw [← Entries.length_pairs, List.take_length]
  rw [readEntries, fillSlots_eq, htake, bind_assoc]
  simp only [pure_bind, Entries.finish_skip_left, bind_pure]

end FieldReader

end MessagePack
