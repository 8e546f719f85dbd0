import MessagePack.Proofs.Readers.Immediate

namespace MessagePack

variable {α : Type}

open Decoding

theorem zip_replicate_length {X Y : Type} (xs : List X) (y : Y) :
    xs.zip (List.replicate xs.length y) = xs.map fun x => (x, y) := by
  induction xs with
  | nil => rfl
  | cons x xs ih =>
    rw [List.length_cons, List.replicate_succ, List.zip_cons_cons, ih, List.map_cons]

namespace Items

/-- Where the items are read, one after the other. -/
def inputs : Items → List Input
  | wire left _ => List.replicate left .wire
  | tree _ rest => rest.map .tree
  | bytes _ rest => rest.map fun b => .token (.unsigned b.toUInt64)
  | tokens _ rest => rest.map .token

/-- The items that are left after the next so many. -/
def skip : Nat → Items → Items
  | 0, items => items
  | n + 1, items =>
    match items.next with
    | none => items
    | some (_, rest) => rest.skip n

variable (items : Items)

theorem length_inputs : items.inputs.length = items.left := by
  cases items <;> simp [inputs, left]

theorem next_cases : items.next = none ∧ items.inputs = [] ∨
    ∃ input rest, items.next = some (input, rest) ∧ items.inputs = input :: rest.inputs := by
  cases items with
  | wire left total =>
    cases left with
    | zero => exact .inl ⟨rfl, rfl⟩
    | succ left => exact .inr ⟨.wire, wire left total, rfl, rfl⟩
  | tree taken rest =>
    cases rest with
    | nil => exact .inl ⟨rfl, rfl⟩
    | cons v rest => exact .inr ⟨_, tree (taken + 1) rest, rfl, rfl⟩
  | bytes taken rest =>
    cases rest with
    | nil => exact .inl ⟨rfl, rfl⟩
    | cons b rest => exact .inr ⟨_, bytes (taken + 1) rest, rfl, rfl⟩
  | tokens hint rest =>
    cases rest with
    | nil => exact .inl ⟨rfl, rfl⟩
    | cons t rest => exact .inr ⟨_, tokens (hint.map (· - 1)) rest, rfl, rfl⟩

theorem inputs_skip (n : Nat) : (items.skip n).inputs = items.inputs.drop n := by
  induction n generalizing items with
  | zero => rfl
  | succ n ih =>
    rw [skip]
    rcases items.next_cases with ⟨hnext, hnone⟩ | ⟨input, rest, hnext, hsome⟩
    · rw [hnext, hnone, List.drop_nil]
    · rw [hnext, hsome, List.drop_succ_cons]
      exact ih rest

theorem finish_immediate : items.finish.Immediate := by
  unfold finish
  split <;> first | exact .pure () | exact .throw rfl

variable {items} in
theorem finish_of_inputs_nil (h : items.inputs = []) : items.finish = pure () := by
  cases items with
  | wire left total =>
    obtain rfl : left = 0 := by simpa [inputs] using h
    rfl
  | tree taken rest | bytes taken rest =>
    obtain rfl : rest = [] := by simpa [inputs] using h
    rfl
  | tokens hint rest => rfl

/-- Items are read up to a number by reading from one place after the other. -/
theorem readUpTo_eq (one : Reader α) (done : List α) (count : Nat) :
    items.readUpTo one done count = (items.inputs.take count).mapM one >>= fun list =>
      pure (done.reverse ++ list, items.skip count) := by
  induction count generalizing items done with
  | zero => simp [readUpTo, skip]
  | succ count ih =>
    rw [readUpTo, skip]
    rcases items.next_cases with ⟨hnext, hnone⟩ | ⟨input, rest, hnext, hsome⟩
    · simp [hnext, hnone]
    · simp [hnext, hsome, ih]

theorem finish_skip_left : (items.skip items.left).finish = pure () := by
  refine finish_of_inputs_nil ?_
  rw [inputs_skip, ← length_inputs, List.drop_length]

/-- Every item is read, and then there is nothing left to be finished. -/
theorem readAll_eq (one : Reader α) : items.readAll one = items.inputs.mapM one := by
  have htake : items.inputs.take items.left = items.inputs := by
    rw [← length_inputs, List.take_length]
  rw [readAll, readUpTo_eq, htake]
  simp only [bind_assoc, pure_bind, finish_skip_left, List.reverse_nil, List.nil_append, bind_pure]

/-- A tuple is refused with too few items as soon as one is wanting, and with too many at its
end. -/
def close (expected : String) (count : Nat) : Decoding Unit :=
  if items.left < count then throw (.invalidLength items.left expected)
  else (items.skip count).finish

theorem close_immediate (expected : String) (count : Nat) :
    (items.close expected count).Immediate := by
  unfold close
  split
  · exact .throw rfl
  · exact finish_immediate _

variable {items} in
theorem close_of_left_eq {expected : String} {count : Nat} (h : items.left = count) :
    items.close expected count = pure () := by
  rw [close, if_neg (by omega), ← h, finish_skip_left]

/-- The items are tokens, which nobody minds if they are not all taken. -/
def areTokens : Items → Bool
  | tokens .. => true
  | _ => false

theorem areTokens_skip (n : Nat) : (items.skip n).areTokens = items.areTokens := by
  induction n generalizing items with
  | zero => rfl
  | succ n ih =>
    rw [skip]
    cases hnext : items.next with
    | none => rfl
    | some next =>
      rw [ih]
      unfold Items.next at hnext
      split at hnext <;> cases hnext <;> rfl

variable {items} in
theorem close_of_left_ne (h : items.areTokens = false) {expected : String} {count : Nat}
    (hleft : items.left ≠ count) :
    ∃ e : Error, items.close expected count = throw e := by
  unfold close
  split
  · exact ⟨_, rfl⟩
  · have hrest : (items.skip count).left ≠ 0 := by
      rw [← length_inputs, inputs_skip, List.length_drop, length_inputs]
      omega
    have hkind := items.areTokens_skip count
    rw [h] at hkind
    generalize items.skip count = rest at hrest hkind
    cases rest with
    | wire left total =>
      cases left with
      | zero => exact absurd rfl hrest
      | succ left => exact ⟨_, rfl⟩
    | tree taken rest | bytes taken rest =>
      cases rest with
      | nil => exact absurd rfl hrest
      | cons first rest => exact ⟨_, rfl⟩
    | tokens hint rest => cases hkind

theorem readEach_eq (short : Nat → Error) (count : Nat) (readers : List (Reader α)) :
    items.readEach short count readers =
      (readers.zip items.inputs).mapM (fun pair => pair.1 pair.2) >>= fun list =>
        if items.left < readers.length then throw (short (count + items.left))
        else pure (list, items.skip readers.length) := by
  induction readers generalizing items count with
  | nil => simp [readEach, skip]
  | cons one readers ih =>
    rw [readEach, ← length_inputs]
    rcases items.next_cases with ⟨hnext, hnone⟩ | ⟨input, rest, hnext, hsome⟩
    · simp [hnext, hnone]
    · have hcount : count + 1 + rest.left = count + (rest.left + 1) := by omega
      simp only [hnext, hsome, ih, List.zip_cons_cons, List.mapM_cons, List.length_cons, skip,
        bind_assoc, pure_bind, length_inputs, hcount, Nat.add_lt_add_iff_right]
      congr 1
      funext a
      congr 1
      funext list
      split <;> rfl

/-- A tuple is read by reading an item for each of its parts. -/
theorem readTuple_eq (expected : String) (readers : List (Reader α)) :
    items.readTuple expected readers =
      (readers.zip items.inputs).mapM (fun pair => pair.1 pair.2) >>= fun list =>
        items.close expected readers.length >>= fun _ => pure list := by
  rw [readTuple, readEach_eq, bind_assoc]
  congr 1
  funext list
  rw [close, Nat.zero_add]
  split <;> rfl

/-- From an array with as many items, a tuple is read item by item. -/
theorem readTuple_wire {expected : String} {readers : List (Reader α)} {n : Nat}
    (h : n = readers.length) (total : Nat) :
    (wire n total).readTuple expected readers = readers.mapM fun one => one .wire := by
  have hleft : (wire n total).left = readers.length := h
  rw [readTuple_eq, close_of_left_eq hleft, inputs, h, zip_replicate_length, List.mapM_map]
  simp only [pure_bind, bind_pure]
  rfl

end Items

end MessagePack
