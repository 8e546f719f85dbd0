import MessagePack.Decoder.Fold
import MessagePack.Decoder.Offer
import MessagePack.Proofs.Session.Steps

namespace MessagePack

open Decoding
open Wire (Element Marker)

variable {α : Type}

namespace Decoder

/-- A step that has nothing to do with the source and with the tables. -/
def inside (step : Nesting → Option UInt8 → Except Error α × Nesting × Option UInt8) :
    Decoding α := fun d =>
  match step d.nesting d.peeked with
  | (.ok a, nesting, peeked) => .ok a { d with nesting, peeked }
  | (.error e, nesting, peeked) => .error e { d with nesting, peeked }

/-- How deep containers may nest. -/
def limit : Decoding Nat := inside fun nesting peeked => (.ok nesting.limit, nesting, peeked)

/-- The tag that has been looked at. -/
def tagSeen : Decoding (Option UInt8) := inside fun nesting peeked => (.ok peeked, nesting, peeked)

def see (tag? : Option UInt8) : Decoding Unit := inside fun nesting _ => (.ok (), nesting, tag?)

theorem peekTag_eq : peekTag = tagSeen >>= fun tag? => match tag? with
    | some tag => pure tag
    | none => exactly .tag 1 >>= fun bytes => see (some (bytes.headD 0)) >>= fun _ =>
      pure (bytes.headD 0) := by
  rfl

/-- The element of a tag that has been taken, once its field has been read. -/
def elementAfter (tag : UInt8) : Decoding Element :=
  field (.ofByte tag) >>= fun n => match Element.ofField n (.ofByte tag) with
    | none => throw (.malformed (.unknownTag tag))
    | some e => enter e >>= fun _ => pure e

theorem nextElement_eq :
    nextElement = peekTag >>= fun tag => see none >>= fun _ => elementAfter tag := rfl

variable {d d' : Decoder}

/-- A tag that has been looked at is seen again. -/
theorem peekTag_again {tag : UInt8} (h : peekTag d = .ok tag d') : peekTag d' = .ok tag d' := by
  obtain ⟨source, nesting, peeked, tables⟩ := d
  cases peeked with
  | some seen =>
    obtain ⟨rfl, rfl⟩ := pure_eq_ok_iff.mp h
    rfl
  | none =>
    rw [peekTag, get_bind] at h
    obtain ⟨bytes, mid, -, hrest⟩ := bind_eq_ok_iff.mp h
    rw [modify_bind] at hrest
    obtain ⟨rfl, rfl⟩ := pure_eq_ok_iff.mp hrest
    rfl

/-- After the tag of a raw only what follows a raw matters. -/
theorem elementAfter_bind_congr {tag : UInt8} (hraw : (Marker.ofByte tag).isRaw = true)
    {next next' : Element → Decoding α} (h : ∀ len, next (.raw len) = next' (.raw len)) :
    elementAfter tag >>= next = elementAfter tag >>= next' := by
  rw [elementAfter, bind_assoc, bind_assoc]
  congr 1
  funext n
  split
  · rfl
  · rename_i e he
    obtain ⟨len, rfl⟩ := Wire.Element.eq_raw_of_ofField hraw he
    simp only [bind_assoc, pure_bind, h]

/-- Looking at the next tag changes nothing about the element that is read then. -/
theorem peekMarker_nextElement {next next' : Element → Decoding α}
    (h : ∀ len, next (.raw len) = next' (.raw len)) :
    (peekMarker >>= fun marker =>
      if marker.isRaw then nextElement >>= next else nextElement >>= next') =
        nextElement >>= next' := by
  funext d
  simp only [peekMarker, nextElement_eq, bind_assoc, pure_bind]
  cases hpeek : peekTag d with
  | error e mid => simp only [bind, EStateM.bind, hpeek]
  | ok tag mid =>
    have hagain := peekTag_again hpeek
    rw [bind_of_ok hpeek, bind_of_ok hpeek]
    split
    · rename_i hraw
      rw [bind_of_ok hagain, elementAfter_bind_congr hraw h]
    · rw [bind_of_ok hagain]

/-- What the session offers for an option that begins with this tag. -/
def optionAt : Marker → Decoding Offer
  | .nil => nextElement >>= fun _ => pure .absent
  | _ => pure (.present .wire)

theorem offer_option : offer .option = peekMarker >>= optionAt := by
  rw [offer]
  rfl

theorem optionAt_of_ne {marker : Marker} (h : marker ≠ .nil) :
    optionAt marker = pure (.present .wire) := by
  cases marker <;> first | rfl | exact absurd rfl h

/-- Behind the tag of a nil there is no field to be read. -/
theorem elementAfter_nil {tag : UInt8} (h : Marker.ofByte tag = .nil) :
    elementAfter tag = enter .nil >>= fun _ => pure .nil := by
  rw [elementAfter, h]
  rfl

/-- An option whose tag is that of a nil is read as a nil. -/
theorem offer_option_nil : offer .option = peekMarker >>= fun marker =>
    if marker = .nil then nil >>= fun _ => pure .absent else pure (.present .wire) := by
  rw [offer_option]
  funext d
  simp only [peekMarker, bind_assoc, pure_bind]
  cases hpeek : peekTag d with
  | error e mid => rw [bind_of_error hpeek, bind_of_error hpeek]
  | ok tag mid =>
    have hagain := peekTag_again hpeek
    rw [bind_of_ok hpeek, bind_of_ok hpeek]
    by_cases hnil : Marker.ofByte tag = .nil
    · rw [if_pos hnil, hnil, optionAt, nil, nextElement_eq]
      simp only [bind_assoc]
      rw [bind_of_ok hagain, bind_of_ok hagain, elementAfter_nil hnil]
      simp only [bind_assoc, pure_bind]
    · rw [if_neg hnil, optionAt_of_ne hnil]

theorem exactly_nesting {step : Step} {count : Nat} {bytes : List UInt8}
    (h : exactly step count d = .ok bytes d') : d'.nesting = d.nesting := by
  unfold exactly at h
  split at h <;> cases h
  rfl

theorem peekTag_nesting {tag : UInt8} (h : peekTag d = .ok tag d') : d'.nesting = d.nesting := by
  obtain ⟨source, nesting, peeked, tables⟩ := d
  cases peeked with
  | some seen =>
    obtain ⟨-, rfl⟩ := pure_eq_ok_iff.mp h
    rfl
  | none =>
    rw [peekTag, get_bind] at h
    obtain ⟨bytes, mid, hread, hrest⟩ := bind_eq_ok_iff.mp h
    rw [modify_bind] at hrest
    obtain ⟨-, rfl⟩ := pure_eq_ok_iff.mp hrest
    have hsame := exactly_nesting hread
    exact hsame

theorem field_nesting {marker : Marker} {n : Nat} (h : field marker d = .ok n d') :
    d'.nesting = d.nesting := by
  unfold field at h
  split at h
  · obtain ⟨-, rfl⟩ := pure_eq_ok_iff.mp h
    rfl
  · obtain ⟨bytes, mid, hread, hpure⟩ := bind_eq_ok_iff.mp h
    obtain ⟨-, rfl⟩ := pure_eq_ok_iff.mp hpure
    exact exactly_nesting hread

theorem enter_limit {e : Element} (h : enter e d = .ok () d') :
    d'.nesting.limit = d.nesting.limit := by
  unfold enter at h
  split at h <;> cases h
  rename_i nesting hnesting
  simp only [Nesting.enter] at hnesting
  split at hnesting <;> cases hnesting
  rfl

/-- An element never moves the limit for the nesting of containers. -/
theorem nextElement_limit {e : Element} (h : nextElement d = .ok e d') :
    d'.nesting.limit = d.nesting.limit := by
  rw [nextElement_eq] at h
  obtain ⟨tag, mid, hpeek, hrest⟩ := bind_eq_ok_iff.mp h
  obtain ⟨_, seen, hsee, helement⟩ := bind_eq_ok_iff.mp hrest
  obtain ⟨n, last, hfield, hlast⟩ := bind_eq_ok_iff.mp helement
  cases hsee
  have hlimit : last.nesting.limit = d.nesting.limit := by
    rw [field_nesting hfield, ← peekTag_nesting hpeek]
  cases hmade : Element.ofField n (.ofByte tag) with
  | none =>
    simp only [hmade] at hlast
    exact absurd hlast throw_ne_ok
  | some element =>
    simp only [hmade] at hlast
    obtain ⟨_, after, henter, hpure⟩ := bind_eq_ok_iff.mp hlast
    obtain ⟨-, rfl⟩ := pure_eq_ok_iff.mp hpure
    rw [enter_limit henter, hlimit]

/-- It does not matter whether the limit is looked at before the next element or after it. -/
theorem nextElement_limit_bind (next : Nat → Element → Decoding α) :
    (limit >>= fun levels => nextElement >>= next levels) =
      nextElement >>= fun e => limit >>= fun levels => next levels e := by
  funext d
  change (nextElement >>= next d.nesting.limit) d = _
  cases h : nextElement d with
  | error e mid => simp only [bind, EStateM.bind, h]
  | ok e mid =>
    rw [bind_of_ok h, bind_of_ok h, ← nextElement_limit h]
    rfl

/-- A reading that is repeated is one reading after the other. -/
theorem replicate_eq (count : Nat) (one : Decoding α) :
    replicate count one = (List.replicate count one).mapM id := by
  have hfrom (done : List α) : repeatFrom one done count =
      (List.replicate count one).mapM id >>= fun list => pure (done.reverse ++ list) := by
    induction count generalizing done with
    | zero => simp [repeatFrom]
    | succ count ih => simp [repeatFrom, ih, List.replicate_succ]
  simp [replicate, hfrom]

/-- What is inside an element, folded at most so many levels down. -/
def foldInside (f : Fold α) (levels : Nat) : Element → Decoding α
  | .nil => pure f.unit
  | .bool b => pure (f.bool b)
  | .uint n => pure (f.unsigned n)
  | .int n => pure (f.signed n)
  | .f32 bits => pure (f.f32 bits)
  | .f64 bits => pure (f.f64 bits)
  | .raw len => do return f.raw (← payload len)
  | .array len => do return f.seq len (← replicate len (foldLevels f levels))
  | .map len => do
    return f.map len (← replicate len do
      let k ← foldLevels f levels
      let v ← foldLevels f levels
      return (k, v))

theorem foldLevels_succ (f : Fold α) (levels : Nat) :
    foldLevels f (levels + 1) = nextElement >>= foldInside f levels := by
  rw [foldLevels]
  congr 1

theorem fold_eq (f : Fold α) : fold f = limit >>= fun levels => foldLevels f (levels + 1) := rfl

end Decoder

end MessagePack
