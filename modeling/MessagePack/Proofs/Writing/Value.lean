import MessagePack.Proofs.Value.Fold
import MessagePack.Proofs.Value.SpelledBy
import MessagePack.Proofs.Wire.Shortest
import MessagePack.Proofs.Writing.Writes

namespace MessagePack

open Encoding (Writes)
open Value (ItemsSpelledBy EntriesSpelledBy)
open Wire (Element IsHeader maxLength)

namespace Integer

theorem form_ofInt64_of_neg {n : Int64} (h : n.toInt < 0) : (ofInt64 n).form = .negative n := by
  simp [form, ofInt64, h, Int64.ofInt_toInt]

theorem form_ofInt64_of_nonneg {n : Int64} (h : 0 ≤ n.toInt) :
    (ofInt64 n).form = .unsigned n.toUInt64 := by
  have hnat := Wire.toNat_toUInt64_of_nonneg h
  simp [form, ofInt64, Int.not_lt.mpr h, ← hnat]

/-- The element that an integer is written as. -/
def Form.element : Form → Element
  | .unsigned v => .uint v
  | .negative v => .int v

theorem integer_eq_element (config : Config) (n : Integer) :
    Encoder.integer config n = Encoder.element config n.form.element := by
  unfold Encoder.integer
  cases n.form <;> rfl

/-- Only a negative integer has a sign, so its header announces no other form. -/
theorem announced_element (policy : Wire.IntPolicy) (n : Integer) :
    n.form.element.announced policy = n.form.element := by
  unfold form
  split_ifs with hneg
  · have hval : (Int64.ofInt n.val).toInt = n.val := Int64.toInt_ofInt_of_le n.ge (by omega)
    apply if_neg
    rw [hval]
    omega
  · rfl

theorem exists_header (config : Config) (n : Integer) :
    ∃ header, IsHeader n.form.element header ∧ Writes (Encoder.integer config n) header := by
  have hlen : n.form.element.length ≤ maxLength := by
    cases n.form <;> exact Nat.zero_le _
  obtain ⟨header, hheader, hwrites⟩ := Writes.exists_element config hlen
  rw [announced_element] at hheader
  exact ⟨header, hheader, integer_eq_element config n ▸ hwrites⟩

end Integer

namespace Value

mutual

/-- No raw, array or map in the value is longer than a header can announce. -/
def Announceable : Value → Prop
  | raw data => data.length ≤ maxLength
  | array items => items.length ≤ maxLength ∧ ItemsAnnounceable items
  | map entries => entries.length ≤ maxLength ∧ EntriesAnnounceable entries
  | _ => True

def ItemsAnnounceable : List Value → Prop
  | [] => True
  | v :: rest => v.Announceable ∧ ItemsAnnounceable rest

def EntriesAnnounceable : List (Value × Value) → Prop
  | [] => True
  | (k, v) :: rest => k.Announceable ∧ v.Announceable ∧ EntriesAnnounceable rest

end

variable (config : Config)

mutual

/-- What is written for a value spells it. -/
theorem exists_spelling : (v : Value) → v.Announceable →
    ∃ bytes, v.SpelledBy bytes ∧ Writes (Encoder.value config v) bytes
  | nil, _ => by
    obtain ⟨header, hheader, hwrites⟩ := Writes.exists_element config (e := .nil) (Nat.zero_le _)
    exact ⟨header, .nil hheader, hwrites⟩
  | bool b, _ => by
    obtain ⟨header, hheader, hwrites⟩ :=
      Writes.exists_element config (e := .bool b) (Nat.zero_le _)
    exact ⟨header, .bool hheader, hwrites⟩
  | int n, _ => by
    obtain ⟨header, hheader, hwrites⟩ := n.exists_header config
    refine ⟨header, ?_, hwrites⟩
    have hback := n.form_integer
    cases hform : n.form with
    | unsigned v =>
      rw [hform] at hheader hback
      have hspelled := SpelledBy.uint hheader
      rwa [show ofUInt64 v = int n from congrArg int hback] at hspelled
    | negative v =>
      rw [hform] at hheader hback
      have hspelled := SpelledBy.int hheader
      rwa [show ofInt64 v = int n from congrArg int hback] at hspelled
  | f32 bits, _ => by
    obtain ⟨header, hheader, hwrites⟩ :=
      Writes.exists_element config (e := .f32 bits) (Nat.zero_le _)
    exact ⟨header, .f32 hheader, hwrites⟩
  | f64 bits, _ => by
    obtain ⟨header, hheader, hwrites⟩ :=
      Writes.exists_element config (e := .f64 bits) (Nat.zero_le _)
    exact ⟨header, .f64 hheader, hwrites⟩
  | raw data, h => by
    obtain ⟨header, hheader, hwrites⟩ := Writes.exists_bytes config h
    exact ⟨header ++ data, .raw hheader, hwrites⟩
  | array items, h => by
    obtain ⟨header, hheader, hwrites⟩ :=
      Writes.exists_element config (e := .array items.length) h.1
    obtain ⟨body, hitems, hwrites'⟩ := exists_items_spelling items h.2
    exact ⟨header ++ body, .array hheader hitems, hwrites.bind hwrites'⟩
  | map entries, h => by
    obtain ⟨header, hheader, hwrites⟩ :=
      Writes.exists_element config (e := .map entries.length) h.1
    obtain ⟨body, hentries, hwrites'⟩ := exists_entries_spelling entries h.2
    exact ⟨header ++ body, .map hheader hentries, hwrites.bind hwrites'⟩

theorem exists_items_spelling : (items : List Value) → ItemsAnnounceable items →
    ∃ bytes, ItemsSpelledBy items bytes ∧ Writes (Encoder.values config items) bytes
  | [], _ => ⟨[], .nil, .nothing⟩
  | v :: rest, h => by
    obtain ⟨bytes, hv, hwrites⟩ := exists_spelling v h.1
    obtain ⟨body, hrest, hwrites'⟩ := exists_items_spelling rest h.2
    exact ⟨bytes ++ body, .cons hv hrest, hwrites.bind hwrites'⟩

theorem exists_entries_spelling : (entries : List (Value × Value)) → EntriesAnnounceable entries →
    ∃ bytes, EntriesSpelledBy entries bytes ∧ Writes (Encoder.valuePairs config entries) bytes
  | [], _ => ⟨[], .nil, .nothing⟩
  | (k, v) :: rest, h => by
    obtain ⟨first, hk, hwrites⟩ := exists_spelling k h.1
    obtain ⟨second, hv, hwrites'⟩ := exists_spelling v h.2.1
    obtain ⟨body, hrest, hwrites''⟩ := exists_entries_spelling rest h.2.2
    exact ⟨first ++ (second ++ body), .cons hk hv hrest, hwrites.bind (hwrites'.bind hwrites'')⟩

end

end Value

namespace Encoder

variable {config : Config} {sink sink' : Sink}

/-- Of two encodings that come out well in a row each does. -/
theorem exists_mid {first second : Encoding Unit}
    (h : (first >>= fun _ => second) sink = .ok () sink') :
    ∃ mid, first sink = .ok () mid ∧ second mid = .ok () sink' := by
  simp only [bind, EStateM.bind] at h
  cases hfirst : first sink with
  | ok _ mid =>
    rw [hfirst] at h
    exact ⟨mid, rfl, h⟩
  | error e mid =>
    rw [hfirst] at h
    cases h

theorem length_le_of_element {e : Element} (h : element config e sink = .ok () sink') :
    e.length ≤ maxLength := by
  unfold element at h
  cases hheader : e.header? config.intPolicy with
  | none =>
    rw [hheader] at h
    cases h
  | some header =>
    have hlen := (Wire.isHeader_header? hheader).length_le_maxLength
    cases e with
    | int v => exact Nat.zero_le _
    | _ => exact hlen

mutual

/-- Whatever is written is no longer than headers can announce. -/
theorem announceable_of_value : (v : Value) → {sink sink' : Sink} →
    value config v sink = .ok () sink' → v.Announceable
  | .nil, _, _, _ | .bool _, _, _, _ | .int _, _, _, _
  | .f32 _, _, _, _ | .f64 _, _, _, _ => trivial
  | .raw data, _, _, h => by
    obtain ⟨mid, hheader, -⟩ := exists_mid h
    exact length_le_of_element hheader
  | .array items, _, _, h => by
    obtain ⟨mid, hheader, hitems⟩ := exists_mid h
    exact ⟨length_le_of_element hheader, announceable_of_values items hitems⟩
  | .map entries, _, _, h => by
    obtain ⟨mid, hheader, hentries⟩ := exists_mid h
    exact ⟨length_le_of_element hheader, announceable_of_valuePairs entries hentries⟩

theorem announceable_of_values : (items : List Value) → {sink sink' : Sink} →
    values config items sink = .ok () sink' → Value.ItemsAnnounceable items
  | [], _, _, _ => trivial
  | v :: rest, _, _, h => by
    obtain ⟨mid, hv, hrest⟩ := exists_mid h
    exact ⟨announceable_of_value v hv, announceable_of_values rest hrest⟩

theorem announceable_of_valuePairs : (entries : List (Value × Value)) → {sink sink' : Sink} →
    valuePairs config entries sink = .ok () sink' → Value.EntriesAnnounceable entries
  | [], _, _, _ => trivial
  | (k, v) :: rest, _, _, h => by
    obtain ⟨mid, hk, hmid⟩ := exists_mid h
    obtain ⟨last, hv, hrest⟩ := exists_mid hmid
    exact ⟨announceable_of_value k hk, announceable_of_value v hv,
      announceable_of_valuePairs rest hrest⟩

end

end Encoder

/-- Whatever is written of a value spells it. -/
theorem Value.spelledBy_of_buffered {config : Config} {v : Value} {bytes : List UInt8}
    (h : Encoder.buffered (Encoder.value config v) = .ok bytes) : v.SpelledBy bytes := by
  have hannounceable : v.Announceable := by
    unfold Encoder.buffered at h
    split at h
    · rename_i hvalue
      exact Encoder.announceable_of_value v hvalue
    · cases h
  obtain ⟨written, hspelled, hwrites⟩ := v.exists_spelling config hannounceable
  obtain rfl := Except.ok.inj (hwrites.buffered.symm.trans h)
  exact hspelled

end MessagePack
