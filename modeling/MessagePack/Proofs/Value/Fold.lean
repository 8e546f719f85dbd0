import MessagePack.Fold
import Mathlib.Tactic.Common

namespace MessagePack

namespace Text

theorem utf8_eq_of_ofUtf8? {bytes : List UInt8} {s : String} (h : ofUtf8? bytes = some s) :
    utf8 s = bytes := by
  unfold ofUtf8? String.fromUTF8? at h
  split at h
  · cases h
    rfl
  · cases h

@[simp] theorem ofUtf8?_utf8 (s : String) : ofUtf8? (utf8 s) = some s := by
  have hvalid : ByteArray.IsValidUTF8 ⟨s.toUTF8.data⟩ := s.isValidUTF8
  unfold ofUtf8? String.fromUTF8? utf8
  simpa [String.fromUTF8] using hvalid

theorem utf8_inj {s s' : String} : utf8 s = utf8 s' ↔ s = s' := by
  refine ⟨fun hsame => ?_, congrArg utf8⟩
  have htext := ofUtf8?_utf8 s
  rw [hsame, ofUtf8?_utf8] at htext
  exact (Option.some.inj htext).symm

end Text

namespace Integer

theorem form_ofUInt64 (n : UInt64) : (ofUInt64 n).form = .unsigned n := by
  have h : ¬(n.toNat : Int) < 0 := by omega
  simp [form, ofUInt64, h]

/-- The number that a form carries. -/
def Form.integer : Form → Integer
  | .unsigned v => .ofUInt64 v
  | .negative v => .ofInt64 v

theorem form_integer (n : Integer) : n.form.integer = n := by
  obtain ⟨val, ge, lt⟩ := n
  by_cases h : val < 0
  · have hval : (Int64.ofInt val).toInt = val := Int64.toInt_ofInt_of_le ge (by omega)
    simp only [form, if_pos h, Form.integer, ofInt64, hval]
  · have hsize : val.toNat < UInt64.size := by simp only [UInt64.size]; omega
    have hval : (UInt64.ofNat val.toNat).toNat = val.toNat := UInt64.toNat_ofNat_of_lt' hsize
    have hback : ((val.toNat : Nat) : Int) = val := Int.toNat_of_nonneg (by omega)
    simp only [form, if_neg h, Form.integer, ofUInt64, hval, hback]

end Integer

namespace Fold

variable {α : Type}

/-- The fold makes the same of a number whether it came signed or unsigned. -/
def SignBlind (f : Fold α) : Prop := ∀ n, f.signed n = f.int (.ofInt64 n)

theorem int_ofUInt64 (f : Fold α) (n : UInt64) : f.int (.ofUInt64 n) = f.unsigned n := by
  rw [int, Integer.form_ofUInt64]

theorem value_int (n : Integer) : value.int n = .int n := by
  have h := n.form_integer
  unfold int
  cases hform : n.form with
  | unsigned v => exact congrArg Value.int (by rw [← h, hform]; rfl)
  | negative v => exact congrArg Value.int (by rw [← h, hform]; rfl)

theorem signBlind_value : value.SignBlind := fun n => (value_int (.ofInt64 n)).symm

theorem signBlind_ignored : ignored.SignBlind := fun _ => rfl

theorem value_raw (bytes : List UInt8) : value.raw bytes = .raw bytes := by
  unfold raw
  split
  · rename_i s hs
    exact congrArg Value.raw (Text.utf8_eq_of_ofUtf8? hs)
  · rfl

end Fold

namespace Value

mutual

/-- Keeping what is said gives the value back. -/
theorem fold_value : (v : Value) → v.fold .value = v
  | nil | bool _ | f32 _ | f64 _ => rfl
  | int n => Fold.value_int n
  | raw bytes => Fold.value_raw bytes
  | array items => congrArg array (foldItems_value items)
  | map entries => congrArg map (foldEntries_value entries)

theorem foldItems_value : (items : List Value) → foldItems .value items = items
  | [] => rfl
  | v :: rest => by rw [foldItems, fold_value v, foldItems_value rest]

theorem foldEntries_value : (entries : List (Value × Value)) →
    foldEntries .value entries = entries
  | [] => rfl
  | (k, v) :: rest => by rw [foldEntries, fold_value k, fold_value v, foldEntries_value rest]

end

end Value

end MessagePack
