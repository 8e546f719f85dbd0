import MessagePack.Fields
import MessagePack.Proofs.Value.Fold

namespace MessagePack

section

variable {α : Type} (table : List (String × α))

/-- An entry is found under its own name, unless there was one before, and hides no other. -/
theorem lookup_enterNew (entry : String × α) (name : String) :
    (enterNew table entry).lookup name = (table.lookup name).or ([entry].lookup name) := by
  obtain ⟨own, a⟩ := entry
  by_cases hname : name = own
  · subst hname
    cases htaken : table.lookup name <;> simp [enterNew, htaken]
  · have hother : (name == own) = false := beq_eq_false_iff_ne.mpr hname
    have hnone : [(own, a)].lookup name = none := by simp [hname]
    rw [hnone, Option.or_none]
    unfold enterNew
    split
    · rfl
    · rw [List.lookup_cons, hother]

/-- Of all entries under a name the first stays. -/
theorem lookup_foldl_enterNew (entries : List (String × α)) (name : String) :
    (entries.foldl enterNew table).lookup name =
      (table.lookup name).or (entries.lookup name) := by
  induction entries generalizing table with
  | nil => simp
  | cons entry rest ih =>
    rw [List.foldl_cons, ih, lookup_enterNew, Option.or_assoc, ← List.lookup_append,
      List.singleton_append]

end

namespace Fields

theorem lookup_zipIdx (names : List String) (first : Nat) (name : String) :
    (names.zipIdx first).lookup name = (names.idxOf? name).map (· + first) := by
  induction names generalizing first with
  | nil => rfl
  | cons own rest ih =>
    rw [List.zipIdx_cons, List.lookup_cons, List.idxOf?_cons]
    by_cases hname : own = name
    · simp [hname]
    · have hother : (name == own) = false := beq_eq_false_iff_ne.mpr (Ne.symm hname)
      have hahead : (own == name) = false := beq_eq_false_iff_ne.mpr hname
      simp only [hother, hahead, ih, Bool.false_eq_true, if_false, Option.map_map]
      congr 1
      funext i
      simp only [Function.comp_apply]
      omega

variable {fields : Fields} {key : List UInt8} {i : Nat}

/-- A table is determined by its names. -/
theorem eq_ofNames (fields : Fields) : fields = ofNames fields.names := by
  obtain ⟨names, index, longest, rfl, rfl⟩ := fields
  rfl

theorem lookup_index (fields : Fields) (name : String) :
    fields.index.lookup name = fields.names.idxOf? name := by
  rw [index_eq, lookup_foldl_enterNew, List.lookup_nil, Option.none_or, lookup_zipIdx]
  exact Option.map_id'

/-- Fields are told apart by the bytes of their names. -/
theorem position?_eq (fields : Fields) (key : List UInt8) :
    fields.position? key = (fields.names.map Text.utf8).idxOf? key := by
  unfold position?
  cases htext : Text.ofUtf8? key with
  | none =>
    have hmem : key ∉ fields.names.map Text.utf8 := by
      intro hmem
      obtain ⟨name, -, rfl⟩ := List.mem_map.mp hmem
      cases htext.symm.trans (Text.ofUtf8?_utf8 name)
    exact (List.idxOf?_eq_none_iff.mpr hmem).symm
  | some name =>
    obtain rfl := Text.utf8_eq_of_ofUtf8? htext
    have hsame : (fun other => other == name) =
        (fun bytes => bytes == Text.utf8 name) ∘ Text.utf8 := by
      funext other
      rw [Function.comp_apply, Bool.eq_iff_iff, beq_iff_eq, beq_iff_eq, Text.utf8_inj]
    rw [Option.bind_some, lookup_index, List.idxOf?, List.idxOf?, List.findIdx?_map, hsame]

/-- A key names the first field with its bytes. -/
theorem position?_eq_some_iff :
    fields.position? key = some i ↔
      (fields.names.map Text.utf8)[i]? = some key ∧
        ∀ j < i, (fields.names.map Text.utf8)[j]? ≠ some key := by
  rw [position?_eq, List.idxOf?_eq_some_iff]
  constructor
  · rintro ⟨hlt, hkey, hbefore⟩
    refine ⟨by rw [List.getElem?_eq_getElem hlt, hkey], fun j hj => ?_⟩
    rw [List.getElem?_eq_getElem (Nat.lt_trans hj hlt)]
    exact fun hsame => hbefore j hj (Option.some.inj hsame)
  · rintro ⟨hkey, hbefore⟩
    obtain ⟨hlt, hkey⟩ := List.getElem?_eq_some_iff.mp hkey
    refine ⟨hlt, hkey, fun j hj hsame => hbefore j hj ?_⟩
    rw [List.getElem?_eq_getElem (Nat.lt_trans hj hlt), hsame]

/-- Where a key names a field, there is a name to answer with, and it has the bytes of the key. -/
theorem exists_name_of_position? (h : fields.position? key = some i) :
    ∃ name, fields.names[i]? = some name ∧ fields.resolve? key = some name ∧
      Text.utf8 name = key := by
  have hkey := (position?_eq_some_iff.mp h).1
  rw [List.getElem?_map] at hkey
  obtain ⟨name, hname, hbytes⟩ := Option.map_eq_some_iff.mp hkey
  refine ⟨name, hname, ?_, hbytes⟩
  rw [resolve?, h, Option.bind_some, name?, hname]

theorem resolve?_of_position?_none (h : fields.position? key = none) :
    fields.resolve? key = none := by
  rw [resolve?, h, Option.bind_none]

theorem utf8_of_resolve? {name : String} (h : fields.resolve? key = some name) :
    Text.utf8 name = key := by
  cases hposition : fields.position? key with
  | none => cases (resolve?_of_position?_none hposition).symm.trans h
  | some i =>
    obtain ⟨found, -, hfound, hbytes⟩ := exists_name_of_position? hposition
    cases hfound.symm.trans h
    exact hbytes

/-- The longest name is as long as it has to be. -/
theorem longest_le_iff (fields : Fields) (n : Nat) :
    fields.longest ≤ n ↔ ∀ name ∈ fields.names, (Text.utf8 name).length ≤ n := by
  have hfold (names : List String) (len : Nat) :
      names.foldl (fun len name => max len name.utf8ByteSize) len ≤ n ↔
        len ≤ n ∧ ∀ name ∈ names, (Text.utf8 name).length ≤ n := by
    induction names generalizing len with
    | nil => simp
    | cons name rest ih =>
      have hlength : (Text.utf8 name).length = name.utf8ByteSize := rfl
      rw [List.foldl_cons, ih, List.forall_mem_cons, hlength, Nat.max_le, and_assoc]
  rw [longest_eq, hfold]
  exact and_iff_right (Nat.zero_le n)

/-- A key that is longer than every name is none of them. -/
theorem position?_of_longest_lt (h : fields.longest < key.length) :
    fields.position? key = none := by
  by_contra hposition
  obtain ⟨i, hi⟩ := Option.ne_none_iff_exists'.mp hposition
  obtain ⟨name, hname, -, rfl⟩ := exists_name_of_position? hi
  have hle := (longest_le_iff fields fields.longest).mp (Nat.le_refl _) name
    (List.mem_of_getElem? hname)
  omega

end Fields

end MessagePack
