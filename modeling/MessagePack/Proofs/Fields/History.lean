import MessagePack.Proofs.Fields.Position

namespace MessagePack

/-- The table finds a key among the declared names by its bytes, and knows how long a key can be. -/
structure Fields.Finds (fields : Fields) (declared : List String) (key : List UInt8) : Prop where
  position (i : Nat) : fields.position? key = some i ↔
    (declared.map Text.utf8)[i]? = some key ∧ ∀ j < i, (declared.map Text.utf8)[j]? ≠ some key
  named (i : Nat) : fields.position? key = some i →
    ∃ name, declared[i]? = some name ∧ fields.resolve? key = some name
  unnamed : fields.position? key = none → fields.resolve? key = none
  longest (n : Nat) : fields.longest ≤ n ↔ ∀ name ∈ declared, (Text.utf8 name).length ≤ n
  tooLong : fields.longest < key.length → fields.resolve? key = none

theorem Fields.finds (declared : List String) (key : List UInt8) :
    (Fields.ofNames declared).Finds declared key where
  position _ := position?_eq_some_iff
  named i h := by
    obtain ⟨name, hname, hresolve, -⟩ := exists_name_of_position? h
    exact ⟨name, hname, hresolve⟩
  unnamed := resolve?_of_position?_none
  longest := longest_le_iff (ofNames declared)
  tooLong h := resolve?_of_position?_none (position?_of_longest_lt h)

namespace FieldCache

/-- Asks for the tables of types, by name and fields, one after another. -/
def fieldsOfAll (cache : FieldCache) : List (String × List String) → List Fields × FieldCache
  | [] => ([], cache)
  | (type, names) :: rest =>
    let (fields, next) := cache.fieldsOf type names
    let (tables, last) := next.fieldsOfAll rest
    (fields :: tables, last)

variable (cache : FieldCache)

/-- A type gets the table of its own fields, whatever is kept under its name. -/
theorem fieldsOf_answer (type : String) (names : List String) :
    (cache.fieldsOf type names).1 = .ofNames names := by
  unfold fieldsOf
  cases cache.lookup type with
  | none => rfl
  | some fields =>
    by_cases hnames : fields.names = names
    · subst hnames
      simpa using fields.eq_ofNames
    · simp [hnames]

/-- A call only adds to what is kept, and only under a name that is new. -/
theorem fieldsOf_kept (type : String) (names : List String) :
    (cache.fieldsOf type names).2.tables = enterNew cache.tables (type, .ofNames names) := by
  unfold fieldsOf lookup enterNew
  cases cache.tables.lookup type with
  | none => rfl
  | some fields =>
    by_cases hnames : fields.names = names
    · simp [hnames]
    · simp [hnames]

theorem fieldsOfAll_answers (calls : List (String × List String)) :
    (cache.fieldsOfAll calls).1 = calls.map fun call => .ofNames call.2 := by
  induction calls generalizing cache with
  | nil => rfl
  | cons call rest ih =>
    rw [fieldsOfAll, List.map_cons, ← ih (cache.fieldsOf call.1 call.2).2,
      ← fieldsOf_answer cache call.1 call.2]

/-- What a history leaves behind are its types' tables, entered one after another. -/
theorem fieldsOfAll_kept (calls : List (String × List String)) :
    (cache.fieldsOfAll calls).2.tables =
      (calls.map fun call => (call.1, .ofNames call.2)).foldl enterNew cache.tables := by
  induction calls generalizing cache with
  | nil => rfl
  | cons call rest ih =>
    rw [List.map_cons, List.foldl_cons, ← fieldsOf_kept, ← ih]
    rfl

/-- What is kept under a name stays, and otherwise the first call with the name decides. -/
theorem lookup_fieldsOfAll (calls : List (String × List String)) (type : String) :
    (cache.fieldsOfAll calls).2.lookup type =
      (cache.lookup type).or ((calls.lookup type).map Fields.ofNames) := by
  -- names are looked up alike among the calls and among the tables that they enter
  have hcalls : (calls.map fun call => (call.1, Fields.ofNames call.2)).lookup type =
      (calls.lookup type).map Fields.ofNames := by
    induction calls with
    | nil => rfl
    | cons call rest ih =>
      rw [List.map_cons, List.lookup_cons, List.lookup_cons, ih]
      cases type == call.1 <;> rfl
  rw [lookup, fieldsOfAll_kept, lookup_foldl_enterNew, hcalls]
  rfl

/-- Every table finds keys by the bytes of its own names. Over any history of calls each type gets
the table of its own fields, and what is kept under a name is nothing before the first call with it
and the table of that call from then on. -/
theorem keeps_first_table (declared : List String) (key : List UInt8)
    (calls : List (String × List String)) (type : String) :
    (Fields.ofNames declared).Finds declared key ∧
    (({} : FieldCache).fieldsOfAll calls).1 = calls.map (fun call => .ofNames call.2) ∧
    ∀ before : List (String × List String), (∀ call ∈ before, call.1 ≠ type) →
      (({} : FieldCache).fieldsOfAll before).2.lookup type = none ∧
      ∀ (names : List String) (after : List (String × List String)),
        (({} : FieldCache).fieldsOfAll (before ++ (type, names) :: after)).2.lookup type =
          some (.ofNames names) := by
  refine ⟨Fields.finds declared key, fieldsOfAll_answers {} calls, fun before hbefore => ?_⟩
  have hnone : before.lookup type = none :=
    List.lookup_eq_none_iff.mpr fun call hmem => bne_iff_ne.mpr (hbefore call hmem).symm
  refine ⟨?_, fun names after => ?_⟩
  · rw [lookup_fieldsOfAll, hnone]
    rfl
  · rw [lookup_fieldsOfAll, List.lookup_append, hnone, Option.none_or, List.lookup_cons_self]
    rfl

/-- A name that is declared twice, after an empty one and one that is not ASCII, and a type name
that stands for three shapes. -/
theorem keeps_first_table_repeated :
    (Fields.ofNames ["", "é", "b", "b"]).position? (Text.utf8 "b") = some 2 ∧
    (∃ name, ["", "é", "b", "b"][2]? = some name ∧
      (Fields.ofNames ["", "é", "b", "b"]).resolve? (Text.utf8 "b") = some name) ∧
    (({} : FieldCache).fieldsOfAll [("Q", []), ("P", ["b"]), ("P", []), ("P", ["é"])]).1 =
      [.ofNames [], .ofNames ["b"], .ofNames [], .ofNames ["é"]] ∧
    (({} : FieldCache).fieldsOfAll [("Q", [])]).2.lookup "P" = none ∧
    (({} : FieldCache).fieldsOfAll [("Q", []), ("P", ["b"]), ("P", []), ("P", ["é"])]).2.lookup
      "P" = some (.ofNames ["b"]) := by
  obtain ⟨hfinds, htables, hkept⟩ := keeps_first_table ["", "é", "b", "b"] (Text.utf8 "b")
    [("Q", []), ("P", ["b"]), ("P", []), ("P", ["é"])] "P"
  have hposition := (hfinds.position 2).mpr ⟨rfl, by decide⟩
  obtain ⟨hbefore, hafter⟩ := hkept [("Q", [])] (by decide)
  exact ⟨hposition, hfinds.named 2 hposition, htables, hbefore,
    hafter ["b"] [("P", []), ("P", ["é"])]⟩

end FieldCache

end MessagePack
