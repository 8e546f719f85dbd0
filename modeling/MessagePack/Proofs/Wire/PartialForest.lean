import MessagePack.Proofs.Wire.Forest

namespace MessagePack.Wire

/-- A container of which the header has come, and of its contents those that are complete. At least
one is still to be completed. -/
structure OpenContainer where
  head : Element
  done : Forest
  whole : done.Whole
  unfinished : done.length < head.items

/-- What there is of a forest once a beginning of its elements has come: the trees that are
complete, then the containers that are not, the innermost first. Each one is the next of the
contents of the one around it. -/
structure PartialForest where
  done : Forest
  whole : done.Whole
  opened : List OpenContainer

namespace OpenContainer

def elements (c : OpenContainer) : List Element := c.head :: c.done.elements

/-- How many of the contents are not complete. -/
def left (c : OpenContainer) : Nat := c.head.items - c.done.length

theorem left_pos (c : OpenContainer) : 0 < c.left := Nat.sub_pos_of_lt c.unfinished

theorem isContainer (c : OpenContainer) : c.head.isContainer = true := by
  have hitems := c.unfinished
  cases hhead : c.head <;> rw [hhead] at hitems <;>
    first | rfl | exact absurd hitems (Nat.not_lt_zero _)

variable {t : ElementTree}

theorem whole_append (c : OpenContainer) (ht : t.Whole) : Forest.Whole (c.done ++ [t]) :=
  Forest.sized_append c.whole ⟨ht, trivial⟩

/-- The container with one more item complete, where that is not the last one. -/
def add (c : OpenContainer) (ht : t.Whole) (hmore : c.done.length + 1 < c.head.items) :
    OpenContainer :=
  ⟨c.head, c.done ++ [t], c.whole_append ht, by simpa using hmore⟩

variable {ht : t.Whole} {c : OpenContainer} {hmore : c.done.length + 1 < c.head.items}

theorem elements_add : (c.add ht hmore).elements = c.elements ++ t.elements := by
  simp [add, elements, Forest.elements_append]

theorem left_add : (c.add ht hmore).left = c.left - 1 := by
  simp only [add, left, List.length_append, List.length_singleton]
  omega

end OpenContainer

namespace PartialForest

/-- The elements that have come, in the order of the stream. -/
def elements (p : PartialForest) : List Element :=
  p.done.elements ++ p.opened.reverse.flatMap OpenContainer.elements

/-- How many containers the next element stands in. -/
def depth (p : PartialForest) : Nat := p.opened.length

/-- How many items are unread of each open container, the innermost first. Where another container
is open inside, that one is an item which has begun. -/
def unreadOf : List OpenContainer → List Nat
  | [] => []
  | c :: outer => c.left :: outer.map (·.left - 1)

def unread (p : PartialForest) : List Nat := unreadOf p.opened

def heightOf : List OpenContainer → Nat
  | [] => 0
  | c :: outer => max (outer.length + 1 + Forest.height c.done) (heightOf outer)

/-- How many containers have been open at once, at most. -/
def height (p : PartialForest) : Nat := max (Forest.height p.done) (heightOf p.opened)

end PartialForest

mutual

/-- No whole tree begins another. -/
theorem ElementTree.elements_append_inj : {t t' : ElementTree} → t.Whole → t'.Whole →
    {rest rest' : List Element} → t.elements ++ rest = t'.elements ++ rest' →
    t = t' ∧ rest = rest'
  | .node head contents, .node head' contents', h, h', rest, rest', heq => by
    simp only [ElementTree.elements, List.cons_append, List.cons.injEq] at heq
    obtain ⟨rfl, htail⟩ := heq
    obtain ⟨rfl, hrest⟩ :=
      Forest.elements_append_inj h.2 h'.2 (h.1.trans h'.1.symm) htail
    exact ⟨rfl, hrest⟩

theorem Forest.elements_append_inj : {f f' : Forest} → f.Whole → f'.Whole →
    f.length = f'.length → {rest rest' : List Element} →
    f.elements ++ rest = f'.elements ++ rest' → f = f' ∧ rest = rest'
  | [], [], _, _, _, _, _, heq => ⟨rfl, heq⟩
  | t :: f, t' :: f', h, h', hlen, rest, rest', heq => by
    simp only [Forest.elements_cons, List.append_assoc] at heq
    obtain ⟨rfl, htail⟩ := ElementTree.elements_append_inj h.1 h'.1 heq
    obtain ⟨rfl, hrest⟩ := Forest.elements_append_inj h.2 h'.2 (Nat.succ.inj hlen) htail
    exact ⟨rfl, hrest⟩

end

theorem Forest.sized_take {r : Nat → Nat → Prop} {f : Forest} (h : f.Sized r) (n : Nat) :
    Forest.Sized r (f.take n) := by
  induction f generalizing n with
  | nil => simpa using h
  | cons t rest ih =>
    cases n with
    | zero => trivial
    | succ n => exact ⟨h.1, ih h.2 n⟩

theorem Forest.sized_drop {r : Nat → Nat → Prop} {f : Forest} (h : f.Sized r) (n : Nat) :
    Forest.Sized r (f.drop n) := by
  induction f generalizing n with
  | nil => simpa using h
  | cons t rest ih =>
    cases n with
    | zero => exact h
    | succ n => exact ih h.2 n

/-- Open containers begin with no whole tree: the outermost has not got all its contents. -/
theorem ElementTree.elements_append_ne {t : ElementTree} (h : t.Whole) (rest : List Element)
    (opened : List OpenContainer) : t.elements ++ rest ≠ opened.flatMap OpenContainer.elements := by
  induction opened generalizing t rest with
  | nil =>
    cases t
    simp [ElementTree.elements]
  | cons c inner ih =>
    obtain ⟨head, contents⟩ := t
    intro heq
    simp only [ElementTree.elements, OpenContainer.elements, List.flatMap_cons, List.cons_append,
      List.cons.injEq] at heq
    obtain ⟨rfl, htail⟩ := heq
    have hmore : c.done.length < contents.length := h.1 ▸ c.unfinished
    obtain ⟨next, after, hdrop⟩ : ∃ next after, contents.drop c.done.length = next :: after :=
      List.exists_cons_of_length_pos (by rw [List.length_drop]; omega)
    have hsplit : contents = contents.take c.done.length ++ next :: after := by
      rw [← hdrop, List.take_append_drop]
    have hnext : Forest.Whole (next :: after) := hdrop ▸ Forest.sized_drop h.2 _
    rw [hsplit, Forest.elements_append, List.append_assoc] at htail
    have hlen : (contents.take c.done.length).length = c.done.length :=
      List.length_take_of_le (Nat.le_of_lt hmore)
    obtain ⟨-, hinner⟩ :=
      Forest.elements_append_inj (Forest.sized_take h.2 _) c.whole hlen htail
    rw [Forest.elements_cons, List.append_assoc] at hinner
    exact ih hnext.1 _ hinner

/-- Complete trees come apart from the open containers behind them in one way only. -/
theorem Forest.elements_append_opened {f f' : Forest} (h : f.Whole) (h' : f'.Whole)
    {opened opened' : List OpenContainer}
    (heq : f.elements ++ opened.flatMap OpenContainer.elements =
      f'.elements ++ opened'.flatMap OpenContainer.elements) :
    f = f' ∧ opened.flatMap OpenContainer.elements = opened'.flatMap OpenContainer.elements := by
  induction f generalizing f' with
  | nil =>
    cases f' with
    | nil => exact ⟨rfl, heq⟩
    | cons t' rest' =>
      rw [Forest.elements_cons, List.append_assoc] at heq
      exact absurd heq.symm (ElementTree.elements_append_ne h'.1 _ opened)
  | cons t rest ih =>
    rw [Forest.elements_cons, List.append_assoc] at heq
    cases f' with
    | nil => exact absurd heq (ElementTree.elements_append_ne h.1 _ opened')
    | cons t' rest' =>
      rw [Forest.elements_cons, List.append_assoc] at heq
      obtain ⟨rfl, htail⟩ := ElementTree.elements_append_inj h.1 h'.1 heq
      obtain ⟨rfl, hopened⟩ := ih h.2 h'.2 htail
      exact ⟨rfl, hopened⟩

theorem OpenContainer.flatMap_elements_inj {opened opened' : List OpenContainer}
    (heq : opened.flatMap elements = opened'.flatMap elements) : opened = opened' := by
  induction opened generalizing opened' with
  | nil =>
    cases opened' with
    | nil => rfl
    | cons c' inner' => simp [elements] at heq
  | cons c inner ih =>
    cases opened' with
    | nil => simp [elements] at heq
    | cons c' inner' =>
      obtain ⟨head, done, whole, unfinished⟩ := c
      obtain ⟨head', done', whole', unfinished'⟩ := c'
      simp only [elements, List.flatMap_cons, List.cons_append, List.cons.injEq] at heq
      obtain ⟨rfl, htail⟩ := heq
      obtain ⟨rfl, hinner⟩ := Forest.elements_append_opened whole whole' htail
      rw [ih hinner]

/-- A row of elements is the listing of one forest at most. -/
theorem PartialForest.elements_inj {p q : PartialForest} (h : p.elements = q.elements) : p = q := by
  obtain ⟨done, whole, opened⟩ := p
  obtain ⟨done', whole', opened'⟩ := q
  obtain ⟨rfl, hopened⟩ := Forest.elements_append_opened whole whole' h
  obtain rfl := List.reverse_inj.mp (OpenContainer.flatMap_elements_inj hopened)
  rfl

end MessagePack.Wire
