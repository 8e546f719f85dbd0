import MessagePack.Proofs.Value.Reading

namespace MessagePack.Wire

/-- The bytes carry so many complete elements, one after another, in which containers nest at most
so deep. -/
def Carries (count height : Nat) (bytes : List UInt8) : Prop :=
  ∃ f : Forest, f.Whole ∧ f.length = count ∧ f.height ≤ height ∧ Streams f.elements bytes

namespace Carries

variable {m n height height' : Nat} {bytes bytes' rest rest' header data body : List UInt8}
  {e : Element}

theorem nothing : Carries 0 0 [] :=
  ⟨[], trivial, rfl, Nat.le_refl _, .nil⟩

theorem mono (h : Carries n height bytes) (hle : height ≤ height') : Carries n height' bytes := by
  obtain ⟨f, hwhole, hlength, hheight, hstreams⟩ := h
  exact ⟨f, hwhole, hlength, Nat.le_trans hheight hle, hstreams⟩

theorem append (h : Carries m height bytes) (h' : Carries n height bytes') :
    Carries (m + n) height (bytes ++ bytes') := by
  obtain ⟨f, hwhole, rfl, hheight, hstreams⟩ := h
  obtain ⟨g, hwhole', rfl, hheight', hstreams'⟩ := h'
  refine ⟨f ++ g, Forest.sized_append hwhole hwhole', List.length_append, ?_, ?_⟩
  · rw [Forest.height_append]
    exact Nat.max_le.mpr ⟨hheight, hheight'⟩
  · rw [Forest.elements_append]
    exact hstreams.append hstreams'

/-- Elements in a row come apart after the first of them. -/
private theorem exists_cons (h : Carries (n + 1) height bytes) :
    ∃ first second, bytes = first ++ second ∧ Carries 1 height first ∧
      Carries n height second := by
  obtain ⟨f, hwhole, hlength, hheight, hstreams⟩ := h
  obtain ⟨t, rest, rfl⟩ := List.exists_cons_of_length_eq_add_one hlength
  obtain ⟨first, second, rfl, hfirst, hsecond⟩ := Streams.exists_append hstreams
  have hheights := Nat.max_le.mp hheight
  refine ⟨first, second, rfl, ⟨[t], ⟨hwhole.1, trivial⟩, rfl, ?_, ?_⟩,
    rest, hwhole.2, Nat.succ.inj hlength, hheights.2, hsecond⟩
  · simpa [Forest.height] using hheights.1
  · simpa using hfirst

theorem exists_append (h : Carries (m + n) height bytes) :
    ∃ first second, bytes = first ++ second ∧ Carries m height first ∧
      Carries n height second := by
  induction m generalizing bytes with
  | zero =>
    rw [Nat.zero_add] at h
    exact ⟨[], bytes, rfl, nothing.mono (Nat.zero_le _), h⟩
  | succ m ih =>
    rw [Nat.add_right_comm] at h
    obtain ⟨first, second, rfl, hfirst, hsecond⟩ := h.exists_cons
    obtain ⟨between, last, rfl, hbetween, hlast⟩ := ih hsecond
    refine ⟨first ++ between, last, (List.append_assoc _ _ _).symm, ?_, hlast⟩
    rw [Nat.add_comm]
    exact hfirst.append hbetween

/-- One complete element is the spelling of a value. -/
theorem one_iff :
    Carries 1 height bytes ↔ ∃ v : Value, v.SpelledBy bytes ∧ v.height ≤ height := by
  constructor
  · intro h
    obtain ⟨f, hwhole, hlength, hheight, hstreams⟩ := h
    obtain ⟨t, rfl⟩ := List.length_eq_one_iff.mp hlength
    rw [Forest.elements_cons, Forest.elements_nil, List.append_nil] at hstreams
    obtain ⟨v, hv, hsame⟩ := Value.exists_spelledBy hwhole.1 hstreams
    exact ⟨v, hv, hsame ▸ (Nat.max_le.mp hheight).1⟩
  · intro h
    obtain ⟨v, hv, hheight⟩ := h
    obtain ⟨t, hwhole, hsame, hstreams⟩ := hv.exists_tree
    refine ⟨[t], ⟨hwhole, trivial⟩, rfl, ?_, by simpa using hstreams⟩
    simpa [Forest.height, hsame] using hheight

/-- No row of complete elements begins another of as many. -/
theorem append_inj (h : Carries n height bytes) (h' : Carries n height' bytes')
    (heq : bytes ++ rest = bytes' ++ rest') : bytes = bytes' ∧ rest = rest' := by
  induction n generalizing bytes bytes' with
  | zero =>
    obtain ⟨f, -, hlength, -, hstreams⟩ := h
    obtain ⟨f', -, hlength', -, hstreams'⟩ := h'
    obtain rfl := List.length_eq_zero_iff.mp hlength
    obtain rfl := List.length_eq_zero_iff.mp hlength'
    cases hstreams
    cases hstreams'
    exact ⟨rfl, heq⟩
  | succ n ih =>
    obtain ⟨first, second, rfl, hfirst, hsecond⟩ := h.exists_cons
    obtain ⟨first', second', rfl, hfirst', hsecond'⟩ := h'.exists_cons
    obtain ⟨v, hv, -⟩ := one_iff.mp hfirst
    obtain ⟨w, hw, -⟩ := one_iff.mp hfirst'
    rw [List.append_assoc, List.append_assoc] at heq
    obtain ⟨-, rfl, htail⟩ := hv.append_inj hw heq
    obtain ⟨rfl, hrest⟩ := ih hsecond hsecond' htail
    exact ⟨rfl, hrest⟩

/-- What begins with complete elements cannot be continued to as many. -/
theorem not_append (h : Carries n height bytes) (hrest : rest' ≠ []) :
    ¬Carries n height' (bytes ++ rest ++ rest') := by
  intro h'
  have heq : bytes ++ (rest ++ rest') = bytes ++ rest ++ rest' ++ [] := by
    rw [List.append_nil, List.append_assoc]
  exact hrest (List.append_eq_nil_iff.mp (h.append_inj h' heq).2).2

private theorem eq_zero (h : Carries n height []) : n = 0 := by
  obtain ⟨f, -, rfl, -, hstreams⟩ := h
  cases f with
  | nil => rfl
  | cons t rest =>
    obtain ⟨e, contents⟩ := t
    exact absurd rfl (hstreams.ne_nil (List.cons_ne_nil _ _))

/-- The same bytes cannot be other numbers of complete elements. -/
theorem unique (h : Carries m height bytes) (h' : Carries n height' bytes) : m = n := by
  wlog hle : m ≤ n generalizing m n height height'
  · exact (this h' h (Nat.le_of_not_le hle)).symm
  obtain ⟨k, rfl⟩ := Nat.exists_eq_add_of_le hle
  obtain ⟨first, second, rfl, hfirst, hsecond⟩ := h'.exists_append
  obtain rfl := (h.append_inj hfirst (List.append_nil _)).2
  rw [hsecond.eq_zero, Nat.add_zero]

/-- A header with all that it announces is one complete element. -/
theorem node (hheader : IsHeader e header) (hdata : data.length = e.payload)
    (h : Carries e.items height body) : Carries 1 (height + 1) (header ++ (data ++ body)) := by
  obtain ⟨f, hwhole, hlength, hheight, hstreams⟩ := h
  refine ⟨[.node e f], ⟨⟨hlength, hwhole⟩, trivial⟩, rfl, ?_, ?_⟩
  · simp only [Forest.height, ElementTree.height]
    split <;> omega
  · rw [Forest.elements_cons, Forest.elements_nil, List.append_nil]
    exact .cons hheader hdata hstreams

/-- A header without a payload of its own is one complete element with all that it announces. -/
theorem bare (hheader : IsHeader e header) (he : e.payload = 0)
    (h : Carries e.items height body) : Carries 1 (height + 1) (header ++ body) := by
  have hnode := node hheader (show ([] : List UInt8).length = e.payload from he.symm) h
  rwa [List.nil_append] at hnode

theorem raw {len : Nat} (hheader : IsHeader (.raw len) header) (hdata : data.length = len) :
    Carries 1 1 (header ++ data) := by
  have hnode := node hheader hdata nothing
  rwa [List.append_nil] at hnode

theorem exists_node (h : Carries 1 height bytes) :
    ∃ e header data body, IsHeader e header ∧ data.length = e.payload ∧
      Carries e.items height body ∧ bytes = header ++ (data ++ body) := by
  obtain ⟨f, hwhole, hlength, hheight, hstreams⟩ := h
  obtain ⟨⟨e, contents⟩, rfl⟩ := List.length_eq_one_iff.mp hlength
  rw [Forest.elements_cons, Forest.elements_nil, List.append_nil] at hstreams
  have hcontents : Forest.height contents ≤ height := by
    simp only [Forest.height, ElementTree.height] at hheight
    omega
  cases hstreams with
  | cons head payload tail =>
    exact ⟨e, _, _, _, head, payload, ⟨contents, hwhole.1.2, hwhole.1.1, hcontents, tail⟩, rfl⟩

/-- A header with complete elements behind it is one complete element exactly if it announces as
many as there are. -/
theorem header_iff (hheader : IsHeader e header) (he : e.payload = 0)
    (h : Carries n height body) : (∃ height, Carries 1 height (header ++ body)) ↔ n = e.items := by
  constructor
  · intro hexists
    obtain ⟨_, hone⟩ := hexists
    obtain ⟨e', header', data, body', hheader', hdata, hbody, heq⟩ := hone.exists_node
    obtain ⟨rfl, rfl, rfl⟩ := hheader.append_inj hheader' heq
    obtain rfl := List.length_eq_zero_iff.mp (hdata.trans he)
    exact h.unique hbody
  · rintro rfl
    exact ⟨_, bare hheader he h⟩

/-- As many nils as are wanted. -/
theorem nils (n : Nat) : Carries n 0 (List.replicate n 0xc0) := by
  have hone : Carries 1 0 [0xc0] := one_iff.mpr ⟨.nil, .nil .nil, Nat.le_refl _⟩
  induction n with
  | zero => exact nothing
  | succ n ih =>
    rw [List.replicate_succ, Nat.add_comm]
    exact hone.append ih

/-- Every header can be gone on from to a complete element. -/
theorem exists_of_header (h : IsHeader e header) : ∃ rest, Carries 1 1 (header ++ rest) :=
  ⟨List.replicate e.payload 0 ++ List.replicate e.items 0xc0,
    node h List.length_replicate (nils e.items)⟩

end Carries

end MessagePack.Wire
