import MessagePack.Wire.Element
import Mathlib.Tactic.Common

namespace MessagePack.Wire

namespace Element

def isContainer : Element → Bool
  | array _ | map _ => true
  | _ => false

/-- How many items an element announces; an entry of a map is two. -/
def items : Element → Nat
  | array len => len
  | map len => 2 * len
  | _ => 0

end Element

/-- An element with what is read as its contents. -/
inductive ElementTree where
  | node (head : Element) (contents : List ElementTree)

/-- What is read one after another. -/
abbrev Forest := List ElementTree

mutual

/-- The elements in the order of the stream. -/
def ElementTree.elements : ElementTree → List Element
  | .node head contents => head :: Forest.elements contents

def Forest.elements : Forest → List Element
  | [] => []
  | t :: rest => t.elements ++ Forest.elements rest

end

mutual

/-- How many containers are open at once, at most, while the contents are read. -/
def ElementTree.height : ElementTree → Nat
  | .node head contents => Forest.height contents + if head.isContainer then 1 else 0

def Forest.height : Forest → Nat
  | [] => 0
  | t :: rest => max t.height (Forest.height rest)

end

variable (r : Nat → Nat → Prop)

mutual

/-- The number of every element's contents is in the relation `r` to the number it announces. -/
def ElementTree.Sized : ElementTree → Prop
  | .node head contents => r contents.length head.items ∧ Forest.Sized contents

def Forest.Sized : Forest → Prop
  | [] => True
  | t :: rest => t.Sized ∧ Forest.Sized rest

end

/-- Every element has as many contents as it announces. -/
abbrev ElementTree.Whole : ElementTree → Prop := ElementTree.Sized (· = ·)

abbrev Forest.Whole : Forest → Prop := Forest.Sized (· = ·)

/-- No element has more contents than it announces. -/
abbrev ElementTree.Thrifty : ElementTree → Prop := ElementTree.Sized (· ≤ ·)

abbrev Forest.Thrifty : Forest → Prop := Forest.Sized (· ≤ ·)

/-- No element has fewer contents than it announces. -/
abbrev ElementTree.Lavish : ElementTree → Prop := ElementTree.Sized (· ≥ ·)

abbrev Forest.Lavish : Forest → Prop := Forest.Sized (· ≥ ·)

namespace Forest

@[simp] theorem elements_nil : Forest.elements [] = [] := rfl

@[simp] theorem elements_cons (t : ElementTree) (rest : Forest) :
    Forest.elements (t :: rest) = t.elements ++ Forest.elements rest := rfl

theorem elements_append (f g : Forest) :
    Forest.elements (f ++ g) = f.elements ++ g.elements := by
  induction f with
  | nil => rfl
  | cons t rest ih => simp [ih]

theorem height_append (f g : Forest) : Forest.height (f ++ g) = max f.height g.height := by
  induction f with
  | nil => simp [Forest.height]
  | cons t rest ih => simp only [List.cons_append, Forest.height, ih, Nat.max_assoc]

variable {r : Nat → Nat → Prop}

theorem sized_append {f g : Forest} (hf : f.Sized r) (hg : g.Sized r) :
    Forest.Sized r (f ++ g) := by
  induction f with
  | nil => exact hg
  | cons t rest ih => exact ⟨hf.1, ih hf.2⟩

end Forest

variable {r r' : Nat → Nat → Prop}

mutual

theorem ElementTree.Sized.mono (hr : ∀ a b, r a b → r' a b) : {t : ElementTree} → t.Sized r →
    t.Sized r'
  | .node _ _, h => ⟨hr _ _ h.1, Forest.Sized.mono hr h.2⟩

theorem Forest.Sized.mono (hr : ∀ a b, r a b → r' a b) : {f : Forest} → f.Sized r → f.Sized r'
  | [], _ => trivial
  | _ :: _, h => ⟨ElementTree.Sized.mono hr h.1, Forest.Sized.mono hr h.2⟩

end

theorem Forest.Sized.lavish {f : Forest} (h : f.Whole) : f.Lavish :=
  h.mono fun _ _ hab => Nat.le_of_eq hab.symm

theorem ElementTree.Sized.lavish {t : ElementTree} (h : t.Whole) : t.Lavish :=
  h.mono fun _ _ hab => Nat.le_of_eq hab.symm

end MessagePack.Wire
