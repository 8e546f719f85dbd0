import MessagePack.Proofs.Session.Passed
import MessagePack.Registry
import MessagePack.Shape.Basic

namespace MessagePack

open Wire (Element Forest ElementTree)

/-- Which elements something is read from, with the contents that are read inside each. -/
abbrev Layout := Forest → Prop

namespace Layout

/-- One element that is no container. -/
def leaf : Layout := fun f => ∃ e : Element, e.isContainer = false ∧ f = [.node e []]

/-- One element with everything it announces. -/
def whole : Layout := fun f => ∃ t : ElementTree, t.Whole ∧ f = [t]

def nothing : Layout := fun f => f = []

def either (a b : Layout) : Layout := fun f => a f ∨ b f

/-- Any one of some layouts. -/
def anyOf (layouts : List Layout) : Layout := fun f => ∃ layout ∈ layouts, layout f

def append (a b : Layout) : Layout := fun f => ∃ first second, a first ∧ b second ∧
  f = first ++ second

/-- Several things one after another. -/
def concat : List Layout → Layout
  | [] => nothing
  | layout :: rest => append layout (concat rest)

/-- An array from whose items the things inside are read. -/
def array (items : List Layout) : Layout := fun f =>
  ∃ contents, concat items contents ∧ f = [.node (.array items.length) contents]

/-- A map from each of whose entries two things are read. -/
def map (key item : Layout) : Layout := fun f => ∃ len contents,
  concat (List.replicate len (append key item)) contents ∧ f = [.node (.map len) contents]

/-- A map of a single entry. -/
def single (key item : Layout) : Layout := fun f =>
  ∃ contents, append key item contents ∧ f = [.node (.map 1) contents]

/-- A raw, of which the bytes are the items, or an array of such items. -/
def items (items : List Layout) : Layout := either leaf (array items)

/-- Any number of items. -/
def seq (item : Layout) : Layout := fun f => ∃ len, items (List.replicate len item) f

/-- The fields in order, or a map in which a key is a name or a position and its value a field's or
one that is read over. -/
def fields (layouts : List Layout) : Layout :=
  either (array layouts) (map leaf (either whole (anyOf layouts)))

end Layout

/-- What a codec has read from somewhere, as complete elements. -/
def Codec.layout (codec : Codec) : Layout := fun f => ∃ (d d' : Decoder) (v : Value)
  (bytes : List UInt8), d.Sound ∧ codec.decode d = .ok v d' ∧ f.Whole ∧
    d.Passed f.elements bytes d'

/-- What a codec reads, or what is read where there is none. -/
def Registry.layout (registry : Registry) (name : String) (otherwise : Layout) : Layout :=
  match registry.get? name with
  | some codec => codec.layout
  | none => otherwise

section

variable (registry : Registry)

mutual

/-- The elements that a type may be read from. -/
def Shape.layout : Shape → Layout
  | .bool | .int _ | .f32 | .f64 | .char | .text | .unit | .integer => .leaf
  | .bytes => .seq .leaf
  | .ignored | .value => .whole
  | .human => .nothing
  | .timestamp => registry.layout Timestamp.typeName (.items [.leaf, .leaf])
  | .option content => .either .leaf (Shape.layout content)
  | .seq item => .seq (Shape.layout item)
  | .map key item | .mapPart _ key item => .map (Shape.layout key) (Shape.layout item)
  | .tuple items => .items (Shape.layouts items)
  | .tupleStruct name items => registry.layout name (.items (Shape.layouts items))
  | .unitStruct name => registry.layout name .leaf
  | .newtype name content => registry.layout name (Shape.layout content)
  | .struct name fields _ => registry.layout name (.fields (Shape.fieldLayouts fields))
  | .enumeration _ variants =>
    .either .leaf (.single .leaf (.anyOf (Content.layouts variants)))
  | .probe request =>
    match request.typeName? with
    | some name => registry.layout name .whole
    | none => .whole
  | .probeVariant _ => .whole

def Shape.layouts : List Shape → List Layout
  | [] => []
  | shape :: rest => Shape.layout shape :: Shape.layouts rest

def Shape.fieldLayouts : List (String × Shape) → List Layout
  | [] => []
  | (_, shape) :: rest => Shape.layout shape :: Shape.fieldLayouts rest

def Content.layout : Content → Layout
  | .unit => .leaf
  | .newtype content => Shape.layout content
  | .tuple items => .items (Shape.layouts items)
  | .struct fields => .fields (Shape.fieldLayouts fields)

def Content.layouts : List (String × Content) → List Layout
  | [] => []
  | (_, content) :: rest => Content.layout content :: Content.layouts rest

end

end

mutual

/-- No part of the type reads nothing or takes whatever it is offered. -/
def Shape.Plain : Shape → Prop
  | .human | .probe _ | .probeVariant _ => False
  | .option content | .seq content | .newtype _ content => Shape.Plain content
  | .map key item | .mapPart _ key item => Shape.Plain key ∧ Shape.Plain item
  | .tuple items | .tupleStruct _ items => Shape.PlainAll items
  | .struct _ fields _ => Shape.PlainFields fields
  | .enumeration _ variants => Content.PlainAll variants
  | _ => True

def Shape.PlainAll : List Shape → Prop
  | [] => True
  | shape :: rest => Shape.Plain shape ∧ Shape.PlainAll rest

def Shape.PlainFields : List (String × Shape) → Prop
  | [] => True
  | (_, shape) :: rest => Shape.Plain shape ∧ Shape.PlainFields rest

def Content.Plain : Content → Prop
  | .unit => True
  | .newtype content => Shape.Plain content
  | .tuple items => Shape.PlainAll items
  | .struct fields => Shape.PlainFields fields

def Content.PlainAll : List (String × Content) → Prop
  | [] => True
  | (_, content) :: rest => Content.Plain content ∧ Content.PlainAll rest

end

/-- A relation that holds of equal numbers, and of the sums of what it holds of. -/
structure Additive (r : Nat → Nat → Prop) : Prop where
  refl : ∀ n, r n n
  add : ∀ {a b c d}, r a b → r c d → r (a + c) (b + d)

theorem Additive.eq : Additive (· = ·) := ⟨fun _ => rfl, fun h h' => by rw [h, h']⟩

theorem Additive.le : Additive (· ≤ ·) := ⟨Nat.le_refl, Nat.add_le_add⟩

namespace Layout

/-- What is read is a number of elements in the relation `r` to `count`, and so inside each. -/
def Sized (r : Nat → Nat → Prop) (count : Nat) (layout : Layout) : Prop :=
  ∀ f, layout f → f.Sized r ∧ r f.length count

variable {r : Nat → Nat → Prop}

theorem Sized.either {count : Nat} {a b : Layout} (ha : a.Sized r count) (hb : b.Sized r count) :
    (either a b).Sized r count
  | f, .inl hf => ha f hf
  | f, .inr hf => hb f hf

theorem Sized.anyOf {count : Nat} {layouts : List Layout}
    (h : ∀ layout ∈ layouts, Layout.Sized r count layout) : (anyOf layouts).Sized r count := by
  intro f hf
  obtain ⟨layout, hmem, hf⟩ := hf
  exact h layout hmem f hf

variable (hr : Additive r)

include hr

theorem sized_leaf : leaf.Sized r 1 := by
  intro f hf
  obtain ⟨e, he, rfl⟩ := hf
  have hitems : e.items = 0 := by cases e <;> first | rfl | cases he
  exact ⟨⟨⟨hitems ▸ hr.refl 0, trivial⟩, trivial⟩, hr.refl 1⟩

theorem sized_whole : whole.Sized r 1 := by
  intro f hf
  obtain ⟨t, ht, rfl⟩ := hf
  exact ⟨⟨ht.mono fun a b hab => hab ▸ hr.refl a, trivial⟩, hr.refl 1⟩

theorem sized_append {m n : Nat} {a b : Layout} (ha : a.Sized r m) (hb : b.Sized r n) :
    (append a b).Sized r (m + n) := by
  intro f hf
  obtain ⟨first, second, hfirst, hsecond, rfl⟩ := hf
  obtain ⟨hsized, hlen⟩ := ha first hfirst
  obtain ⟨hsized', hlen'⟩ := hb second hsecond
  refine ⟨Forest.sized_append hsized hsized', ?_⟩
  rw [List.length_append]
  exact hr.add hlen hlen'

theorem sized_concat {count : Nat} {layouts : List Layout}
    (h : ∀ layout ∈ layouts, Layout.Sized r count layout) :
    (concat layouts).Sized r (layouts.length * count) := by
  induction layouts with
  | nil =>
    intro f hf
    subst hf
    simpa using ⟨trivial, hr.refl 0⟩
  | cons layout rest ih =>
    have hrest := ih fun layout hmem => h layout (by simp [hmem])
    rw [List.length_cons, Nat.succ_mul, Nat.add_comm]
    exact sized_append hr (h layout (by simp)) hrest

theorem sized_array {layouts : List Layout} (h : ∀ layout ∈ layouts, Layout.Sized r 1 layout) :
    (array layouts).Sized r 1 := by
  intro f hf
  obtain ⟨contents, hcontents, rfl⟩ := hf
  obtain ⟨hsized, hlen⟩ := sized_concat hr h contents hcontents
  rw [Nat.mul_one] at hlen
  exact ⟨⟨⟨hlen, hsized⟩, trivial⟩, hr.refl 1⟩

theorem sized_items {layouts : List Layout} (h : ∀ layout ∈ layouts, Layout.Sized r 1 layout) :
    (items layouts).Sized r 1 :=
  (sized_leaf hr).either (sized_array hr h)

theorem sized_seq {item : Layout} (h : item.Sized r 1) : (seq item).Sized r 1 := by
  intro f hf
  obtain ⟨len, hf⟩ := hf
  refine sized_items hr (fun layout hmem => ?_) f hf
  obtain ⟨-, rfl⟩ := List.mem_replicate.mp hmem
  exact h

theorem sized_map {key item : Layout} (hkey : key.Sized r 1) (hitem : item.Sized r 1) :
    (map key item).Sized r 1 := by
  intro f hf
  obtain ⟨len, contents, hcontents, rfl⟩ := hf
  have hentry : (append key item).Sized r 2 := sized_append hr hkey hitem
  obtain ⟨hsized, hlen⟩ := sized_concat hr (fun layout hmem =>
    (List.mem_replicate.mp hmem).2 ▸ hentry) contents hcontents
  rw [List.length_replicate, Nat.mul_comm] at hlen
  exact ⟨⟨⟨hlen, hsized⟩, trivial⟩, hr.refl 1⟩

theorem sized_single {key item : Layout} (hkey : key.Sized r 1) (hitem : item.Sized r 1) :
    (single key item).Sized r 1 := by
  intro f hf
  obtain ⟨contents, hcontents, rfl⟩ := hf
  obtain ⟨hsized, hlen⟩ := sized_append hr hkey hitem contents hcontents
  exact ⟨⟨⟨hlen, hsized⟩, trivial⟩, hr.refl 1⟩

theorem sized_fields {layouts : List Layout} (h : ∀ layout ∈ layouts, Layout.Sized r 1 layout) :
    (fields layouts).Sized r 1 :=
  (sized_array hr h).either
    (sized_map hr (sized_leaf hr) ((sized_whole hr).either (.anyOf h)))

end Layout

/-- Every codec reads a number of elements in the relation `r` to one. -/
def Registry.Sized (r : Nat → Nat → Prop) (registry : Registry) : Prop :=
  ∀ name codec, registry.get? name = some codec → codec.layout.Sized r 1

variable {r : Nat → Nat → Prop} {registry : Registry}

theorem Registry.Sized.layout {otherwise : Layout} (hregistry : registry.Sized r) (name : String)
    (h : otherwise.Sized r 1) : (registry.layout name otherwise).Sized r 1 := by
  unfold Registry.layout
  split
  · exact hregistry name _ ‹_›
  · exact h

mutual

/-- A type is read from one element, if its parts and the codecs are. -/
theorem Shape.sized_layout (hr : Additive r) (hregistry : registry.Sized r) :
    (shape : Shape) → shape.Plain ∨ r 0 1 →
    (shape.layout registry).Sized r 1
  | .bool, _ | .int _, _ | .f32, _ | .f64, _ | .char, _ | .text, _ | .unit, _ | .integer, _ =>
    Layout.sized_leaf hr
  | .bytes, _ => Layout.sized_seq hr (Layout.sized_leaf hr)
  | .ignored, _ | .value, _ => Layout.sized_whole hr
  | .human, h => by
    intro f hf
    subst hf
    exact ⟨trivial, h.resolve_left id⟩
  | .timestamp, _ => hregistry.layout _ <|
    Layout.sized_items hr (by simpa using Layout.sized_leaf hr)
  | .option content, h => (Layout.sized_leaf hr).either (content.sized_layout hr hregistry h)
  | .seq item, h => Layout.sized_seq hr (item.sized_layout hr hregistry h)
  | .map key item, h | .mapPart _ key item, h =>
    Layout.sized_map hr (key.sized_layout hr hregistry (h.imp_left And.left))
      (item.sized_layout hr hregistry (h.imp_left And.right))
  | .tuple items, h => Layout.sized_items hr (Shape.sized_layouts hr hregistry items h)
  | .tupleStruct name items, h => hregistry.layout _ <|
    Layout.sized_items hr (Shape.sized_layouts hr hregistry items h)
  | .unitStruct name, _ => hregistry.layout _ (Layout.sized_leaf hr)
  | .newtype name content, h => hregistry.layout _ (content.sized_layout hr hregistry h)
  | .struct name fields _, h => hregistry.layout _ <|
    Layout.sized_fields hr (Shape.sized_fieldLayouts hr hregistry fields h)
  | .enumeration _ variants, h => (Layout.sized_leaf hr).either <|
    Layout.sized_single hr (Layout.sized_leaf hr)
      (.anyOf (Content.sized_layouts hr hregistry variants h))
  | .probe request, _ => by
    rw [Shape.layout]
    split
    · exact hregistry.layout _ (Layout.sized_whole hr)
    · exact Layout.sized_whole hr
  | .probeVariant _, _ => Layout.sized_whole hr

theorem Shape.sized_layouts (hr : Additive r) (hregistry : registry.Sized r) :
    (shapes : List Shape) → Shape.PlainAll shapes ∨ r 0 1 →
    ∀ layout ∈ Shape.layouts registry shapes, Layout.Sized r 1 layout
  | [], _, _, hmem => nomatch hmem
  | shape :: rest, h, layout, hmem => by
    rcases List.mem_cons.mp hmem with rfl | hrest
    · exact shape.sized_layout hr hregistry (h.imp_left And.left)
    · exact Shape.sized_layouts hr hregistry rest (h.imp_left And.right) layout hrest

theorem Shape.sized_fieldLayouts (hr : Additive r) (hregistry : registry.Sized r) :
    (fields : List (String × Shape)) →
    Shape.PlainFields fields ∨ r 0 1 →
    ∀ layout ∈ Shape.fieldLayouts registry fields, Layout.Sized r 1 layout
  | [], _, _, hmem => nomatch hmem
  | (_, shape) :: rest, h, layout, hmem => by
    rcases List.mem_cons.mp hmem with rfl | hrest
    · exact shape.sized_layout hr hregistry (h.imp_left And.left)
    · exact Shape.sized_fieldLayouts hr hregistry rest (h.imp_left And.right) layout hrest

theorem Content.sized_layout (hr : Additive r) (hregistry : registry.Sized r) :
    (content : Content) → content.Plain ∨ r 0 1 →
    (content.layout registry).Sized r 1
  | .unit, _ => Layout.sized_leaf hr
  | .newtype content, h => content.sized_layout hr hregistry h
  | .tuple items, h => Layout.sized_items hr (Shape.sized_layouts hr hregistry items h)
  | .struct fields, h => Layout.sized_fields hr (Shape.sized_fieldLayouts hr hregistry fields h)

theorem Content.sized_layouts (hr : Additive r) (hregistry : registry.Sized r) :
    (variants : List (String × Content)) →
    Content.PlainAll variants ∨ r 0 1 →
    ∀ layout ∈ Content.layouts registry variants, Layout.Sized r 1 layout
  | [], _, _, hmem => nomatch hmem
  | (_, content) :: rest, h, layout, hmem => by
    rcases List.mem_cons.mp hmem with rfl | hrest
    · exact content.sized_layout hr hregistry (h.imp_left And.left)
    · exact Content.sized_layouts hr hregistry rest (h.imp_left And.right) layout hrest

end

end MessagePack
