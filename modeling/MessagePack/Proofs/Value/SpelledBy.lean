import MessagePack.Proofs.Nesting.Height
import MessagePack.Proofs.Wire.Streams
import MessagePack.Value.Basic

namespace MessagePack.Value

open Wire (Element Forest IsHeader Streams ElementTree)

mutual

/-- The byte strings that spell a value: the header of an element, in whatever form, and after it
the bytes of a raw, the items of an array or the keys and values of a map. -/
inductive SpelledBy : Value → List UInt8 → Prop where
  | nil {header : List UInt8} (h : IsHeader .nil header) : SpelledBy .nil header
  | bool {b : Bool} {header : List UInt8} (h : IsHeader (.bool b) header) :
      SpelledBy (.bool b) header
  | uint {n : UInt64} {header : List UInt8} (h : IsHeader (.uint n) header) :
      SpelledBy (.ofUInt64 n) header
  | int {n : Int64} {header : List UInt8} (h : IsHeader (.int n) header) :
      SpelledBy (.ofInt64 n) header
  | f32 {bits : UInt32} {header : List UInt8} (h : IsHeader (.f32 bits) header) :
      SpelledBy (.f32 bits) header
  | f64 {bits : UInt64} {header : List UInt8} (h : IsHeader (.f64 bits) header) :
      SpelledBy (.f64 bits) header
  | raw {data header : List UInt8} (h : IsHeader (.raw data.length) header) :
      SpelledBy (.raw data) (header ++ data)
  | array {items : List Value} {header body : List UInt8}
      (h : IsHeader (.array items.length) header) (contents : ItemsSpelledBy items body) :
      SpelledBy (.array items) (header ++ body)
  | map {entries : List (Value × Value)} {header body : List UInt8}
      (h : IsHeader (.map entries.length) header) (contents : EntriesSpelledBy entries body) :
      SpelledBy (.map entries) (header ++ body)

inductive ItemsSpelledBy : List Value → List UInt8 → Prop where
  | nil : ItemsSpelledBy [] []
  | cons {v : Value} {rest : List Value} {bytes body : List UInt8} (head : SpelledBy v bytes)
      (tail : ItemsSpelledBy rest body) : ItemsSpelledBy (v :: rest) (bytes ++ body)

inductive EntriesSpelledBy : List (Value × Value) → List UInt8 → Prop where
  | nil : EntriesSpelledBy [] []
  | cons {k v : Value} {rest : List (Value × Value)} 
      {first second body : List UInt8} (key : SpelledBy k first) (item : SpelledBy v second)
      (tail : EntriesSpelledBy rest body) :
      EntriesSpelledBy ((k, v) :: rest) (first ++ (second ++ body))

end

mutual

/-- What spells a value streams the elements of one complete tree, as high as the value. -/
theorem SpelledBy.exists_tree : {v : Value} → {bytes : List UInt8} → v.SpelledBy bytes →
    ∃ t : ElementTree, t.Whole ∧ t.height = v.height ∧ Streams t.elements bytes
  | _, _, .nil h => ⟨.node .nil [], ⟨rfl, trivial⟩, rfl, .header h rfl⟩
  | _, _, .bool (b := b) h => ⟨.node (.bool b) [], ⟨rfl, trivial⟩, rfl, .header h rfl⟩
  | _, _, .uint (n := n) h => ⟨.node (.uint n) [], ⟨rfl, trivial⟩, rfl, .header h rfl⟩
  | _, _, .int (n := n) h => ⟨.node (.int n) [], ⟨rfl, trivial⟩, rfl, .header h rfl⟩
  | _, _, @SpelledBy.f32 bits _ h => ⟨.node (.f32 bits) [], ⟨rfl, trivial⟩, rfl, .header h rfl⟩
  | _, _, @SpelledBy.f64 bits _ h => ⟨.node (.f64 bits) [], ⟨rfl, trivial⟩, rfl, .header h rfl⟩
  | _, _, @SpelledBy.raw data _ h =>
    ⟨.node (.raw data.length) [], ⟨rfl, trivial⟩, rfl, .raw h⟩
  | _, _, @SpelledBy.array items _ _ h contents => by
    obtain ⟨f, hwhole, hlen, hheight, hstreams⟩ := contents.exists_forest
    refine ⟨.node (.array items.length) f, ⟨hlen, hwhole⟩, ?_, ?_⟩
    · simp [ElementTree.height, Element.isContainer, height, hheight]
    · exact (Streams.header h rfl).append hstreams
  | _, _, @SpelledBy.map entries _ _ h contents => by
    obtain ⟨f, hwhole, hlen, hheight, hstreams⟩ := contents.exists_forest
    refine ⟨.node (.map entries.length) f, ⟨hlen, hwhole⟩, ?_, ?_⟩
    · simp [ElementTree.height, Element.isContainer, height, hheight]
    · exact (Streams.header h rfl).append hstreams

theorem ItemsSpelledBy.exists_forest : {items : List Value} → {bytes : List UInt8} →
    ItemsSpelledBy items bytes → ∃ f : Forest, f.Whole ∧ f.length = items.length ∧
      f.height = heights items ∧ Streams f.elements bytes
  | _, _, .nil => ⟨[], trivial, rfl, rfl, .nil⟩
  | _, _, .cons head tail => by
    obtain ⟨t, hwhole, hheight, hstreams⟩ := head.exists_tree
    obtain ⟨f, hwholes, hlen, hheights, hstreams'⟩ := tail.exists_forest
    refine ⟨t :: f, ⟨hwhole, hwholes⟩, by simp [hlen], ?_, hstreams.append hstreams'⟩
    simp [Forest.height, heights, hheight, hheights]

theorem EntriesSpelledBy.exists_forest : {entries : List (Value × Value)} →
    {bytes : List UInt8} → EntriesSpelledBy entries bytes →
    ∃ f : Forest, f.Whole ∧ f.length = 2 * entries.length ∧
      f.height = entryHeights entries ∧ Streams f.elements bytes
  | _, _, .nil => ⟨[], trivial, rfl, rfl, .nil⟩
  | _, _, .cons key item tail => by
    obtain ⟨s, hwhole, hheight, hstreams⟩ := key.exists_tree
    obtain ⟨t, hwhole', hheight', hstreams'⟩ := item.exists_tree
    obtain ⟨f, hwholes, hlen, hheights, hstreams''⟩ := tail.exists_forest
    refine ⟨s :: t :: f, ⟨hwhole, hwhole', hwholes⟩, ?_, ?_,
      hstreams.append (hstreams'.append hstreams'')⟩
    · simp only [List.length_cons, hlen]
      omega
    · simp only [Forest.height, entryHeights, hheight, hheight', hheights, Nat.max_assoc]

end

/-- Twice as many values as entries are their keys and items. -/
private theorem ItemsSpelledBy.pair_up {n : Nat} : {items : List Value} → {bytes : List UInt8} →
    ItemsSpelledBy items bytes → items.length = 2 * n →
    ∃ entries, EntriesSpelledBy entries bytes ∧ entries.length = n ∧
      entryHeights entries = heights items := by
  induction n with
  | zero =>
    intro items bytes h hlen
    obtain rfl := List.length_eq_zero_iff.mp hlen
    cases h
    exact ⟨[], .nil, rfl, rfl⟩
  | succ n ih =>
    intro items bytes h hlen
    cases h with
    | nil => simp at hlen
    | @cons k _ _ _ key tail =>
      cases tail with
      | nil => simp only [List.length_cons, List.length_nil] at hlen; omega
      | @cons v _ _ _ item tail =>
        simp only [List.length_cons] at hlen
        obtain ⟨entries, hentries, hcount, hheights⟩ := ih tail (by omega)
        refine ⟨(k, v) :: entries, .cons key item hentries, by simp [hcount], ?_⟩
        simp only [entryHeights, heights, hheights, Nat.max_assoc]

mutual

/-- What streams the elements of one complete tree spells a value. -/
theorem exists_spelledBy : {t : ElementTree} → {bytes : List UInt8} → t.Whole →
    Streams t.elements bytes → ∃ v : Value, v.SpelledBy bytes ∧ v.height = t.height
  | .node head contents, _, hwhole, hstreams => by
    rw [ElementTree.elements] at hstreams
    cases hstreams with
    | @cons _ _ header data body hheader hdata htail =>
      have hscalar {v : Value} (hv : v.SpelledBy header) (hitems : head.items = 0)
          (hpayload : head.payload = 0) (hflat : v.height = if head.isContainer then 1 else 0) :
          ∃ v : Value, v.SpelledBy (header ++ (data ++ body)) ∧
            v.height = (ElementTree.node head contents).height := by
        obtain rfl : contents = [] := List.length_eq_zero_iff.mp (hwhole.1.trans hitems)
        obtain rfl := List.length_eq_zero_iff.mp (hdata.trans hpayload)
        cases htail
        refine ⟨v, ?_, ?_⟩
        · simpa using hv
        · simpa [ElementTree.height, Forest.height] using hflat
      cases head with
      | nil => exact hscalar (.nil hheader) rfl rfl rfl
      | bool b => exact hscalar (.bool hheader) rfl rfl rfl
      | uint n => exact hscalar (.uint hheader) rfl rfl rfl
      | int n => exact hscalar (.int hheader) rfl rfl rfl
      | f32 bits => exact hscalar (.f32 hheader) rfl rfl rfl
      | f64 bits => exact hscalar (.f64 hheader) rfl rfl rfl
      | raw len =>
        obtain rfl : contents = [] := List.length_eq_zero_iff.mp hwhole.1
        obtain rfl : data.length = len := hdata
        cases htail
        rw [List.append_nil]
        exact ⟨_, .raw hheader, rfl⟩
      | array len =>
        obtain rfl := List.length_eq_zero_iff.mp hdata
        obtain ⟨items, hitems, hlen, hheights⟩ := exists_itemsSpelledBy hwhole.2 htail
        obtain rfl : items.length = len := hlen.trans hwhole.1
        refine ⟨.array items, .array hheader hitems, ?_⟩
        simp [ElementTree.height, Element.isContainer, height, hheights]
      | map len =>
        obtain rfl := List.length_eq_zero_iff.mp hdata
        obtain ⟨items, hitems, hlen, hheights⟩ := exists_itemsSpelledBy hwhole.2 htail
        obtain ⟨entries, hentries, rfl, hheights'⟩ := hitems.pair_up (hlen.trans hwhole.1)
        refine ⟨.map entries, .map hheader hentries, ?_⟩
        simp [ElementTree.height, Element.isContainer, height, hheights, hheights']

theorem exists_itemsSpelledBy : {f : Forest} → {bytes : List UInt8} → f.Whole →
    Streams f.elements bytes → ∃ items, ItemsSpelledBy items bytes ∧ items.length = f.length ∧
      heights items = f.height
  | [], _, _, hstreams => by
    cases hstreams
    exact ⟨[], .nil, rfl, rfl⟩
  | t :: rest, _, hwhole, hstreams => by
    rw [Forest.elements_cons] at hstreams
    obtain ⟨first, second, rfl, hfirst, hsecond⟩ := hstreams.exists_append
    obtain ⟨v, hv, hheight⟩ := exists_spelledBy hwhole.1 hfirst
    obtain ⟨items, hitems, hlen, hheights⟩ := exists_itemsSpelledBy hwhole.2 hsecond
    refine ⟨v :: items, .cons hv hitems, by simp [hlen], ?_⟩
    simp [Forest.height, heights, hheight, hheights]

end

end MessagePack.Value
