import MessagePack.Data.Encode
import MessagePack.Item
import MessagePack.Proofs.Writing.Value
import MessagePack.Shape.Basic

namespace MessagePack

open Wire (maxLength)

namespace Data

mutual

/-- What data is read back as. What a coder writes is no type's, so it is read over. -/
def item : Data → Item
  | bool b => .bool b
  | int kind n => .int kind n
  | f32 bits => .f32 bits
  | f64 bits => .f64 bits
  | char c => .char c
  | text s => .text s
  | bytes data => .bytes data
  | unit => .unit
  | absent => .absent
  | present content => .present content.item
  | human => .human false
  | value v => .value v
  | integer n => .integer n
  | timestamp t => .timestamp t
  | seq _ list | collectSeq _ list => .seq (items list)
  | map _ entries | collectMap _ entries => .map (itemPairs entries)
  | tuple list => .tuple (items list)
  | tupleStruct name list => .tupleStruct name (items list)
  | unitStruct name => .unitStruct name
  | newtype name content => .newtype name content.item
  | struct name fields => .struct name (itemFields fields)
  | unitVariant type variant => .unitVariant type variant
  | newtypeVariant type variant content => .newtypeVariant type variant content.item
  | tupleVariant type variant list => .tupleVariant type variant (items list)
  | structVariant type variant fields => .structVariant type variant (itemFields fields)
  | coder _ => .ignored

def items : List Data → List Item
  | [] => []
  | d :: rest => d.item :: items rest

def itemPairs : List (Data × Data) → List (Item × Item)
  | [] => []
  | (k, v) :: rest => (k.item, v.item) :: itemPairs rest

def itemFields : List (String × Data) → List (String × Item)
  | [] => []
  | (name, d) :: rest => (name, d.item) :: itemFields rest

end

variable (registry : Registry)

mutual

/-- How deep arrays and maps nest in what is written for data. A timestamp is an array only where
it has no codec, and a variant with contents is a map around them. -/
def depth : Data → Nat
  | present content => content.depth
  | value v => v.height
  | timestamp _ => if registry.contains Timestamp.typeName then 0 else 1
  | seq _ list | collectSeq _ list => depths list + 1
  | map _ entries | collectMap _ entries => depthPairs entries + 1
  | tuple list | tupleStruct _ list => depths list + 1
  | newtype _ content => content.depth
  | struct _ fields => depthFields fields + 1
  | newtypeVariant _ _ content => content.depth + 1
  | tupleVariant _ _ list => depths list + 2
  | structVariant _ _ fields => depthFields fields + 2
  | _ => 0

def depths : List Data → Nat
  | [] => 0
  | d :: rest => max d.depth (depths rest)

def depthPairs : List (Data × Data) → Nat
  | [] => 0
  | (k, v) :: rest => max (max k.depth v.depth) (depthPairs rest)

def depthFields : List (String × Data) → Nat
  | [] => 0
  | (_, d) :: rest => max d.depth (depthFields rest)

end

end Data

/-- The greatest of the heights. -/
def tallest {α : Type} (height : α → Nat) : List α → Nat
  | [] => 0
  | a :: rest => max (height a) (tallest height rest)

theorem tallest_le_iff {α : Type} {height : α → Nat} {list : List α} {limit : Nat} :
    tallest height list ≤ limit ↔ ∀ a ∈ list, height a ≤ limit := by
  induction list with
  | nil => simp [tallest]
  | cons a list ih => simp [tallest, ih]

namespace Data

theorem depths_eq_tallest (registry : Registry) (list : List Data) :
    depths registry list = tallest (depth registry) list := by
  induction list with
  | nil => rfl
  | cons d list ih => rw [depths, tallest, ih]

theorem depthPairs_eq_tallest (registry : Registry) (entries : List (Data × Data)) :
    depthPairs registry entries =
      tallest (fun entry => max (entry.1.depth registry) (entry.2.depth registry)) entries := by
  induction entries with
  | nil => rfl
  | cons entry entries ih => rw [depthPairs, tallest, ih]

theorem depthFields_eq_tallest (registry : Registry) (fields : List (String × Data)) :
    depthFields registry fields = tallest (fun field => field.2.depth registry) fields := by
  induction fields with
  | nil => rfl
  | cons field fields ih => rw [depthFields, tallest, ih]

end Data

/-- Fields with the names of their types, all different and none too long, in the same order. -/
structure FieldsMatch (fields : List (String × Data)) (shapes : List (String × Shape)) : Prop where
  size : fields.length ≤ maxLength
  names : fields.map Prod.fst = shapes.map Prod.fst
  distinct : (shapes.map Prod.fst).Nodup
  sizes : ∀ field ∈ fields, (Text.utf8 field.1).length ≤ maxLength

/-- One of the variants of a type, which have different names. -/
structure VariantOf (variants : List (String × Content)) (variant : String) (content : Content) :
    Prop where
  mem : (variant, content) ∈ variants
  distinct : (variants.map Prod.fst).Nodup
  size : (Text.utf8 variant).length ≤ maxLength

/-- The data is a value of the type, in the way that the type's own values are written: lengths are
announced truly if at all and fit 32 bits, names of types are no codec's, and what is present in an
option does not look as if it were absent. -/
inductive Fits (config : Config) (registry : Registry) : Data → Shape → Prop where
  | bool (b : Bool) : Fits config registry (.bool b) .bool
  | int {kind : IntKind} {n : Int} (narrow : kind.isWide = false) (range : kind.contains n = true) :
      Fits config registry (.int kind n) (.int kind)
  | f32 (bits : UInt32) : Fits config registry (.f32 bits) .f32
  | f64 (bits : UInt64) : Fits config registry (.f64 bits) .f64
  | char (c : Char) : Fits config registry (.char c) .char
  | text {s : String} (size : (Text.utf8 s).length ≤ maxLength) :
      Fits config registry (.text s) .text
  | bytes {data : List UInt8} (size : data.length ≤ maxLength) :
      Fits config registry (.bytes data) .bytes
  | unit : Fits config registry .unit .unit
  | value {v : Value} (sizes : v.Announceable) : Fits config registry (.value v) .value
  | integer (n : Integer) : Fits config registry (.integer n) .integer
  | timestamp (t : Timestamp) : Fits config registry (.timestamp t) .timestamp
  | absent (content : Shape) : Fits config registry .absent (.option content)
  | present {d : Data} {content : Shape} (fits : Fits config registry d content)
      (notNil : ∀ tail, Encoder.buffered (d.encode config registry) ≠ .ok (0xc0 :: tail)) :
      Fits config registry (.present d) (.option content)
  | seq {len : Option Nat} {items : List Data} {item : Shape}
      (announced : ∀ n, len = some n → n = items.length) (size : items.length ≤ maxLength)
      (fits : ∀ d ∈ items, Fits config registry d item) :
      Fits config registry (.seq len items) (.seq item)
  | collectSeq {hint : Option Nat} {items : List Data} {item : Shape}
      (announced : ∀ n, hint = some n → n = items.length) (size : items.length ≤ maxLength)
      (fits : ∀ d ∈ items, Fits config registry d item) :
      Fits config registry (.collectSeq hint items) (.seq item)
  | map {len : Option Nat} {entries : List (Data × Data)} {key item : Shape}
      (announced : ∀ n, len = some n → n = entries.length) (size : entries.length ≤ maxLength)
      (keys : ∀ entry ∈ entries, Fits config registry entry.1 key)
      (fits : ∀ entry ∈ entries, Fits config registry entry.2 item) :
      Fits config registry (.map len entries) (.map key item)
  | collectMap {hint : Option Nat} {entries : List (Data × Data)} {key item : Shape}
      (announced : ∀ n, hint = some n → n = entries.length) (size : entries.length ≤ maxLength)
      (keys : ∀ entry ∈ entries, Fits config registry entry.1 key)
      (fits : ∀ entry ∈ entries, Fits config registry entry.2 item) :
      Fits config registry (.collectMap hint entries) (.map key item)
  | tuple {items : List Data} {shapes : List Shape} (size : items.length ≤ maxLength)
      (length : items.length = shapes.length)
      (fits : ∀ d shape, (d, shape) ∈ items.zip shapes → Fits config registry d shape) :
      Fits config registry (.tuple items) (.tuple shapes)
  | tupleStruct {name : String} {items : List Data} {shapes : List Shape}
      (free : registry.get? name = none) (size : items.length ≤ maxLength)
      (length : items.length = shapes.length)
      (fits : ∀ d shape, (d, shape) ∈ items.zip shapes → Fits config registry d shape) :
      Fits config registry (.tupleStruct name items) (.tupleStruct name shapes)
  | unitStruct {name : String} (free : registry.get? name = none) :
      Fits config registry (.unitStruct name) (.unitStruct name)
  | newtype {name : String} {d : Data} {content : Shape} (free : registry.get? name = none)
      (ordinary : name ≠ Encoder.coderName) (fits : Fits config registry d content) :
      Fits config registry (.newtype name d) (.newtype name content)
  | struct {name : String} {fields : List (String × Data)} {shapes : List (String × Shape)}
      {strict : Bool} (free : registry.get? name = none) (same : FieldsMatch fields shapes)
      (fits : ∀ field shape, (field, shape) ∈ fields.zip shapes →
        Fits config registry field.2 shape.2) :
      Fits config registry (.struct name fields) (.struct name shapes strict)
  | unitVariant {type variant : String} {variants : List (String × Content)}
      (known : VariantOf variants variant .unit) :
      Fits config registry (.unitVariant type variant) (.enumeration type variants)
  | newtypeVariant {type variant : String} {variants : List (String × Content)} {d : Data}
      {content : Shape} (known : VariantOf variants variant (.newtype content))
      (fits : Fits config registry d content) :
      Fits config registry (.newtypeVariant type variant d) (.enumeration type variants)
  | tupleVariant {type variant : String} {variants : List (String × Content)} {items : List Data}
      {shapes : List Shape} (known : VariantOf variants variant (.tuple shapes))
      (size : items.length ≤ maxLength) (length : items.length = shapes.length)
      (fits : ∀ d shape, (d, shape) ∈ items.zip shapes → Fits config registry d shape) :
      Fits config registry (.tupleVariant type variant items) (.enumeration type variants)
  | structVariant {type variant : String} {variants : List (String × Content)}
      {fields : List (String × Data)} {shapes : List (String × Shape)}
      (known : VariantOf variants variant (.struct shapes))
      (same : FieldsMatch fields shapes)
      (fits : ∀ field shape, (field, shape) ∈ fields.zip shapes →
        Fits config registry field.2 shape.2) :
      Fits config registry (.structVariant type variant fields) (.enumeration type variants)

end MessagePack
