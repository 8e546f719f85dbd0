import MessagePack.Proofs.Mirror.Shape

namespace MessagePack

open Decoding Decoder

/-- Of what a session accepts, a value in memory is turned down exactly if a raw stands in it where
the type reads a tuple, a tuple struct or a timestamp; then the refusal is that of a raw. All else
is accepted, as the same. -/
theorem Value.decode_of_read (config config' : Config) {v : Value} {shape : Shape}
    (hplain : shape.Plain) {bytes : List UInt8} (hbytes : v.encode config = .ok bytes)
    {item : Item} {d : Decoder}
    (hwire : shape.read .empty .wire (new (.ofBytes bytes) config') = .ok item d) :
    (¬shape.Trips v → v.decode shape = .ok item) ∧
      (shape.Trips v → ∃ data expected,
        v.decode shape = .error (.invalidType (raw data).offerAny.found expected)) := by
  have hspelled : v.SpelledBy bytes := Value.spelledBy_of_buffered hbytes
  have hahead : (new (.ofBytes bytes) config').ahead = bytes ++ [] := by simp
  rcases shape.read_mirrorsUnless hplain (.spelled hspelled) (sound_new bytes config') hahead hwire
    with ⟨htrips, e, ⟨data, expected, rfl⟩, hthrow⟩ | ⟨hstays, a, left, hpure, ⟨rfl, -⟩, -, -⟩
  · refine ⟨fun hstays => absurd htrips hstays, fun _ => ⟨data, expected, ?_⟩⟩
    rw [Value.decode, hthrow]
    rfl
  · refine ⟨fun _ => ?_, fun htrips => absurd htrips hstays⟩
    rw [Value.decode, hpure]
    rfl

/-- The unnamed fields of a variant may be a raw in memory too. -/
theorem Value.decode_of_read_variant :
    let v : Value := .map [(.text "at", .array [.int (.ofUInt64 3), .int (.ofUInt64 4)]),
      (.text "op", .map [(.text "Move", .raw [1, 2])])]
    let shape : Shape := .struct "P" [("at", .tuple [.int .u8, .int .u8]),
      ("op", .enumeration "Op" [("Move", .tuple [.int .i8, .int .i8])])] true
    let bytes : List UInt8 := [0x82, 0xa2, 0x61, 0x74, 0x92, 0x03, 0x04, 0xa2, 0x6f, 0x70, 0x81,
      0xa4, 0x4d, 0x6f, 0x76, 0x65, 0xa2, 0x01, 0x02]
    let item : Item := .struct "P" [("at", .tuple [.int .u8 3, .int .u8 4]),
      ("op", .tupleVariant "Op" "Move" [.int .i8 1, .int .i8 2])]
    shape.Plain ∧ v.encode {} = .ok bytes ∧
      (∃ d, shape.read .empty .wire (new (.ofBytes bytes) {}) = .ok item d) ∧ ¬shape.Trips v ∧
        v.decode shape = .ok item := by
  intro v shape bytes item
  have hplain : shape.Plain := by
    simp [shape, Shape.Plain, Shape.PlainFields, Shape.PlainAll, Content.PlainAll, Content.Plain]
  have hbytes : v.encode {} = .ok bytes := by
    subst v bytes
    decide +kernel
  have hvalue : v.decode shape = .ok item := by
    subst v shape item
    rfl
  have hall : result ((shape.read .empty .wire).seen fun _ _ => ())
      (new (.ofBytes bytes) {}) = .ok () := by decide +kernel
  obtain ⟨item', d, hwire, -⟩ := exists_of_seen hall
  have hstays : ¬shape.Trips v := by
    have hat : Text.utf8 "at" = [0x61, 0x74] := by rfl
    have hop : Text.utf8 "op" = [0x6f, 0x70] := by rfl
    have hpair {kind : IntKind} {w : Value} :
        ¬w.ItemTrips (Shape.allTrips [.int kind, .int kind]) :=
      Value.not_itemTrips (by simp [Shape.allTrips, Shape.Trips])
    have hnone {entries : List (Value × Value)} {list : List (Value → Prop)} :
        ¬(Value.map entries).ItemTrips list := by
      simp [Value.ItemTrips, Value.items]
    simp [v, shape, Shape.Trips, Shape.fieldTrips, Shape.variantTrips, Content.Trips,
      Value.EntryTrips, Value.pick, Value.entries, Value.text, Value.isRaw, hat, hop, hpair, hnone]
  have haccepted : v.decode shape = .ok item' :=
    (Value.decode_of_read {} {} hplain hbytes hwire).1 hstays
  obtain rfl : item' = item := Except.ok.inj (haccepted.symm.trans hvalue)
  exact ⟨hplain, hbytes, ⟨d, hwire⟩, hstays, haccepted⟩

/-- A raw of two bytes is a pair to a session, and not in memory. -/
theorem Value.pair_only_read :
    let v : Value := .raw [1, 2]
    let shape : Shape := .tuple [.int .u8, .int .u8]
    let bytes : List UInt8 := [0xa2, 0x01, 0x02]
    shape.Plain ∧ v.encode {} = .ok bytes ∧
      (∃ d, shape.read .empty .wire (new (.ofBytes bytes) {}) =
        .ok (.tuple [.int .u8 1, .int .u8 2]) d) ∧
        ∀ item, v.decode shape ≠ .ok item := by
  intro v shape bytes
  have hplain : shape.Plain := by simp [shape, Shape.Plain, Shape.PlainAll]
  have hbytes : v.encode {} = .ok bytes := by
    subst v bytes
    decide +kernel
  have hwire : shape.read .empty .wire (new (.ofBytes bytes) {}) =
      .ok (.tuple [.int .u8 1, .int .u8 2])
        { new (.ofBytes bytes) {} with source := { rest := [], position := 3 } } := by
    subst shape bytes
    rfl
  have hvalue : v.decode shape =
      .error (.invalidType (.text "\x01\x02") "a tuple of size 2") := by
    subst v shape
    rfl
  exact ⟨hplain, hbytes, ⟨_, hwire⟩, by simp [hvalue]⟩

end MessagePack
