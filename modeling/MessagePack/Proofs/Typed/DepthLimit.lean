import MessagePack.Proofs.Typed.Codecs
import MessagePack.Proofs.Typed.Framing

namespace MessagePack

open Decoding Decoder
open Wire (Element Forest IsHeader Streams ElementTree)

/-- The forest is one way to see how the destination read what lies between the beginning of the
bytes and where the session has got to: a container is open while its contents are read. -/
def Shape.ReadAs (registry : Registry) (shape : Shape) (bytes : List UInt8) (d : Decoder)
    (f : Forest) : Prop :=
  shape.layout registry f ∧ ∃ taken, Streams f.elements taken ∧ bytes = taken ++ d.ahead

/-- No type is read with more containers open at once than the limit allows. -/
def Registry.KeepsLimit (registry : Registry) : Prop :=
  ∀ (shape : Shape) (bytes : List UInt8) (config : Config) (item : Item) (d : Decoder)
    (f : Forest), shape.read registry .wire (new (.ofBytes bytes) config) = .ok item d →
    shape.ReadAs registry bytes d f → f.height ≤ config.maxDepth

/-- No codec ever reads more than one element for a value. -/
def Registry.AtMostOne (registry : Registry) : Prop :=
  ∀ name codec, registry.get? name = some codec → ∀ f, codec.layout f → f.length ≤ 1

theorem Shape.exists_readAs {registry : Registry} (hframed : registry.Framed) {shape : Shape}
    {bytes : List UInt8} {config : Config} {item : Item} {d : Decoder}
    (h : shape.read registry .wire (new (.ofBytes bytes) config) = .ok item d) :
    ∃ f, shape.ReadAs registry bytes d f ∧
      ∃ next, Nesting.enterAll { limit := config.maxDepth } f.elements = .ok next := by
  have hreads : Decoding.Reads False (shape.layout registry) true (fun _ => True)
      (shape.read registry .wire) := shape.read_reads hframed nofun nofun
  obtain ⟨-, f, taken, hf, hpassed, -⟩ := hreads (sound_new bytes config) h
  exact ⟨f, ⟨hf, taken, hpassed.streams, hpassed.ahead⟩, _, hpassed.nesting⟩

/-- While every codec reads at most one element for a value, the count of elements is never ahead
of the containers that are open. -/
theorem Registry.AtMostOne.keepsLimit {registry : Registry} (hone : registry.AtMostOne)
    (hframed : registry.Framed) : registry.KeepsLimit := by
  intro shape bytes config item d f hread ⟨hf, taken, hstreams, hbytes⟩
  obtain ⟨f', ⟨-, taken', hstreams', hbytes'⟩, next, hnext⟩ := Shape.exists_readAs hframed hread
  obtain rfl := List.append_cancel_right (hbytes.symm.trans hbytes')
  rw [← hstreams.unique hstreams'] at hnext
  have hsized : registry.Sized (· ≤ ·) := by
    intro name codec hcodec f hf
    obtain ⟨d, d', v, bytes, hs, hdecode, hwhole, hpassed⟩ := hf
    exact ⟨hwhole.mono fun a b => Nat.le_of_eq,
      hone name codec hcodec f ⟨d, d', v, bytes, hs, hdecode, hwhole, hpassed⟩⟩
  obtain ⟨hthrifty, hlen⟩ := shape.sized_layout .le hsized (.inr (Nat.zero_le 1)) f hf
  match f with
  | [] => exact Nat.zero_le _
  | [t] =>
    rw [Forest.elements_cons, Forest.elements_nil, List.append_nil] at hnext
    have hheight := (Nesting.height_le_of_thrifty hthrifty.1
      (Nesting.sound_empty config.maxDepth) hnext).1
    simpa [Forest.height, Nesting.depth] using hheight
  | _ :: _ :: _ => simp at hlen

/-- There are values that nest as deep as one likes. -/
theorem Value.exists_height (n : Nat) :
    ∃ (v : Value) (bytes : List UInt8), v.SpelledBy bytes ∧ v.height = n := by
  induction n with
  | zero => exact ⟨.nil, [0xc0], .nil .nil, rfl⟩
  | succ n ih =>
    obtain ⟨v, bytes, hv, hheight⟩ := ih
    have hheader : IsHeader (.array 1) [0x91] := .fixArray (show 1 < 16 by decide)
    refine ⟨.array [v], [0x91] ++ (bytes ++ []), .array hheader (.cons hv .nil), ?_⟩
    simp [height, heights, hheight]

/-- A pair of something with a codec and anything else: enough for a codec that reads more than it
should to close the pair before the second item has come. -/
def Shape.afterCodec (name : String) : Shape := .tuple [.newtype name .ignored, .ignored]

private theorem read_afterCodec {registry : Registry} {name : String} {codec : Codec}
    (hcodec : registry.get? name = some codec) {d₀ d₁ d₂ d₃ : Decoder} {v : Value} {u : Unit}
    (hheader : nextElement d₀ = .ok (.array 2) d₁) (hdecode : codec.decode d₁ = .ok v d₂)
    (hfold : fold .ignored d₂ = .ok u d₃) :
    (Shape.afterCodec name).read registry .wire d₀ =
      .ok (.tuple [.newtype name .ignored, .ignored]) d₃ := by
  have hoffer : Input.ask registry .tuple .wire d₀ = .ok (.seq (.wire 2 2)) d₁ :=
    bind_of_ok hheader
  have hfirst : Shape.read registry (.newtype name .ignored) .wire d₁ =
      .ok (.newtype name .ignored) d₂ := by
    have hask : Input.ask registry (.newtype name) .wire d₁ = .ok (.newtype (.tree v)) d₂ := by
      simp only [Input.ask, Request.typeName?, Option.bind_some, hcodec]
      exact bind_of_ok hdecode
    exact bind_of_ok hask
  have hsecond : Shape.read registry .ignored .wire d₂ = .ok .ignored d₃ := bind_of_ok hfold
  have htuple : Items.readTuple s!"a tuple of size {2}" (Shape.readers registry
      [.newtype name .ignored, .ignored]) (.wire 2 2) d₁ =
      .ok [.newtype name .ignored, .ignored] d₃ := by
    let short (count : Nat) : Error := .invalidLength count s!"a tuple of size {2}"
    have hlast : Items.readEach short 1 (Shape.readers registry [.ignored]) (.wire 1 2) d₂ =
        .ok ([.ignored], .wire 0 2) d₃ := by
      change (Shape.read registry .ignored .wire >>= _) d₂ = _
      rw [bind_of_ok hsecond]
      rfl
    have hboth : Items.readEach short 0 (Shape.readers registry [.newtype name .ignored, .ignored])
        (.wire 2 2) d₁ = .ok ([.newtype name .ignored, .ignored], .wire 0 2) d₃ := by
      change (Shape.read registry (.newtype name .ignored) .wire >>= _) d₁ = _
      rw [bind_of_ok hfirst]
      exact bind_of_ok hlast
    exact bind_of_ok hboth
  exact (bind_of_ok hoffer).trans (bind_of_ok htuple)

/-- A codec that reads more than one element lets containers nest past the limit. -/
theorem Registry.KeepsLimit.atMostOne {registry : Registry} (hkeeps : registry.KeepsLimit)
    (hframed : registry.Framed) : registry.AtMostOne := by
  intro name codec hcodec f hf
  obtain ⟨d, d', v, x, hs, hdecode, hwhole, hpassed⟩ := hf
  by_contra hmore
  obtain ⟨w, y, hw, hdeep⟩ := Value.exists_height (f.height + 1)
  obtain ⟨t, ht, htheight, htstreams, hyields⟩ := hw.yields_fold Fold.signBlind_ignored
  have hheader : IsHeader (.array 2) [0x92] := .fixArray (show 2 < 16 by decide)
  let config : Config := { maxDepth := f.height + 1 }
  let bytes := [0x92] ++ (x ++ (y ++ []))
  have hs₀ := sound_new bytes config
  let base : Nesting := { limit := f.height + 1 }
  -- the pair is opened, and the codec's elements are taken for more than its two items
  have hopen : base.enterAll [.array 2] = .ok (base.within 2) := rfl
  obtain ⟨d₁, hfirst, hs₁, hahead₁, hnesting₁⟩ :=
    (Yields.nextElement hheader).exists_run hs₀ (ahead_new bytes config) hopen
  have hwithin : (base.within 2).Sound :=
    Nesting.sound_within (show base.depth < base.limit from Nat.succ_pos f.height) 2
  have hlavish := hwhole.lavish
  have hclosed : d₁.nesting.enterAll f.elements = .ok base := by
    have hroom : (base.within 2).depth + f.height ≤ (base.within 2).limit :=
      Nat.le_of_eq (Nat.add_comm 1 f.height)
    rw [hnesting₁, Nesting.enterAll_forest_of_lavish hlavish hwithin hroom, hwhole.count_eq,
      Nesting.counted_within (Nesting.sound_empty _) (by omega)]
    rfl
  obtain ⟨w', d₂, hdecode', hpassed'⟩ :=
    (hframed name codec hcodec).again hs hdecode hpassed hs₁ hahead₁ hclosed
  have hs₂ := hpassed'.sound hs₁
  have hnesting₂ : d₂.nesting = base := by
    have h := hpassed'.nesting
    rw [hclosed] at h
    exact (Except.ok.inj h).symm
  have hahead₂ : d₂.ahead = y ++ [] := by
    have h := hpassed'.ahead
    rw [hahead₁] at h
    exact (List.append_cancel_left h).symm
  -- so what follows may nest as deep as the limit once more, inside the pair
  have hroom : d₂.nesting.enterAll t.elements = .ok (d₂.nesting.counted 1) := by
    refine (Nesting.enterAll_whole_eq_ok_iff ht hs₂.nesting).mpr ⟨?_, rfl⟩
    rw [hnesting₂, htheight, hdeep]
    exact Nat.le_of_eq (Nat.zero_add _)
  obtain ⟨d₃, hfold, -, hahead₃, -⟩ := hyields.exists_run hs₂ hahead₂ hroom
  have hread := read_afterCodec hcodec hfirst hdecode' hfold
  have hlayout : (Shape.afterCodec name).layout registry [.node (.array 2) (f ++ [t])] := by
    refine .inr ⟨f ++ ([t] ++ []), ⟨f, _, ?_, ⟨[t], [], ⟨t, ht, rfl⟩, rfl, rfl⟩, rfl⟩, rfl⟩
    rw [Shape.layout, Registry.layout, hcodec]
    exact ⟨d, d', v, x, hs, hdecode, hwhole, hpassed⟩
  have hheight := hkeeps _ bytes config _ _ _ hread ⟨hlayout, bytes, ?_, ?_⟩
  · simp only [Forest.height, ElementTree.height, Forest.height_append, Element.isContainer,
      htheight, hdeep, config, if_true] at hheight
    omega
  · have hheader' := Streams.header hheader rfl
    simpa [bytes, ElementTree.elements, Forest.elements_append] using
      hheader'.append (hpassed'.streams.append htstreams)
  · rw [hahead₃, List.append_nil]

/-- Every successful reading is one of open and closed containers, and none goes past the limit
exactly when no codec ever reads more than one element for a value. -/
theorem Registry.keepsLimit_iff_atMostOne {registry : Registry} (hframed : registry.Framed) :
    (∀ (shape : Shape) (bytes : List UInt8) (config : Config) (item : Item) (d : Decoder),
      shape.read registry .wire (new (.ofBytes bytes) config) = .ok item d →
      ∃ f, shape.ReadAs registry bytes d f) ∧
    (registry.KeepsLimit ↔ registry.AtMostOne) := by
  refine ⟨fun shape bytes config item d hread => ?_, fun hkeeps => hkeeps.atMostOne hframed,
    fun hone => hone.keepsLimit hframed⟩
  obtain ⟨f, hf, -⟩ := Shape.exists_readAs hframed hread
  exact ⟨f, hf⟩

/-- The registry with the codec for timestamps alone, which reads two elements for a value. -/
theorem Registry.keepsLimit_default : Registry.default.Framed ∧
    (∀ (shape : Shape) (bytes : List UInt8) (config : Config) (item : Item) (d : Decoder),
      shape.read .default .wire (new (.ofBytes bytes) config) = .ok item d →
      ∃ f, shape.ReadAs .default bytes d f) ∧
    (Registry.default.KeepsLimit ↔ Registry.default.AtMostOne) :=
  ⟨framed_default, keepsLimit_iff_atMostOne framed_default⟩

/-- A timestamp closes the pair around it, so that an array in the pair counts as being outside:
two containers are open at once where the limit allows one. -/
theorem Registry.default_exceeds_limit : ∃ (item : Item) (d : Decoder) (f : Forest),
    (Shape.tuple [.timestamp, .seq (.int .u8)]).read .default .wire
      (new (.ofBytes [0x92, 0x01, 0x02, 0x91, 0x05]) { maxDepth := 1 }) = .ok item d ∧
    (Shape.tuple [.timestamp, .seq (.int .u8)]).ReadAs .default
      [0x92, 0x01, 0x02, 0x91, 0x05] d f ∧ 1 < f.height := by
  let t : Forest := [.node (.uint 1) [], .node (.uint 2) []]
  let items : Forest := [.node (.array 1) [.node (.uint 5) []]]
  have hcodec : Registry.default.get? Timestamp.typeName = some .timestamp := by
    simp [Registry.default, Registry.register, Registry.get?]
  have hone : Streams [.uint 1] [1] := .header (.posInt (show 1 < 128 by decide)) rfl
  have htwo : Streams [.uint 2] [2] := .header (.posInt (show 2 < 128 by decide)) rfl
  have htime : Codec.timestamp.decode (new (.ofBytes [1, 2]) {}) =
      .ok (.array [.ofInt64 1, .ofUInt64 2])
        { new (.ofBytes []) {} with source := { rest := [], position := 2 } } := by rfl
  have hall : result
      (((Shape.tuple [.timestamp, .seq (.int .u8)]).read .default .wire).seen fun _ d => d.ahead)
      (new (.ofBytes [0x92, 0x01, 0x02, 0x91, 0x05]) { maxDepth := 1 }) = .ok [] := by
    decide +kernel
  obtain ⟨item, d, hread, hahead⟩ := exists_of_seen hall
  refine ⟨item, d, [.node (.array 2) (t ++ items)], hread,
    ⟨?_, [0x92, 0x01, 0x02, 0x91, 0x05], ?_, by rw [hahead]; rfl⟩, by decide⟩
  · refine .inr ⟨t ++ (items ++ []), ⟨t, _, ?_, ⟨items, [], ?_, rfl, rfl⟩, rfl⟩, rfl⟩
    · rw [Shape.layout, Registry.layout, hcodec]
      exact ⟨new (.ofBytes [1, 2]) {},
        { new (.ofBytes []) {} with source := { rest := [], position := 2 } }, _, [1, 2],
        sound_new [1, 2] {}, htime, ⟨⟨rfl, trivial⟩, ⟨rfl, trivial⟩, trivial⟩,
        ⟨hone.append htwo, rfl, rfl, fun _ _ h => h, rfl⟩⟩
    · exact ⟨1, .inr ⟨_, ⟨_, [], ⟨_, rfl, rfl⟩, rfl, rfl⟩, rfl⟩⟩
  · have hpair : Streams [.array 2] [0x92] := .header (.fixArray (show 2 < 16 by decide)) rfl
    have hitems : Streams [.array 1] [0x91] := .header (.fixArray (show 1 < 16 by decide)) rfl
    have hfive : Streams [.uint 5] [5] := .header (.posInt (show 5 < 128 by decide)) rfl
    exact hpair.append (hone.append (htwo.append (hitems.append hfive)))

end MessagePack
