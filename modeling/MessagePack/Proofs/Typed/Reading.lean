import MessagePack.Proofs.Typed.Reads

namespace MessagePack

open Decoding Decoder
open Wire (Element Forest ElementTree)

variable {α β : Type} {settled : Prop} {layout : Layout} {P : α → Prop}

namespace Decoder

variable {take : Offer → Decoding α} (request : Request)

/-- A destination that knows what to do with each way the session offers something reads what the
session went over for the offer and what it then reads itself. -/
theorem offer_reads
    (hleaf : request.forFields = false → ∀ o, o.FromLeaf → ∀ f, Layout.leaf f →
      Keeps (fun a => P a ∧ layout f) (take o))
    (hitems : ∀ n, Decoding.Reads settled (fun f => layout [.node (.array n) f]) false P
      (take (.seq (.wire n n))))
    (hentries : ∀ n fields, (fields.isSome → ∃ name names, request = .struct name names) →
      Decoding.Reads settled (fun f => layout [.node (.map n) f]) false P
        (take (.map (.wire n n fields))))
    (hpresent : request = .option →
      Decoding.Reads settled layout true P (take (.present .wire)))
    (hnewtype : ∀ name, request = .newtype name →
      Decoding.Reads settled layout true P (take (.newtype .wire))) :
    Decoding.Reads settled layout true P (offer request >>= take) := by
  intro d a d' hs hok
  obtain ⟨o, mid, hoffer, htake⟩ := bind_eq_ok_iff.mp hok
  cases offered_of_offer hs hoffer with
  | leaf hrequest hfrom hf hpassed hp =>
    obtain ⟨rfl, ha, hlayout⟩ := hleaf hrequest o hfrom _ hf htake
    exact ⟨ha, _, _, hlayout, hpassed, fun _ _ => hp⟩
  | @items n _ bytes hpassed hp =>
    obtain ⟨ha, f, bytes', hf, hpassed', hp'⟩ := hitems n (hpassed.sound hs) htake
    refine ⟨ha, _, bytes ++ bytes', hf, ?_, fun h _ => hp' h (.inr hp)⟩
    simpa [ElementTree.elements] using hpassed.trans hpassed'
  | @entries n fields _ bytes hpassed hp hnamed =>
    obtain ⟨ha, f, bytes', hf, hpassed', hp'⟩ := hentries n fields hnamed (hpassed.sound hs) htake
    refine ⟨ha, _, bytes ++ bytes', hf, ?_, fun h _ => hp' h (.inr hp)⟩
    simpa [ElementTree.elements] using hpassed.trans hpassed'
  | present hrequest hpassed =>
    obtain ⟨ha, f, bytes, hf, hpassed', hp⟩ := hpresent hrequest (hpassed.sound hs) htake
    exact ⟨ha, f, _, hf, hpassed.trans hpassed', fun h _ => hp h (.inl rfl)⟩
  | newtype name hrequest => exact hnewtype name hrequest hs htake

/-- A destination that takes a scalar reads one element that is no container. -/
theorem offer_reads_scalar
    (h : ∀ o, Keeps (fun a => o.IsScalar ∧ P a) (take o)) :
    Decoding.Reads settled .leaf true P (offer request >>= take) := by
  have hnever {o : Offer} {layout : Layout} {took : Bool} (ho : ¬o.IsScalar) :
      Decoding.Reads settled layout took P (take o) :=
    fun _ _ _ _ hok => absurd (h o hok).2.1 ho
  exact offer_reads request (fun _ o _ f hf => (h o).mono fun a ha => ⟨ha.2, hf⟩)
    (fun n => hnever id) (fun n fields _ => hnever id) (fun _ => hnever id) fun _ _ => hnever id

/-- Anything read whole is one complete element. -/
theorem fold_reads (f : Fold α) :
    Decoding.Reads settled .whole true (fun _ => True) (fold f) := by
  intro d a d' hs hok
  obtain ⟨-, bytes, t, -, hwhole, -, hpassed, hp, -, -⟩ :=
    (folded_of_foldLevels hs hok).exists_tree hs
  refine ⟨trivial, [t], bytes, ⟨t, hwhole, rfl⟩, ?_, fun _ _ => hp⟩
  simpa using hpassed

/-- A destination that wants a variant reads its name alone, or a map from it to the contents. -/
theorem offerVariant_reads {take : VariantOffer → Decoding α}
    (hnone : Decoding.Reads settled layout true P (take (.variant .wire none)))
    (hsome : Decoding.Reads settled (fun f => layout [.node (.map 1) f]) false P
      (take (.variant .wire (some .wire)))) :
    Decoding.Reads settled layout true P (offerVariant >>= take) := by
  intro d a d' hs hok
  obtain ⟨o, last, hoffer, htake⟩ := bind_eq_ok_iff.mp hok
  obtain ⟨marker, mid, hmarker, hrest⟩ := bind_eq_ok_iff.mp hoffer
  obtain ⟨tag, mid', hpeek, hpure⟩ := bind_eq_ok_iff.mp hmarker
  obtain ⟨rfl, rfl⟩ := pure_eq_ok_iff.mp hpure
  have hlooked := passed_peekTag hs hpeek
  have hs' := hlooked.sound hs
  split at hrest
  · obtain ⟨len, after, hlen, hrest⟩ := bind_eq_ok_iff.mp hrest
    obtain ⟨e, after', hnext, hmatch⟩ := bind_eq_ok_iff.mp hlen
    cases e with
    | map n =>
      obtain ⟨rfl, rfl⟩ := pure_eq_ok_iff.mp hmatch
      obtain ⟨header, -, hpassed, hp⟩ := passed_nextElement hs' hnext rfl
      split at hrest
      · obtain ⟨_, _, hthrow, -⟩ := bind_eq_ok_iff.mp hrest
        exact absurd hthrow throw_ne_ok
      · rename_i hone
        obtain rfl := not_not.mp hone
        obtain ⟨rfl, rfl⟩ := pure_eq_ok_iff.mp hrest
        obtain ⟨ha, f, bytes, hf, hpassed', hp'⟩ := hsome (hpassed.sound hs') htake
        refine ⟨ha, _, [] ++ (header ++ bytes), hf, ?_, fun h _ => hp' h (.inr hp)⟩
        simpa [ElementTree.elements] using hlooked.trans (hpassed.trans hpassed')
    | _ => exact absurd hmatch throw_ne_ok
  · split at hrest
    · obtain ⟨rfl, rfl⟩ := pure_eq_ok_iff.mp hrest
      obtain ⟨ha, f, bytes, hf, hpassed, hp⟩ := hnone hs' htake
      exact ⟨ha, f, _, hf, hlooked.trans hpassed, fun h _ => hp h (.inl rfl)⟩
    · obtain ⟨_, _, -, hthrow⟩ := bind_eq_ok_iff.mp hrest
      exact absurd hthrow throw_ne_ok

end Decoder

end MessagePack
