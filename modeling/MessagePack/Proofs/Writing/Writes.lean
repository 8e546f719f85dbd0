import MessagePack.Encoder.Capture
import MessagePack.Proofs.Wire.Header

namespace MessagePack

open Wire (Element IsHeader maxLength)

namespace Sink

/-- The sink takes all it is offered, however often that is. -/
def TakesAll (sink : Sink) : Prop :=
  ∀ position calls data, ∃ count,
    sink.reply position calls data = .took count ∧ data.length ≤ count

theorem takesAll_unlimited : unlimited.TakesAll := by
  intro position calls data
  exact ⟨data.length, rfl, Nat.le_refl _⟩

theorem foldl_taken (calls : List Call) (rest : List UInt8) :
    calls.foldl (fun rest call => call.taken ++ rest) rest =
      calls.reverse.flatMap Call.taken ++ rest := by
  induction calls generalizing rest with
  | nil => rfl
  | cons call calls ih => simp [ih]

/-- What has been written is what the calls took, the latest of them last. -/
theorem written_eq (sink : Sink) : sink.written = sink.calls.reverse.flatMap Call.taken := by
  rw [written, foldl_taken, List.append_nil]

theorem TakesAll.write {sink : Sink} (h : sink.TakesAll) (data : List UInt8) :
    ∃ sink', sink.write data = (.took data.length, sink') ∧ sink'.TakesAll ∧
      sink'.written = sink.written ++ data := by
  obtain ⟨count, hreply, hcount⟩ := h sink.position sink.calls data
  have hmin : min count data.length = data.length := Nat.min_eq_right hcount
  simp only [Sink.write, hreply, hmin]
  refine ⟨_, rfl, h, ?_⟩
  simp [written_eq, Call.taken]

end Sink

/-- The encoding comes out well on every sink that takes everything, and hands it these bytes. -/
def Encoding.Writes (encoding : Encoding Unit) (bytes : List UInt8) : Prop :=
  ∀ ⦃sink : Sink⦄, sink.TakesAll → ∃ sink', encoding sink = .ok () sink' ∧ sink'.TakesAll ∧
    sink'.written = sink.written ++ bytes

namespace Encoding.Writes

variable {encoding first second : Encoding Unit} {bytes bytes' : List UInt8} {config : Config}

theorem nothing : Writes (pure ()) [] := by
  intro sink hsink
  refine ⟨sink, rfl, hsink, ?_⟩
  simp

theorem bind (h : Writes first bytes) (h' : Writes second bytes') :
    Writes (first >>= fun _ => second) (bytes ++ bytes') := by
  intro sink hsink
  obtain ⟨mid, hfirst, hmid, hwritten⟩ := h hsink
  obtain ⟨last, hsecond, hlast, hwritten'⟩ := h' hmid
  refine ⟨last, ?_, hlast, ?_⟩
  · simp only [Bind.bind, EStateM.bind, hfirst, hsecond]
  · rw [hwritten', hwritten, List.append_assoc]

theorem write (data : List UInt8) : Writes (Encoder.write data) data := by
  intro sink hsink
  obtain ⟨sink', hwrite, hsink', hwritten⟩ := hsink.write data
  refine ⟨sink', ?_, hsink', hwritten⟩
  simp [Encoder.write, hwrite]

/-- The rest of a header: its bytes in one offer, unless there are none. -/
theorem rest (data : List UInt8) :
    Writes (if data.isEmpty then pure () else Encoder.write data) data := by
  by_cases hempty : data = []
  · subst hempty
    exact nothing
  · rw [if_neg (by simpa using hempty)]
    exact write data

/-- The bytes that are left to the side. -/
theorem buffered (h : Writes encoding bytes) : Encoder.buffered encoding = .ok bytes := by
  obtain ⟨sink', hencoding, -, hwritten⟩ := h Sink.takesAll_unlimited
  have hnone : Sink.unlimited.written = [] := rfl
  rw [hnone, List.nil_append] at hwritten
  simp only [Encoder.buffered, hencoding, hwritten]

theorem unique (h : Writes encoding bytes) (h' : Writes encoding bytes') : bytes = bytes' :=
  Except.ok.inj (h.buffered.symm.trans h'.buffered)

/-- Whatever is written to the side first comes after its header all the same. -/
theorem afterwards {header body : Encoding Unit} (h : Writes header bytes)
    (h' : Writes body bytes') :
    Writes (Encoder.afterwards header (Encoder.buffered body)) (bytes ++ bytes') := by
  rw [h'.buffered]
  exact h.bind (rest bytes')

/-- An element that is no length, or none too long, is written as a header that announces it. -/
theorem exists_element (config : Config) {e : Element} (h : e.length ≤ maxLength) :
    ∃ header, IsHeader (e.announced config.intPolicy) header ∧
      Writes (Encoder.element config e) header := by
  obtain ⟨header, hheader⟩ := Wire.exists_header config.intPolicy h
  refine ⟨header, Wire.isHeader_header? hheader, ?_⟩
  simp only [Encoder.element, hheader]
  exact write header

/-- The bytes of a raw follow its header. -/
theorem payload {data header : List UInt8}
    (h : Writes (Encoder.element config (.raw data.length)) header) :
    Writes (Encoder.bytes config data) (header ++ data) :=
  h.bind (rest data)

theorem exists_bytes (config : Config) {data : List UInt8} (h : data.length ≤ maxLength) :
    ∃ header, IsHeader (.raw data.length) header ∧
      Writes (Encoder.bytes config data) (header ++ data) := by
  obtain ⟨header, hheader, hwrites⟩ := exists_element config (e := .raw data.length) h
  exact ⟨header, hheader, payload hwrites⟩

end Encoding.Writes

end MessagePack
