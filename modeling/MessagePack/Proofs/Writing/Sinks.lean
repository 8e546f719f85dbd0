import MessagePack.Codec.Samples
import MessagePack.Proofs.Writing.Direct
import MessagePack.Proofs.Writing.Writes
import Mathlib.Data.List.Infix

namespace MessagePack

namespace Sink.Call

/-- The sink took all it was offered. -/
def IsWhole (call : Call) : Prop := call.reply = .took call.offered.length

/-- The error for a call that was not taken whole. -/
def failure (call : Call) : Error :=
  match call.reply with
  | .took count => .shortWrite call.offered.length count
  | .failed fault => .io fault

variable {call : Call}

theorem taken_of_isWhole (h : call.IsWhole) : call.taken = call.offered := by
  rw [IsWhole] at h
  simp [taken, h]

theorem taken_prefix (call : Call) : call.taken <+: call.offered := by
  unfold taken
  split
  · exact List.take_prefix _ _
  · exact List.nil_prefix

end Sink.Call

open Sink (Call)

namespace Encoding

variable {α β : Type}

/-- What the encoding answers on a sink. -/
def outcome (encoding : Encoding α) (sink : Sink) : Except Error α :=
  match encoding sink with
  | .ok a _ => .ok a
  | .error e _ => .error e

/-- The sink after the encoding, however that came out. -/
def after (encoding : Encoding α) (sink : Sink) : Sink :=
  match encoding sink with
  | .ok _ sink => sink
  | .error _ sink => sink

def ofExcept : Except Error α → Encoding α
  | .ok a => pure a
  | .error e => throw e

/-- Offers some bytes after others, and ends as it is told to if the sink takes them all. -/
def perform (ending : Except Error α) : List (List UInt8) → Encoding α
  | [] => ofExcept ending
  | data :: rest => do
    Encoder.write data
    perform ending rest

theorem perform_bind {a : α} {next : α → Encoding β} {ending : Except Error β}
    {offers' : List (List UInt8)} (hnext : next a = perform ending offers')
    (offers : List (List UInt8)) :
    perform (.ok a) offers >>= next = perform ending (offers ++ offers') := by
  induction offers with
  | nil => exact hnext
  | cons data rest ih => rw [perform, bind_assoc, ih, List.cons_append, perform]

theorem perform_error_bind (e : Error) (offers : List (List UInt8)) (next : α → Encoding β) :
    perform (.error e) offers >>= next = perform (.error e) offers := by
  induction offers with
  | nil => rfl
  | cons data rest ih => rw [perform, bind_assoc, ih, perform]

/-- There is nothing more to such an encoding than the bytes that it offers and its end. -/
theorem Direct.exists_offers {encoding : Encoding α} (h : Direct encoding) :
    ∃ offers ending, encoding = perform ending offers := by
  induction h with
  | pure a => exact ⟨[], .ok a, rfl⟩
  | throw e => exact ⟨[], .error e, rfl⟩
  | write data => exact ⟨[data], .ok (), (bind_pure_unit (x := Encoder.write data)).symm⟩
  | bind head tail ih ih' =>
    obtain ⟨offers, ending, rfl⟩ := ih
    cases ending with
    | error e => exact ⟨offers, .error e, perform_error_bind e offers _⟩
    | ok a =>
      obtain ⟨offers', ending, hnext⟩ := ih' a
      exact ⟨offers ++ offers', ending, perform_bind hnext offers⟩

/-- How a run over some offers went: the calls that the sink got, in order, and the answer. Either
all offers were made and taken whole, or the last call is the first that was not taken whole. -/
inductive Ran (offers : List (List UInt8)) (ending : Except Error α) :
    List Call → Except Error α → Prop
  | through {calls : List Call} (whole : ∀ call ∈ calls, call.IsWhole)
      (offered : calls.map Call.offered = offers) : Ran offers ending calls ending
  | stopped {before : List Call} {call : Call} {rest : List (List UInt8)}
      (whole : ∀ earlier ∈ before, earlier.IsWhole) (short : ¬call.IsWhole)
      (offered : before.map Call.offered ++ call.offered :: rest = offers) :
      Ran offers ending (before ++ [call]) (.error call.failure)

namespace Ran

variable {offers : List (List UInt8)} {ending result : Except Error α} {calls : List Call}

/-- A call that was taken whole, before the others. -/
theorem cons {call : Call} (hcall : call.IsWhole) (h : Ran offers ending calls result) :
    Ran (call.offered :: offers) ending (call :: calls) result := by
  cases h with
  | through whole offered =>
    exact .through (List.forall_mem_cons.mpr ⟨hcall, whole⟩) (by rw [List.map_cons, offered])
  | @stopped before last rest whole short offered =>
    have hoffered : (call :: before).map Call.offered ++ last.offered :: rest =
        call.offered :: offers := by
      rw [List.map_cons, List.cons_append, offered]
    exact .stopped (List.forall_mem_cons.mpr ⟨hcall, whole⟩) short hoffered

private theorem flatMap_taken {calls : List Call} (h : ∀ call ∈ calls, call.IsWhole) :
    calls.flatMap Call.taken = (calls.map Call.offered).flatten := by
  rw [List.flatMap_def, List.map_congr_left fun call hcall =>
    Sink.Call.taken_of_isWhole (h call hcall)]

/-- However the run went, what was taken begins what was to be offered. -/
theorem taken_prefix (h : Ran offers ending calls result) :
    calls.flatMap Call.taken <+: offers.flatten := by
  cases h with
  | through whole offered => rw [flatMap_taken whole, offered]
  | @stopped before call rest whole short offered =>
    rw [← offered, List.flatMap_append, flatMap_taken whole, List.flatten_append,
      List.flatten_cons, List.flatMap_singleton]
    exact List.prefix_append_right_inj _ |>.mpr
      (call.taken_prefix.trans (List.prefix_append _ _))

theorem of_whole (h : Ran offers ending calls result) (hwhole : ∀ call ∈ calls, call.IsWhole) :
    result = ending ∧ calls.flatMap Call.taken = offers.flatten := by
  cases h with
  | through _ offered => exact ⟨rfl, by rw [flatMap_taken hwhole, offered]⟩
  | stopped _ short _ => exact absurd (hwhole _ (by simp)) short

theorem of_short (h : Ran offers ending calls result) {call : Call} (hcall : call ∈ calls)
    (hshort : ¬call.IsWhole) : result = .error call.failure ∧
      ∃ before, calls = before ++ [call] ∧ ∀ earlier ∈ before, earlier.IsWhole := by
  cases h with
  | through whole _ => exact absurd (whole call hcall) hshort
  | @stopped before last rest whole _ _ =>
    rcases List.mem_append.mp hcall with hbefore | hlast
    · exact absurd (whole call hbefore) hshort
    · obtain rfl := List.mem_singleton.mp hlast
      exact ⟨rfl, before, rfl, whole⟩

end Ran

/-- One offer is one call: taken whole, or the end. -/
theorem write_call (data : List UInt8) (sink : Sink) :
    ∃ (call : Call) (sink' : Sink), call.offered = data ∧ sink'.calls = call :: sink.calls ∧
      (call.IsWhole ∧ Encoder.write data sink = .ok () sink' ∨
        ¬call.IsWhole ∧ Encoder.write data sink = .error call.failure sink') := by
  cases hreply : sink.reply sink.position sink.calls data with
  | failed fault =>
    let call : Call := ⟨data, .failed fault⟩
    refine ⟨call, { sink with calls := call :: sink.calls }, rfl, rfl, .inr ⟨nofun, ?_⟩⟩
    simp only [Encoder.write, Sink.write, hreply, call, Sink.Call.failure]
  | took count =>
    let taken := min count data.length
    let call : Call := ⟨data, .took taken⟩
    have hwhole : call.IsWhole ↔ ¬taken < data.length := by
      have hle : taken ≤ data.length := Nat.min_le_right _ _
      rw [Sink.Call.IsWhole, Sink.Reply.took.injEq]
      change taken = data.length ↔ _
      omega
    refine ⟨call, { sink with position := sink.position + taken, calls := call :: sink.calls },
      rfl, rfl, ?_⟩
    rw [hwhole, not_not]
    simp only [Encoder.write, Sink.write, hreply]
    by_cases hshort : taken < data.length
    · exact .inr ⟨hshort, if_pos hshort⟩
    · exact .inl ⟨hshort, if_neg hshort⟩

/-- The run of some offers on any sink, by induction on them: as long as the calls are taken whole
there is a next one. -/
theorem perform_ran (ending : Except Error α) (offers : List (List UInt8)) (sink : Sink) :
    ∃ calls, (after (perform ending offers) sink).calls = calls.reverse ++ sink.calls ∧
      Ran offers ending calls (outcome (perform ending offers) sink) := by
  induction offers generalizing sink with
  | nil =>
    refine ⟨[], ?_, ?_⟩
    · cases ending <;> rfl
    · have hend : outcome (perform ending []) sink = ending := by cases ending <;> rfl
      rw [hend]
      exact .through nofun rfl
  | cons data rest ih =>
    obtain ⟨call, mid, rfl, hcalls, hwrite⟩ := write_call data sink
    rcases hwrite with ⟨hwhole, hok⟩ | ⟨hshort, herror⟩
    · have hafter : after (perform ending (call.offered :: rest)) sink =
          after (perform ending rest) mid := by
        simp only [after, perform, bind, EStateM.bind, hok]
      have houtcome : outcome (perform ending (call.offered :: rest)) sink =
          outcome (perform ending rest) mid := by
        simp only [outcome, perform, bind, EStateM.bind, hok]
      obtain ⟨calls, hlater, hran⟩ := ih mid
      refine ⟨call :: calls, ?_, houtcome ▸ hran.cons hwhole⟩
      rw [hafter, hlater, hcalls]
      simp
    · have hafter : after (perform ending (call.offered :: rest)) sink = mid := by
        simp only [after, perform, bind, EStateM.bind, herror]
      have houtcome : outcome (perform ending (call.offered :: rest)) sink =
          .error call.failure := by
        simp only [outcome, perform, bind, EStateM.bind, herror]
      refine ⟨[] ++ [call], ?_, houtcome ▸ .stopped nofun hshort rfl⟩
      rw [hafter, hcalls]
      rfl

/-- A sink that takes everything gets all of the offers. -/
theorem perform_takesAll (ending : Except Error α) (offers : List (List UInt8)) {sink : Sink}
    (hsink : sink.TakesAll) : outcome (perform ending offers) sink = ending ∧
      (after (perform ending offers) sink).written = sink.written ++ offers.flatten := by
  induction offers generalizing sink with
  | nil => cases ending <;> exact ⟨rfl, (List.append_nil _).symm⟩
  | cons data rest ih =>
    obtain ⟨mid, hok, hmid, hwritten⟩ := Writes.write data hsink
    obtain ⟨houtcome, hrest⟩ := ih hmid
    simp only [outcome, after, perform, bind, EStateM.bind, hok] at houtcome hrest ⊢
    refine ⟨houtcome, ?_⟩
    rw [hrest, hwritten, List.flatten_cons, List.append_assoc]

end Encoding

open Encoding

namespace Data

end Data

end MessagePack
