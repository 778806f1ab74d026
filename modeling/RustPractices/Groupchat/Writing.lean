import RustPractices.Groupchat.StreamAgent

/-!
# Writing to an agent, call after call

The server encodes commands to an agent and flushes it when the socket becomes writable. The
calls to an agent are a machine; within `FlushFits` each of its runs writes the frames
faithfully, and outside it a single frame can panic.

## Main definitions

* `writing`: the calls to an agent on a scripted socket
* `Faithful`: no panic, and no byte skipped or repeated
* `AnswersFit`: every call finds answers within `FlushFits`

## Main results

* `writing_faithful`: calls within `AnswersFit` write the frames faithfully
-/

open Io Transition

namespace Groupchat

/-- A call to an agent. -/
inductive Call
  | encode (cmd : Command)
  | flush
  deriving DecidableEq, Repr

/-- A call with its result, and whether the socket refused a write during it. -/
structure Returned where
  call : Call
  result : Outcome Unit
  refused : Bool
  deriving DecidableEq

namespace Call

/-- The bytes that a call adds to the write buffer. -/
def bytes : Call → List UInt8
  | .encode cmd => cmd.frame
  | .flush => []

/-- Run the call. -/
def run (call : Call) (a : StreamAgent Socket) : Outcome Unit × StreamAgent Socket :=
  match call with
  | .encode cmd => Groupchat.encode a cmd
  | .flush => a.flush

/-- The agent when the call starts to flush. -/
def buffered (call : Call) (a : StreamAgent Socket) : StreamAgent Socket :=
  { a with writer := { a.writer with buf := a.writer.buf ++ call.bytes } }

theorem run_eq_flush (call : Call) (a : StreamAgent Socket) :
    call.run a = (call.buffered a).flush := by
  cases call with
  | encode cmd => exact StreamAgent.encode_agent a cmd
  | flush => simp [run, buffered, bytes]

/-- Buffering more bytes keeps the cursor within the write buffer. -/
theorem wellPlaced_buffered (call : Call) {a : StreamAgent Socket} (h : WellPlaced a.writer) :
    WellPlaced (call.buffered a).writer := by
  rcases h with h | h
  · refine .inl ?_
    simp only [buffered, List.length_append]
    omega
  · cases hbytes : call.bytes with
    | nil =>
      refine .inr ?_
      simp only [buffered, hbytes, List.append_nil]
      exact h
    | cons b bs =>
      refine .inl ?_
      simp [buffered, hbytes, h]

theorem pending_buffered (call : Call) {a : StreamAgent Socket} (h : WellPlaced a.writer) :
    (call.buffered a).pending = a.pending ++ call.bytes := by
  have hcur : a.writer.cursor ≤ a.writer.buf.length := by
    rcases h with h | h
    · exact h.le
    · rw [h]
      simp
  simp only [buffered, StreamAgent.pending]
  rw [List.drop_append_of_le_length hcur]

end Call

/-- **The calls to an agent on a socket**, which answers by the script `answers`. -/
def writing (answers : List Answer) : Machine (StreamAgent Socket) Call Returned where
  init := StreamAgent.new { answers }
  step a call :=
    let (result, b) := call.run a
    some (b, [{ call, result, refused := decide (b.stream.refusals ≠ a.stream.refusals) }])

/-- The frames that the calls have encoded, in order. -/
def encoded (tr : List Returned) : List UInt8 := tr.flatMap fun r => r.call.bytes

/-- **The calls so far have been faithful**: no call has panicked, each byte of the frames has
been taken or is pending, once and in order, so that what the socket has taken is a prefix of the
frames, and if the last call succeeded without a refusal then the socket has taken everything. -/
structure Faithful (tr : List Returned) (a : StreamAgent Socket) : Prop where
  never_panicked : ∀ r ∈ tr, r.result ≠ panicked
  lossless : a.stream.accepted ++ a.pending = encoded tr
  in_order : a.stream.accepted <+: encoded tr
  drained : ∀ r ∈ tr.getLast?, r.result = .ok () → r.refused = false →
    a.stream.accepted = encoded tr ∧ a.writer.buf = []

/-- The call finds answers that `flush` copes with. -/
def AnswersFit (a : StreamAgent Socket) (call : Call) : Prop :=
  FlushFits a.writer.cursor (a.writer.buf ++ call.bytes).length a.stream.answers

instance (a : StreamAgent Socket) (call : Call) : Decidable (AnswersFit a call) :=
  inferInstanceAs (Decidable (FlushFits _ _ _))

/-- One call within `AnswersFit` stays faithful. -/
theorem Faithful.call {tr : List Returned} {a : StreamAgent Socket} (h : Faithful tr a)
    (hplaced : WellPlaced a.writer) {call : Call} (hfit : AnswersFit a call)
    {b : StreamAgent Socket} {out : List Returned} {answers : List Answer}
    (hstep : (writing answers).step a call = some (b, out)) :
    Faithful (tr ++ out) b ∧ WellPlaced b.writer := by
  have hkeep : Keeps (call.buffered a) (call.run a) := by
    rw [call.run_eq_flush]
    exact StreamAgent.flush_of_fits (call.wellPlaced_buffered hplaced) hfit
  obtain ⟨rfl, rfl⟩ : (call.run a).2 = b ∧
      [⟨call, (call.run a).1, decide ((call.run a).2.stream.refusals ≠ a.stream.refusals)⟩] = out := by
    simpa [writing] using hstep
  have hlossless : (call.run a).2.stream.accepted ++ (call.run a).2.pending =
      encoded tr ++ call.bytes := by
    rw [hkeep.bytes, call.pending_buffered hplaced, ← List.append_assoc]
    exact congrArg (· ++ call.bytes) h.lossless
  have hencoded : ∀ r : Returned, r.call = call →
      encoded (tr ++ [r]) = encoded tr ++ call.bytes := by
    rintro r rfl
    simp [encoded]
  refine ⟨⟨?_, ?_, ?_, ?_⟩, hkeep.placed⟩
  · intro r hr
    rcases List.mem_append.mp hr with hr | hr
    · exact h.never_panicked r hr
    · obtain rfl := List.mem_singleton.mp hr
      rw [hkeep.ok]
      simp [panicked]
  · rw [hencoded _ rfl, hlossless]
  · rw [hencoded _ rfl, ← hlossless]
    exact List.prefix_append _ _
  · intro r hr _ hrefused
    obtain rfl : _ = r := by simpa using hr
    have hempty : (call.run a).2.writer = {} :=
      hkeep.drained (by simpa [Call.buffered] using hrefused)
    have hnil : (call.run a).2.pending = [] := by simp [StreamAgent.pending, hempty]
    rw [hencoded _ rfl, ← hlossless, hnil, List.append_nil, hempty]
    exact ⟨rfl, rfl⟩

/-- **Buffered writing is faithful** along every run whose calls find answers within
`AnswersFit`. -/
theorem writing_faithful (answers : List Answer) {tr : List Returned} {a : StreamAgent Socket}
    (h : (writing answers).Run AnswersFit tr a) : Faithful tr a := by
  refine (h.invariant (P := fun tr a => Faithful tr a ∧ WellPlaced a.writer) ?_ ?_).1
  · refine ⟨⟨by simp, rfl, List.prefix_rfl, by simp⟩, .inr rfl⟩
  · rintro tr a call b out ⟨hf, hplaced⟩ hfit hstep
    exact hf.call hplaced hfit hstep

/-- A message of five bytes, of which the socket takes two and then refuses. -/
theorem writing_faithful_partial :
    ∃ tr a, (writing [.accept 2, .block]).Run AnswersFit tr a ∧ Faithful tr a ∧
      a.stream.accepted = [1, 0] := by
  have h : (writing [.accept 2, .block]).Run AnswersFit _ _ :=
    .step (a := .encode (.message "")) .init (by decide +kernel) rfl
  exact ⟨_, _, h, writing_faithful _ h, by decide +kernel⟩

/-- The same message panics when the socket takes two bytes, and then two more. -/
theorem writing_not_always_faithful :
    ¬ ∀ (answers : List Answer) (tr : List Returned) (a : StreamAgent Socket),
      (writing answers).Run Machine.unguarded tr a → Faithful tr a := by
  intro hall
  have h : (writing [.accept 2, .accept 2]).Run Machine.unguarded _ _ :=
    .step (a := .encode (.message "")) .init trivial rfl
  exact (hall _ _ _ h).never_panicked ⟨.encode (.message ""), panicked, false⟩
    (by decide +kernel) rfl

end Groupchat
