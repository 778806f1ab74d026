import RustPractices.Groupchat.AsyncStream
import RustPractices.Groupchat.StreamAgent
import RustPractices.Transition.Machine
import Mathlib.Data.Stream.Defs

/-!
# Writing to the asynchronous agent

The asynchronous agent is a sink: `start_send` appends a frame to the write buffer, and `poll_flush`
offers the write buffer to the stream until it is empty, the stream is not ready, or it fails. The
cursor survives a stream that is not ready.

As in the blocking agent, the slice is advanced by the cursor of the whole buffer: after the second
write behind a positive cursor it is ahead of the cursor. Unlike there, a stream that takes nothing
does not end the loop, so that it offers the same bytes again without end. `WritesFit` is the
condition under which a call of `poll_flush` gets to neither.

## Main definitions

* `AsyncStreamAgent.startSend`, `AsyncStreamAgent.pollFlush`: the sink
* `Outlet`: an asynchronous writer whose behaviour is a script
* `WritesFit`: the answers of the writer that `poll_flush` copes with
* `asyncWriting`: the calls to an agent on a scripted writer, as a machine

## Main results

* `pollFlush_of_fits`: a call within `WritesFit` returns and loses nothing
* `pollFlush_keeps_iff_fits`: `WritesFit` is exact, over all contents of the write buffer
* `asyncWriting_faithful`: calls within `WritesFit` write the frames faithfully
* `pollFlush_endless`: a call that does not return
-/

open Io Transition

namespace Groupchat

universe u

/-- **An asynchronous writer**: `pollWrite` offers bytes and is told how many were taken. -/
class AsyncWrite (S : Type u) where
  pollWrite : S → List UInt8 → Poll (Outcome ℕ) × S
  pollFlush : S → Poll (Outcome Unit) × S

/-- `AgentAsyncWriter::clear`. -/
def AgentAsyncWriter.clear (_ : AgentAsyncWriter) : AgentAsyncWriter := { buf := [], cursor := 0 }

namespace AsyncStreamAgent

variable {S : Type u}

/-- `Sink::start_send`. -/
def startSend (a : AsyncStreamAgent S) (item : Command) : Outcome Unit × AsyncStreamAgent S :=
  let (result, buf) := encode a.writer.buf item
  (result, { a with writer := { a.writer with buf } })

/-- The loop of `poll_flush` on the slice `buf` of the write buffer, and what follows it, with at most
`fuel` calls of `poll_write`. After a write the cursor of the whole buffer is taken as an offset
into the slice. -/
def flushLoop [AsyncWrite S] (fuel : ℕ) (a : AsyncStreamAgent S) (buf : List UInt8) :
    Option (Poll (Outcome Unit) × AsyncStreamAgent S) :=
  if buf = [] then
    let (result, stream) := AsyncWrite.pollFlush a.stream
    some (result, { stream, writer := a.writer.clear })
  else
    match fuel with
    | 0 => none
    | fuel + 1 =>
      match AsyncWrite.pollWrite a.stream buf with
      | (.pending, stream) => some (.pending, { a with stream })
      | (.ready (.error e), stream) => some (.ready (.error e), { a with stream })
      | (.ready (.ok n), stream) =>
        let cursor := a.writer.cursor + n
        let a := { stream, writer := { a.writer with cursor } }
        -- `buf` has been cut before: the whole cursor is cut off once more
        if cursor ≤ buf.length then flushLoop fuel a (buf.drop cursor)
        -- the slice begins behind its end
        else some (.ready panicked, a)

/-- `Sink::poll_flush`, where it returns after at most `fuel` calls of `poll_write`. -/
def pollFlush [AsyncWrite S] (fuel : ℕ) (a : AsyncStreamAgent S) :
    Option (Poll (Outcome Unit) × AsyncStreamAgent S) :=
  if a.writer.cursor ≤ a.writer.buf.length then
    a.flushLoop fuel (a.writer.buf.drop a.writer.cursor)
  else some (.ready panicked, a)

/-- More calls of `poll_write` than it needs do not change the loop. -/
theorem flushLoop_of_le [AsyncWrite S] {fuel fuel' : ℕ} {a : AsyncStreamAgent S} {buf : List UInt8}
    {r : Poll (Outcome Unit) × AsyncStreamAgent S} (h : a.flushLoop fuel buf = some r)
    (hle : fuel ≤ fuel') : a.flushLoop fuel' buf = some r := by
  induction fuel generalizing fuel' a buf with
  | zero =>
    rw [flushLoop.eq_def] at h ⊢
    split_ifs at h ⊢
    exact h
  | succ fuel ih =>
    obtain ⟨more, rfl⟩ := Nat.exists_eq_add_of_le' (Nat.one_le_of_lt hle)
    rw [flushLoop.eq_def] at h ⊢
    split_ifs at h ⊢
    · exact h
    · dsimp only at h ⊢
      split
      · next hwrite => simpa only [hwrite] using h
      · next hwrite => simpa only [hwrite] using h
      · next hwrite =>
        simp only [hwrite] at h
        split_ifs at h ⊢
        · exact ih h (by omega)
        · exact h

/-- The result of `poll_flush` does not depend on how many calls of `poll_write` are allowed for. -/
theorem pollFlush_unique [AsyncWrite S] {fuel fuel' : ℕ} {a : AsyncStreamAgent S}
    {r r' : Poll (Outcome Unit) × AsyncStreamAgent S} (h : a.pollFlush fuel = some r)
    (h' : a.pollFlush fuel' = some r') : r = r' := by
  unfold pollFlush at h h'
  split_ifs at h h'
  · have hmore := flushLoop_of_le h (le_max_left fuel fuel')
    rw [flushLoop_of_le h' (le_max_right fuel fuel')] at hmore
    exact (Option.some.inj hmore).symm
  · exact Option.some.inj (h.symm.trans h')

/-- The bytes that the stream has still to take. -/
def pending (a : AsyncStreamAgent S) : List UInt8 := a.writer.buf.drop a.writer.cursor

theorem startSend_eq (a : AsyncStreamAgent S) (item : Command) : a.startSend item =
    (.ok (), { a with writer := { a.writer with buf := a.writer.buf ++ item.frame } }) := by
  rw [startSend, encode_vec]

end AsyncStreamAgent

/-! ## A scripted writer -/

/-- How a writer answers a `poll_write`: it takes at most `k` bytes, it is not ready, or it fails. -/
inductive WriteAnswer
  | ready (k : ℕ)
  | pending
  | failed (kind : ErrorKind)
  deriving DecidableEq, Repr

/-- **An asynchronous writer** with a script: how it answers each `poll_write` and each `poll_flush`,
and the bytes it has taken. -/
structure Outlet where
  answers : Stream' WriteAnswer
  flushes : Stream' (Poll (Except ErrorKind Unit))
  accepted : List UInt8 := []

namespace Outlet

def pollWrite (s : Outlet) (buf : List UInt8) : Poll (Outcome ℕ) × Outlet :=
  match s.answers.head with
  | .ready k =>
    (.ready (.ok (min k buf.length)),
      { s with answers := s.answers.tail, accepted := s.accepted ++ buf.take (min k buf.length) })
  | .pending => (.pending, { s with answers := s.answers.tail })
  | .failed kind => (.ready (err kind), { s with answers := s.answers.tail })

def pollFlush (s : Outlet) : Poll (Outcome Unit) × Outlet :=
  match s.flushes.head with
  | .ready (.ok ()) => (.ready (.ok ()), { s with flushes := s.flushes.tail })
  | .ready (.error kind) => (.ready (err kind), { s with flushes := s.flushes.tail })
  | .pending => (.pending, { s with flushes := s.flushes.tail })

instance : AsyncWrite Outlet := ⟨pollWrite, pollFlush⟩

/-- Flushing takes no bytes and does not panic. -/
theorem pollFlush_cases (s : Outlet) :
    s.pollFlush.1 ≠ .ready panicked ∧ s.pollFlush.2.accepted = s.accepted := by
  unfold pollFlush
  split
  · exact ⟨by simp [panicked], rfl⟩
  · exact ⟨by simp [panicked, err], rfl⟩
  · exact ⟨by simp, rfl⟩

end Outlet

/-! ## What `poll_flush` copes with -/

/-- **The answers that `poll_flush` copes with**, from a cursor, with a slice of `len` bytes that is
`ahead` of the cursor: the writer is not ready or fails; or it takes all at once; or it takes some,
in a slice that is not ahead, or nothing, and the loop goes on with a slice that is not empty. -/
inductive WritesFit : (cursor ahead len : ℕ) → Stream' WriteAnswer → Prop
  | stops {cursor ahead len : ℕ} {answers : Stream' WriteAnswer} :
      (∀ k, answers.head ≠ .ready k) → WritesFit cursor ahead len answers
  | takesAll {len k : ℕ} {answers : Stream' WriteAnswer} :
      answers.head = .ready k → len ≤ k → WritesFit 0 0 len answers
  | takes {cursor ahead len k : ℕ} {answers : Stream' WriteAnswer} :
      answers.head = .ready k → ahead = 0 ∨ min k len = 0 → cursor + min k len < len →
        WritesFit (cursor + min k len) (cursor + ahead) (len - (cursor + min k len)) answers.tail →
          WritesFit cursor ahead len answers

/-- The cursor is within the write buffer, which is cleared when the stream has taken it all. -/
def AgentAsyncWriter.WellPlaced (w : AgentAsyncWriter) : Prop := w.cursor < w.buf.length ∨ w = {}

namespace AsyncStreamAgent

/-- **A call of `poll_flush` keeps the bytes**: it does not panic, each byte that was pending is taken
or still pending, once and in order, and if it is ready without an error then nothing is pending. -/
structure Keeps (a : AsyncStreamAgent Outlet) (r : Poll (Outcome Unit) × AsyncStreamAgent Outlet) :
    Prop where
  returns : r.1 ≠ .ready panicked
  bytes : r.2.stream.accepted ++ r.2.pending = a.stream.accepted ++ a.pending
  placed : r.2.writer.WellPlaced
  drained : r.1 = .ready (.ok ()) → r.2.writer = {}

variable {a : AsyncStreamAgent Outlet} {buf : List UInt8} {fuel k : ℕ}

/-- The end of the loop. -/
theorem flushLoop_nil (fuel : ℕ) (a : AsyncStreamAgent Outlet) : a.flushLoop fuel [] =
    some (a.stream.pollFlush.1, { stream := a.stream.pollFlush.2, writer := {} }) := by
  rw [flushLoop.eq_def, if_pos rfl]
  rfl

/-- A writer that is not ready or fails ends the call and leaves the agent as it is. -/
theorem flushLoop_of_stops (hbuf : buf ≠ []) (h : ∀ k, a.stream.answers.head ≠ .ready k) :
    ∃ result, a.flushLoop (fuel + 1) buf =
        some (result, { a with stream := { a.stream with answers := a.stream.answers.tail } }) ∧
      result ≠ .ready panicked ∧ result ≠ .ready (.ok ()) := by
  have hwrite : AsyncWrite.pollWrite a.stream buf = a.stream.pollWrite buf := rfl
  rw [flushLoop.eq_def, if_neg hbuf, hwrite]
  dsimp only
  unfold Outlet.pollWrite
  cases hans : a.stream.answers.head with
  | ready k => exact absurd hans (h k)
  | pending => exact ⟨.pending, rfl, by simp, by simp⟩
  | failed kind => exact ⟨.ready (err kind), rfl, by simp [err, panicked], by simp [err]⟩

/-- The agent after a write that takes `n` bytes of the slice `buf`. -/
def afterWrite (a : AsyncStreamAgent Outlet) (buf : List UInt8) (n : ℕ) :
    AsyncStreamAgent Outlet where
  stream := { a.stream with
    answers := a.stream.answers.tail
    accepted := a.stream.accepted ++ buf.take n }
  writer := { a.writer with cursor := a.writer.cursor + n }

/-- A write moves the cursor, and the slice by the cursor. -/
theorem flushLoop_of_ready (hbuf : buf ≠ []) (h : a.stream.answers.head = .ready k) :
    a.flushLoop (fuel + 1) buf =
      if a.writer.cursor + min k buf.length ≤ buf.length then
        (a.afterWrite buf (min k buf.length)).flushLoop fuel
          (buf.drop (a.writer.cursor + min k buf.length))
      else some (.ready panicked, a.afterWrite buf (min k buf.length)) := by
  have hwrite : AsyncWrite.pollWrite a.stream buf = (.ready (.ok (min k buf.length)),
      (a.afterWrite buf (min k buf.length)).stream) := by
    change Outlet.pollWrite a.stream buf = _
    rw [Outlet.pollWrite, h]
    rfl
  rw [flushLoop.eq_def, if_neg hbuf]
  dsimp only
  rw [hwrite]
  rfl

/-- Whatever the loop does, it only adds to what the writer has taken. -/
theorem accepted_prefix_flushLoop {r : Poll (Outcome Unit) × AsyncStreamAgent Outlet}
    (h : a.flushLoop fuel buf = some r) : a.stream.accepted <+: r.2.stream.accepted := by
  induction fuel generalizing a buf with
  | zero =>
    by_cases hbuf : buf = []
    · rw [hbuf, flushLoop_nil] at h
      obtain rfl := Option.some.inj h
      rw [(Outlet.pollFlush_cases a.stream).2]
    · rw [flushLoop.eq_def, if_neg hbuf] at h
      simp at h
  | succ fuel ih =>
    by_cases hbuf : buf = []
    · rw [hbuf, flushLoop_nil] at h
      obtain rfl := Option.some.inj h
      rw [(Outlet.pollFlush_cases a.stream).2]
    by_cases hans : ∃ k, a.stream.answers.head = .ready k
    · obtain ⟨k, hans⟩ := hans
      have hstep : a.stream.accepted <+: (a.afterWrite buf (min k buf.length)).stream.accepted :=
        List.prefix_append _ _
      rw [flushLoop_of_ready hbuf hans] at h
      split_ifs at h
      · exact hstep.trans (ih h)
      · obtain rfl := Option.some.inj h
        exact hstep
    · obtain ⟨result, heq, -⟩ := @flushLoop_of_stops a buf fuel hbuf (not_exists.mp hans)
      rw [heq] at h
      obtain rfl := Option.some.inj h
      exact List.prefix_rfl

/-! ### Calls that keep the bytes -/

/-- After a write from a slice that is not ahead of the cursor, or of nothing, each byte is taken or
still pending. -/
theorem afterWrite_bytes {ahead n : ℕ} (h : ahead = 0 ∨ n = 0) :
    (a.afterWrite (a.writer.buf.drop (a.writer.cursor + ahead)) n).stream.accepted ++
      (a.afterWrite (a.writer.buf.drop (a.writer.cursor + ahead)) n).pending =
        a.stream.accepted ++ a.pending := by
  rcases h with rfl | rfl
  · simp only [afterWrite, pending, Nat.add_zero, List.append_assoc, ← List.drop_drop,
      List.take_append_drop]
  · simp [afterWrite, pending]

/-- The loop goes on with a slice that is ahead of the cursor by what the cursor was. -/
theorem drop_afterWrite {ahead n : ℕ} :
    (a.writer.buf.drop (a.writer.cursor + ahead)).drop (a.writer.cursor + n) =
      (a.afterWrite buf n).writer.buf.drop
        ((a.afterWrite buf n).writer.cursor + (a.writer.cursor + ahead)) := by
  rw [List.drop_drop]
  simp only [afterWrite]
  congr 1
  omega

/-- **A loop within `WritesFit` returns and keeps the bytes**, whatever they are. -/
theorem exists_fuel_of_fits {cursor ahead len : ℕ} {answers : Stream' WriteAnswer}
    (h : WritesFit cursor ahead len answers) (hlen : 0 < len) :
    ∃ fuel, ∀ a : AsyncStreamAgent Outlet, a.stream.answers = answers → a.writer.cursor = cursor →
      a.writer.buf.length = cursor + ahead + len →
        ∃ r, a.flushLoop fuel (a.writer.buf.drop (cursor + ahead)) = some r ∧ a.Keeps r := by
  induction h with
  | @stops cursor ahead len answers hstops =>
    refine ⟨1, fun a hans hcur hbuf => ?_⟩
    have hne : a.writer.buf.drop (cursor + ahead) ≠ [] := by
      rw [← List.length_pos_iff, List.length_drop]
      omega
    obtain ⟨result, heq, hpanic, hok⟩ := @flushLoop_of_stops a _ 0 hne (hans ▸ hstops)
    refine ⟨_, heq, hpanic, rfl, .inl ?_, fun hr => absurd hr hok⟩
    dsimp only
    omega
  | @takesAll len k answers hans hall =>
    refine ⟨1, fun a hanswers hcur hbuf => ?_⟩
    subst hanswers
    have hlength : (a.writer.buf.drop (0 + 0)).length = len := by
      rw [List.length_drop]
      omega
    have hne : a.writer.buf.drop (0 + 0) ≠ [] := by
      rw [← List.length_pos_iff]
      omega
    have hend : (a.writer.buf.drop (0 + 0)).drop (a.writer.cursor + min k len) = [] := by
      rw [List.drop_eq_nil_iff]
      omega
    rw [flushLoop_of_ready hne hans, hlength, if_pos (by omega), hend, flushLoop_nil]
    obtain ⟨hpanic, haccepted⟩ := Outlet.pollFlush_cases
      (a.afterWrite (a.writer.buf.drop (0 + 0)) (min k len)).stream
    refine ⟨_, rfl, hpanic, ?_, .inr rfl, fun _ => rfl⟩
    dsimp only
    rw [haccepted]
    have hmin : min k len = a.writer.buf.length := by omega
    simp [afterWrite, pending, hcur, hmin]
  | @takes cursor ahead len k answers hans haligned hroom _ ih =>
    obtain ⟨fuel, ih⟩ := ih (by omega)
    refine ⟨fuel + 1, fun a hanswers hcur hbuf => ?_⟩
    subst hanswers hcur
    have hlength : (a.writer.buf.drop (a.writer.cursor + ahead)).length = len := by
      rw [List.length_drop]
      omega
    have hne : a.writer.buf.drop (a.writer.cursor + ahead) ≠ [] := by
      rw [← List.length_pos_iff]
      omega
    -- the next slice is ahead by the cursor of now, for which `WritesFit` has a place
    set b := a.afterWrite (a.writer.buf.drop (a.writer.cursor + ahead)) (min k len) with hb
    obtain ⟨r, hr, hkeep⟩ := ih b rfl rfl (by simp only [hb, afterWrite]; omega)
    refine ⟨r, ?_, hkeep.returns, hkeep.bytes.trans (afterWrite_bytes haligned), hkeep.placed,
      hkeep.drained⟩
    rw [flushLoop_of_ready hne hans, hlength, if_pos hroom.le, drop_afterWrite]
    exact hr

/-- **A call of `poll_flush` within `WritesFit` returns and keeps the bytes.** -/
theorem pollFlush_of_fits (hplaced : a.writer.WellPlaced)
    (h : a.pending = [] ∨ WritesFit a.writer.cursor 0 a.pending.length a.stream.answers) :
    ∃ fuel r, a.pollFlush fuel = some r ∧ a.Keeps r := by
  rcases hplaced with hcur | hempty
  · have hlen : a.pending.length = a.writer.buf.length - a.writer.cursor := List.length_drop
    have hfit := h.resolve_left fun hnil => by
      rw [hnil, List.length_nil] at hlen
      omega
    obtain ⟨fuel, hall⟩ := exists_fuel_of_fits hfit (by omega)
    obtain ⟨r, hr, hkeep⟩ := hall a rfl rfl (by omega)
    refine ⟨fuel, r, ?_, hkeep⟩
    rw [pollFlush, if_pos hcur.le]
    exact hr
  · obtain ⟨stream, writer⟩ := a
    obtain rfl : writer = {} := hempty
    obtain ⟨hpanic, haccepted⟩ := Outlet.pollFlush_cases stream
    refine ⟨0, (stream.pollFlush.1, { stream := stream.pollFlush.2, writer := {} }), ?_, hpanic, ?_,
      .inr rfl, fun _ => rfl⟩
    · rw [pollFlush, if_pos (by simp)]
      exact flushLoop_nil 0 _
    · dsimp only [pending]
      rw [haccepted]

/-! ### Calls that do not

Outside `WritesFit` the loop goes on without end, or it panics, or ends with bytes it has not offered,
or offers bytes from the wrong place. A write buffer with one marked byte, the next one to be
taken, shows the latter. -/

/-- The writer does not take other bytes in the place of the marked one. -/
theorem aligned_of_keeps {ahead len n : ℕ} {r : Poll (Outcome Unit) × AsyncStreamAgent Outlet}
    (hbuf : a.writer.buf = StreamAgent.marked (a.writer.cursor + ahead + len) a.writer.cursor)
    (hn : n ≤ len) (hkeep : a.Keeps r)
    (htaken : (a.afterWrite (a.writer.buf.drop (a.writer.cursor + ahead)) n).stream.accepted <+:
      r.2.stream.accepted) : ahead = 0 ∨ n = 0 := by
  by_contra hnot
  obtain ⟨hahead, hpos⟩ := not_or.mp hnot
  have hpre : a.stream.accepted ++ (a.writer.buf.drop (a.writer.cursor + ahead)).take n <+:
      a.stream.accepted ++ a.pending :=
    (htaken.trans (List.prefix_append _ r.2.pending)).trans (by rw [hkeep.bytes])
  rw [List.prefix_append_right_inj] at hpre
  -- the first byte taken is not the marked one, which is the next one pending
  have htook : ((a.writer.buf.drop (a.writer.cursor + ahead)).take n)[0]? = some 0 := by
    rw [List.getElem?_take, if_pos (by omega), List.getElem?_drop, hbuf,
      StreamAgent.getElem?_marked (by omega), if_neg (by omega)]
  have hnext : a.pending[0]? = some 1 := by
    rw [pending, List.getElem?_drop, hbuf, StreamAgent.getElem?_marked (by omega),
      if_pos (Nat.add_zero _).symm]
  obtain ⟨rest, hrest⟩ := hpre
  rw [← hrest, List.getElem?_append_left (List.getElem?_eq_some_iff.mp htook).1, htook] at hnext
  exact absurd hnext (by decide)

/-- Where every content of the write buffer is kept, the answers fit. -/
theorem fits_of_keeps {cursor ahead len : ℕ} {answers : Stream' WriteAnswer} (hlen : 0 < len)
    (h : ∀ buf, buf.length = cursor + ahead + len → ∃ a : AsyncStreamAgent Outlet,
      a.stream.answers = answers ∧ a.writer = { buf, cursor } ∧
        ∃ r, a.flushLoop fuel (buf.drop (cursor + ahead)) = some r ∧ a.Keeps r) :
    WritesFit cursor ahead len answers := by
  induction fuel generalizing cursor ahead len answers with
  | zero =>
    obtain ⟨a, -, -, r, hr, -⟩ := h _ (StreamAgent.length_marked _ cursor)
    have hne : (StreamAgent.marked (cursor + ahead + len) cursor).drop (cursor + ahead) ≠ [] := by
      rw [← List.length_pos_iff, List.length_drop, StreamAgent.length_marked]
      omega
    rw [flushLoop.eq_def, if_neg hne] at hr
    simp at hr
  | succ fuel ih =>
    by_cases hstops : ∀ k, answers.head ≠ .ready k
    · exact .stops hstops
    obtain ⟨k, hans⟩ := not_forall_not.mp hstops
    have hcall : ∀ buf : List UInt8, buf.length = cursor + ahead + len →
        ∃ a : AsyncStreamAgent Outlet, a.stream.answers = answers ∧ a.writer = { buf, cursor } ∧
          ∃ r, (if cursor + min k len ≤ len then
            (a.afterWrite (buf.drop (cursor + ahead)) (min k len)).flushLoop fuel
              ((buf.drop (cursor + ahead)).drop (cursor + min k len))
            else some (.ready panicked, a.afterWrite (buf.drop (cursor + ahead)) (min k len))) =
              some r ∧ a.Keeps r := by
      intro buf hbuf
      obtain ⟨a, hanswers, hwriter, r, hr, hkeep⟩ := h buf hbuf
      have hlength : (buf.drop (cursor + ahead)).length = len := by
        rw [List.length_drop]
        omega
      have hne : buf.drop (cursor + ahead) ≠ [] := by
        rw [← List.length_pos_iff]
        omega
      rw [flushLoop_of_ready hne (by rw [hanswers]; exact hans), hlength, hwriter] at hr
      exact ⟨a, hanswers, hwriter, r, hr, hkeep⟩
    obtain ⟨a, hanswers, hwriter, r, hr, hkeep⟩ := hcall _ (StreamAgent.length_marked _ cursor)
    have hlength : a.pending.length = ahead + len := by
      rw [pending, hwriter, List.length_drop]
      dsimp only
      rw [StreamAgent.length_marked]
      omega
    split_ifs at hr with hroom
    swap
    · obtain rfl := Option.some.inj hr
      exact absurd rfl hkeep.returns
    rcases Nat.eq_or_lt_of_le hroom with hend | hmore
    · -- the slice is empty: the loop ends and clears the bytes that are left
      have hnil : ((StreamAgent.marked (cursor + ahead + len) cursor).drop (cursor + ahead)).drop
          (cursor + min k len) = [] := by
        rw [List.drop_eq_nil_iff, List.length_drop, StreamAgent.length_marked]
        omega
      rw [hnil, flushLoop_nil] at hr
      obtain rfl := Option.some.inj hr
      have hbytes := congrArg List.length hkeep.bytes
      rw [(Outlet.pollFlush_cases _).2] at hbytes
      simp only [afterWrite, pending, List.drop_nil, List.append_nil, List.length_append,
        List.length_take, List.length_drop, StreamAgent.length_marked] at hbytes
      simp only [pending, List.length_drop] at hlength
      obtain ⟨rfl, rfl⟩ : cursor = 0 ∧ ahead = 0 := by omega
      exact .takesAll hans (by omega)
    · -- the loop goes on, and what the writer has taken from the wrong place stays taken
      have htaken := accepted_prefix_flushLoop hr
      have haligned : ahead = 0 ∨ min k len = 0 := by
        refine @aligned_of_keeps a ahead len (min k len) r ?_ (by omega) hkeep ?_
        · rw [hwriter]
        · rw [hwriter]
          exact htaken
      refine .takes hans haligned hmore (ih (by omega) fun buf hbuf => ?_)
      obtain ⟨b, hanswers, hwriter, r, hr, hkeep⟩ := hcall buf (by omega)
      rw [if_pos hroom, List.drop_drop] at hr
      refine ⟨b.afterWrite (buf.drop (cursor + ahead)) (min k len), ?_, ?_, r, ?_, ?_⟩
      · simp [afterWrite, hanswers]
      · simp [afterWrite, hwriter]
      · rw [← hr]
        congr 2
        omega
      · have hbytes := @afterWrite_bytes b ahead (min k len) haligned
        rw [hwriter] at hbytes
        exact ⟨hkeep.returns, hkeep.bytes.trans hbytes.symm, hkeep.placed, hkeep.drained⟩

/-- **`WritesFit` is exact**: at this cursor and this length of the write buffer, `poll_flush` returns
and keeps the bytes whatever they are if and only if the answers fit. -/
theorem pollFlush_keeps_iff_fits {cursor len : ℕ} (hcur : cursor < len) (stream : Outlet) :
    (∃ fuel, ∀ buf, buf.length = len → ∃ r, pollFlush fuel ⟨stream, { buf, cursor }⟩ = some r ∧
      Keeps ⟨stream, { buf, cursor }⟩ r) ↔ WritesFit cursor 0 (len - cursor) stream.answers := by
  have hflush : ∀ fuel (buf : List UInt8), buf.length = len →
      pollFlush fuel (⟨stream, { buf, cursor }⟩ : AsyncStreamAgent Outlet) =
        flushLoop fuel ⟨stream, { buf, cursor }⟩ (buf.drop (cursor + 0)) := fun fuel buf hbuf => by
    rw [pollFlush, if_pos (by simp only; omega)]
    rfl
  constructor
  · rintro ⟨fuel, hall⟩
    refine @fits_of_keeps fuel cursor 0 (len - cursor) _ (by omega) fun buf hbuf => ?_
    obtain ⟨r, hr, hkeep⟩ := hall buf (by omega)
    exact ⟨_, rfl, rfl, r, (hflush fuel buf (by omega)).symm.trans hr, hkeep⟩
  · intro hfit
    obtain ⟨fuel, hall⟩ := exists_fuel_of_fits hfit (by omega)
    refine ⟨fuel, fun buf hbuf => ?_⟩
    obtain ⟨r, hr, hkeep⟩ := hall ⟨stream, { buf, cursor }⟩ rfl rfl (by dsimp only; omega)
    exact ⟨r, (hflush fuel buf hbuf).trans hr, hkeep⟩

/-- **A writer that takes nothing is asked without end.** -/
theorem pollFlush_endless {a : AsyncStreamAgent Outlet} (hcur : a.writer.cursor = 0)
    (hbuf : a.writer.buf ≠ []) (hzero : ∀ n, a.stream.answers.get n = .ready 0) (fuel : ℕ) :
    a.pollFlush fuel = none := by
  have hloop : a.flushLoop fuel a.writer.buf = none := by
    induction fuel generalizing a with
    | zero => rw [flushLoop.eq_def, if_neg hbuf]
    | succ fuel ih =>
      rw [flushLoop_of_ready hbuf (hzero 0), Nat.zero_min, hcur, if_pos (Nat.zero_le _),
        List.drop_zero]
      exact @ih (a.afterWrite a.writer.buf 0) hcur hbuf fun n => hzero (n + 1)
  rw [pollFlush, hcur, if_pos (Nat.zero_le _), List.drop_zero]
  exact hloop

end AsyncStreamAgent

/-! ## Call after call -/

/-- A call to an agent; `poll_flush` with the number of calls of `poll_write` that it is given. -/
inductive AsyncCall
  | startSend (item : Command)
  | pollFlush (fuel : ℕ)
  deriving DecidableEq, Repr

/-- A call with its result. -/
structure AsyncReturned where
  call : AsyncCall
  result : Poll (Outcome Unit)
  deriving DecidableEq

/-- The bytes that a call adds to the write buffer. -/
def AsyncCall.bytes : AsyncCall → List UInt8
  | .startSend item => item.frame
  | .pollFlush _ => []

/-- **The calls to an agent on a writer** with this script. A call that has not returned is no step. -/
def asyncWriting (answers : Stream' WriteAnswer) (flushes : Stream' (Poll (Except ErrorKind Unit))) :
    Machine (AsyncStreamAgent Outlet) AsyncCall AsyncReturned where
  init := AsyncStreamAgent.new { answers, flushes }
  step a
    | .startSend item =>
      let (result, b) := a.startSend item
      some (b, [{ call := .startSend item, result := .ready result }])
    | .pollFlush fuel =>
      match a.pollFlush fuel with
      | some (result, b) => some (b, [{ call := .pollFlush fuel, result }])
      | none => none

/-- The frames that the calls have encoded, in order. -/
def asyncEncoded (tr : List AsyncReturned) : List UInt8 := tr.flatMap fun r => r.call.bytes

/-- The `poll_flush` finds answers that it copes with. -/
def PollFits (a : AsyncStreamAgent Outlet) : Prop :=
  a.pending = [] ∨ WritesFit a.writer.cursor 0 a.pending.length a.stream.answers

/-- The call finds answers that it copes with. -/
def AsyncCallFits (a : AsyncStreamAgent Outlet) : AsyncCall → Prop
  | .startSend _ => True
  | .pollFlush _ => PollFits a

/-- **The calls so far have been faithful**: no call has panicked, each byte of the frames has been
taken or is pending, once and in order, so that what the writer has taken is a prefix of the frames,
and if the last call was a `poll_flush` that is ready without an error, it has taken everything. -/
structure AsyncFaithful (tr : List AsyncReturned) (a : AsyncStreamAgent Outlet) : Prop where
  never_panicked : ∀ r ∈ tr, r.result ≠ .ready panicked
  lossless : a.stream.accepted ++ a.pending = asyncEncoded tr
  in_order : a.stream.accepted <+: asyncEncoded tr
  flushed : ∀ fuel, tr.getLast? = some ⟨.pollFlush fuel, .ready (.ok ())⟩ →
    a.stream.accepted = asyncEncoded tr

theorem asyncEncoded_concat (tr : List AsyncReturned) (r : AsyncReturned) :
    asyncEncoded (tr ++ [r]) = asyncEncoded tr ++ r.call.bytes := by
  simp [asyncEncoded]

namespace AsyncFaithful

variable {tr : List AsyncReturned} {a : AsyncStreamAgent Outlet}

/-- A call that keeps the bytes stays faithful. -/
theorem concat {r : AsyncReturned} {b : AsyncStreamAgent Outlet} (h : AsyncFaithful tr a)
    (hpanic : r.result ≠ .ready panicked)
    (hbytes : b.stream.accepted ++ b.pending = a.stream.accepted ++ a.pending ++ r.call.bytes)
    (hflushed : ∀ fuel, r = ⟨.pollFlush fuel, .ready (.ok ())⟩ → b.pending = []) :
    AsyncFaithful (tr ++ [r]) b := by
  have hlossless : b.stream.accepted ++ b.pending = asyncEncoded (tr ++ [r]) := by
    rw [asyncEncoded_concat, hbytes, h.lossless]
  refine ⟨?_, hlossless, ?_, ?_⟩
  · intro r' hr'
    rcases List.mem_append.mp hr' with hr' | hr'
    · exact h.never_panicked r' hr'
    · obtain rfl := List.mem_singleton.mp hr'
      exact hpanic
  · rw [← hlossless]
    exact List.prefix_append _ _
  · intro fuel hlast
    rw [List.getLast?_concat] at hlast
    rw [← hlossless, hflushed fuel (Option.some.inj hlast), List.append_nil]

/-- `start_send` stays faithful. -/
theorem startSend (h : AsyncFaithful tr a) (hplaced : a.writer.WellPlaced) (item : Command) :
    AsyncFaithful (tr ++ [⟨.startSend item, .ready (a.startSend item).1⟩]) (a.startSend item).2 ∧
      (a.startSend item).2.writer.WellPlaced := by
  rw [AsyncStreamAgent.startSend_eq]
  have hcur : a.writer.cursor ≤ a.writer.buf.length := by
    rcases hplaced with hcur | hempty
    · exact hcur.le
    · simp [hempty]
  constructor
  · refine h.concat (by simp [panicked]) ?_ (fun fuel heq => by simp at heq)
    simp only [AsyncStreamAgent.pending, AsyncCall.bytes]
    rw [List.drop_append_of_le_length hcur, List.append_assoc]
  · refine .inl ?_
    have hpos := List.length_pos_of_ne_nil item.frame_ne_nil
    simp only [List.length_append]
    omega

/-- `poll_flush` within its condition stays faithful. -/
theorem pollFlush (h : AsyncFaithful tr a) (hplaced : a.writer.WellPlaced) (hfit : PollFits a)
    {fuel : ℕ} {r : Poll (Outcome Unit) × AsyncStreamAgent Outlet} (hr : a.pollFlush fuel = some r) :
    AsyncFaithful (tr ++ [⟨.pollFlush fuel, r.1⟩]) r.2 ∧ r.2.writer.WellPlaced := by
  obtain ⟨fuel', r', hr', hkeep⟩ := AsyncStreamAgent.pollFlush_of_fits hplaced hfit
  obtain rfl := AsyncStreamAgent.pollFlush_unique hr hr'
  refine ⟨h.concat hkeep.returns ?_ ?_, hkeep.placed⟩
  · rw [hkeep.bytes, AsyncCall.bytes, List.append_nil]
  · intro n heq
    have hok : r.1 = .ready (.ok ()) := congrArg AsyncReturned.result heq
    simp [AsyncStreamAgent.pending, hkeep.drained hok]

end AsyncFaithful

/-- **Asynchronous buffered writing is faithful** along every run whose calls meet `AsyncCallFits`, and
the next `poll_flush` that meets it returns. -/
theorem asyncWriting_faithful (answers : Stream' WriteAnswer)
    (flushes : Stream' (Poll (Except ErrorKind Unit))) {tr : List AsyncReturned}
    {a : AsyncStreamAgent Outlet} (h : (asyncWriting answers flushes).Run AsyncCallFits tr a) :
    AsyncFaithful tr a ∧ (PollFits a → ∃ fuel r, a.pollFlush fuel = some r) := by
  have hinv : AsyncFaithful tr a ∧ a.writer.WellPlaced := by
    refine h.invariant (P := fun tr a => AsyncFaithful tr a ∧ a.writer.WellPlaced) ?_ ?_
    · exact ⟨⟨by simp, rfl, List.prefix_rfl, by simp⟩, .inr rfl⟩
    · rintro tr a call b out ⟨hf, hplaced⟩ hfit hstep
      cases call with
      | startSend item =>
        obtain ⟨rfl, rfl⟩ := Prod.mk.inj (Option.some.inj hstep)
        exact hf.startSend hplaced item
      | pollFlush fuel =>
        simp only [asyncWriting] at hstep
        split at hstep
        · next result b' hr =>
          obtain ⟨rfl, rfl⟩ := Prod.mk.inj (Option.some.inj hstep)
          exact hf.pollFlush hplaced hfit hr
        · simp at hstep
  refine ⟨hinv.1, fun hfit => ?_⟩
  obtain ⟨fuel, r, hr, -⟩ := AsyncStreamAgent.pollFlush_of_fits hinv.2 hfit
  exact ⟨fuel, r, hr⟩

/-- The agent after an empty message, which is five bytes long. -/
def oneMessage (answers : Stream' WriteAnswer) : AsyncStreamAgent Outlet where
  stream := { answers, flushes := .const (.ready (.ok ())) }
  writer := { buf := [1, 0, 0, 0, 0] }

theorem run_oneMessage (answers : Stream' WriteAnswer)
    {ok : AsyncStreamAgent Outlet → AsyncCall → Prop} (hok : ∀ a item, ok a (.startSend item)) :
    (asyncWriting answers (.const (.ready (.ok ())))).Run ok
      [⟨.startSend (.message ""), .ready (.ok ())⟩] (oneMessage answers) := by
  have hframe : (Command.message "").frame = [1, 0, 0, 0, 0] := by decide +kernel
  have hstart : (asyncWriting answers (.const (.ready (.ok ())))).Run ok [] _ := .init
  refine hstart.step (hok _ (.message "")) ?_
  simp only [asyncWriting, AsyncStreamAgent.startSend_eq, hframe]
  rfl

/-- A writer that takes nothing at first, and then the message at once. -/
theorem asyncWriting_faithful_hesitant : ∃ tr a,
    (asyncWriting (.cons (.ready 0) (.const (.ready 9))) (.const (.ready (.ok ())))).Run
      AsyncCallFits tr a ∧ a.stream.accepted = [1, 0, 0, 0, 0] ∧
      AsyncFaithful tr a ∧ (PollFits a → ∃ fuel r, a.pollFlush fuel = some r) := by
  have hfit : PollFits (oneMessage (.cons (.ready 0) (.const (.ready 9)))) :=
    .inr (.takes rfl (.inl rfl) (by decide) (.takesAll rfl (by decide)))
  have h := Machine.Run.step (run_oneMessage _ fun _ _ => trivial)
    (show AsyncCallFits _ (.pollFlush 2) from hfit) rfl
  exact ⟨_, _, h, by decide +kernel, asyncWriting_faithful _ _ h⟩

/-- The same message panics when the writer takes two bytes, and then two more. -/
theorem asyncWriting_not_always_faithful :
    ¬ ∀ (answers : Stream' WriteAnswer) (flushes : Stream' (Poll (Except ErrorKind Unit)))
      (tr : List AsyncReturned) (a : AsyncStreamAgent Outlet),
      (asyncWriting answers flushes).Run Machine.unguarded tr a →
        AsyncFaithful tr a ∧ ∃ fuel r, a.pollFlush fuel = some r := by
  intro hall
  have h : (asyncWriting (.const (.ready 2)) (.const (.ready (.ok ())))).Run Machine.unguarded _ _ :=
    .step (a := .pollFlush 2) (run_oneMessage _ fun _ _ => trivial) trivial rfl
  exact (hall _ _ _ _ h).1.never_panicked ⟨.pollFlush 2, .ready panicked⟩ (by decide +kernel) rfl

end Groupchat
