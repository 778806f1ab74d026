import RustPractices.Groupchat.Codec
import RustPractices.Transition.Machine

/-!
# The stream agent

The stream agent buffers a non-blocking stream in both directions. Reading drains the read
buffer; writing appends to the write buffer, and `flush` offers the write buffer to the stream
until it is empty or the stream would block. The cursor counts the bytes of the write buffer that
the stream has taken, and survives a stream that would block.

`flush` advances by the cursor in a slice that has already been advanced, so the third write of a
call, and the second one of a call that starts with a positive cursor, is offered the wrong bytes
or panics. `FlushFits` is the condition under which a call of `flush` does not get there.

## Main definitions

* `StreamAgent`, `flush`, `readFromStream`: the agent
* `Socket`: a non-blocking stream whose behaviour is a script
* `FlushFits`: the answers of the socket that `flush` copes with
* `writing`: the calls to an agent on a socket, as a machine

## Main results

* `decode_agent`: decoding from an agent parses its read buffer
* `flush_of_fits`: a call within `FlushFits` loses nothing
* `flush_keeps_iff_fits`: `FlushFits` is exact, over all contents of the write buffer
* `writing_faithful`: calls within `FlushFits` write the frames faithfully
-/

open Io

namespace Groupchat

universe u

/-- The bytes read from the stream and not yet consumed. -/
structure AgentReader where
  buf : List UInt8 := []
  deriving DecidableEq, Repr

/-- The bytes to write, and how many of them the stream has taken. -/
structure AgentWriter where
  buf : List UInt8 := []
  cursor : ℕ := 0
  deriving DecidableEq, Repr

/-- `AgentWriter::clear`. -/
def AgentWriter.clear (_ : AgentWriter) : AgentWriter := { buf := [], cursor := 0 }

structure StreamAgent (S : Type u) where
  stream : S
  reader : AgentReader
  writer : AgentWriter
  deriving DecidableEq, Repr

namespace StreamAgent

variable {S : Type u}

/-- `StreamAgent::new`. -/
def new (stream : S) : StreamAgent S := { stream, reader := {}, writer := {} }

/-- `StreamAgent::read_from_stream`: would-block is success, and end of file without a byte is an
error. -/
def readFromStream [ReadToEnd S] (a : StreamAgent S) : Outcome Unit × StreamAgent S :=
  match ReadToEnd.readToEnd a.stream a.reader.buf with
  | (.ok 0, buf, stream) => (err .unexpectedEof, { a with stream, reader := { buf } })
  | (.ok (_ + 1), buf, stream) => (.ok (), { a with stream, reader := { buf } })
  | (.error (.error .wouldBlock), buf, stream) => (.ok (), { a with stream, reader := { buf } })
  | (.error e, buf, stream) => (.error e, { a with stream, reader := { buf } })

/-- `Read::read` of the agent. -/
def read (a : StreamAgent S) (n : ℕ) : Outcome (List UInt8) × StreamAgent S :=
  let lenMin := min a.reader.buf.length n
  (.ok (a.reader.buf.take lenMin), { a with reader := { buf := a.reader.buf.drop lenMin } })

/-- `Write::write` of the agent. -/
def write (a : StreamAgent S) (buf : List UInt8) : Outcome ℕ × StreamAgent S :=
  (.ok buf.length, { a with writer := { a.writer with buf := a.writer.buf ++ buf } })

/-- The loop of `flush`, on the slice `buf` of the write buffer. After a write the cursor of the
whole buffer is taken as an offset into the slice. -/
def flushLoop [Write S] (a : StreamAgent S) (buf : List UInt8) : Outcome Unit × StreamAgent S :=
  if _hbuf : buf = [] then (.ok (), { a with writer := a.writer.clear })
  else
    match Write.write a.stream buf with
    | (.ok 0, stream) => (err .writeZero, { a with stream })
    | (.ok (n + 1), stream) =>
      let cursor := a.writer.cursor + (n + 1)
      let a := { a with stream, writer := { a.writer with cursor } }
      if cursor ≤ buf.length then flushLoop a (buf.drop cursor) else (panicked, a)
    | (.error (.error .wouldBlock), stream) => (.ok (), { a with stream })
    | (.error e, stream) => (.error e, { a with stream })
termination_by buf.length
decreasing_by
  have := List.length_pos_of_ne_nil _hbuf
  simp only [List.length_drop]
  omega

/-- `Write::flush` of the agent. -/
def flush [Write S] (a : StreamAgent S) : Outcome Unit × StreamAgent S :=
  if a.writer.cursor ≤ a.writer.buf.length then a.flushLoop (a.writer.buf.drop a.writer.cursor)
  else (panicked, a)

instance : Read (StreamAgent S) := ⟨read⟩

instance [Write S] : Write (StreamAgent S) := ⟨write, flush⟩

/-- The bytes that the stream has still to take. -/
def pending (a : StreamAgent S) : List UInt8 := a.writer.buf.drop a.writer.cursor

/-! ## Reading from an agent -/

/-- `read_exact` on an agent takes from the read buffer, all of it when it fails. -/
theorem readExact_agent (a : StreamAgent S) (n : ℕ) :
    readExact a n = ((takeExact a.reader.buf n).1,
      { a with reader := { buf := (takeExact a.reader.buf n).2 } }) := by
  obtain ⟨stream, ⟨buf⟩, writer⟩ := a
  rcases Nat.eq_zero_or_pos n with rfl | hn
  · simp [takeExact]
  by_cases hle : n ≤ buf.length
  · have hread : Read.read (⟨stream, ⟨buf⟩, writer⟩ : StreamAgent S) (buf.take n).length =
        (.ok (buf.take n), ⟨stream, ⟨buf.drop n⟩, writer⟩) := by
      change read _ _ = _
      simp [read, hle]
    have hne : buf.take n ≠ [] := by
      rw [← List.length_pos_iff, List.length_take]
      omega
    have := readExact_of_read_full hne hread
    rw [List.length_take_of_le hle] at this
    simp [this, takeExact, hle]
  · have hread : Read.read (⟨stream, ⟨buf⟩, writer⟩ : StreamAgent S) n =
        (.ok buf, ⟨stream, ⟨[]⟩, writer⟩) := by
      change read _ _ = _
      simp [read, min_eq_left (Nat.le_of_not_le hle)]
    have hend : ∀ m, 0 < m → Read.read (⟨stream, ⟨[]⟩, writer⟩ : StreamAgent S) m =
        (.ok [], ⟨stream, ⟨[]⟩, writer⟩) := fun m _ => by
      change read _ _ = _
      simp [read]
    obtain ⟨t, ht, ⟨-, rfl⟩ | rfl⟩ := readExact_of_read_short (by omega) hread hend <;>
      simp [ht, takeExact_of_lt (Nat.lt_of_not_le hle)]

/-- Decoding from an agent parses its read buffer. -/
theorem decode_agent (a : StreamAgent S) :
    decode a = ((parse a.reader.buf).1,
      { a with reader := { buf := (parse a.reader.buf).2 } }) := by
  unfold decode parse
  rw [readExact_agent]
  rcases takeExact a.reader.buf 1 with ⟨_ | tagByte, buf₁⟩
  · rfl
  simp only [readExact_agent]
  rcases takeExact buf₁ 4 with ⟨_ | lenBytes, buf₂⟩
  · rfl
  simp only
  rcases takeExact buf₂ (fromBeBytes lenBytes) with ⟨_ | msgBytes, buf₃⟩ <;> rfl

/-- A command decoded from an agent is at the front of its read buffer, and is gone from there. -/
theorem eq_of_decode_agent_eq_ok {a b : StreamAgent S} {cmd : Command}
    (h : decode a = (.ok cmd, b)) :
    cmd.Fits ∧ a.reader.buf = cmd.frame ++ b.reader.buf ∧ b = { a with reader := b.reader } := by
  rw [decode_agent] at h
  obtain ⟨hparse, rfl⟩ := Prod.mk.inj h
  obtain ⟨hsplit, hfits⟩ := frame_append_of_parse (Prod.ext hparse rfl)
  exact ⟨hfits, hsplit, rfl⟩

/-- Encoding to an agent appends the frame to the write buffer and flushes. -/
theorem encode_agent [Write S] (a : StreamAgent S) (cmd : Command) :
    encode a cmd =
      flush { a with writer := { a.writer with buf := a.writer.buf ++ cmd.frame } } := by
  unfold encode
  rw [writeAll_of_write_ok cmd.frame_ne_nil rfl]
  rfl

end StreamAgent

/-! ## A scripted socket -/

/-- What arrives at a socket. -/
inductive Arrival
  | bytes (bs : List UInt8)
  | wouldBlock
  | eof
  deriving DecidableEq, Repr

/-- How a socket answers a write: it takes some of the bytes, or it would block. -/
inductive Answer
  | accept (k : ℕ)
  | block
  deriving DecidableEq, Repr

/-- **A non-blocking socket** with a script: what arrives, how it answers the writes, the bytes it
has taken, and how often it would have blocked. A script that has run out would block. -/
structure Socket where
  incoming : List Arrival := []
  answers : List Answer := []
  accepted : List UInt8 := []
  refusals : ℕ := 0
  deriving DecidableEq, Repr

namespace Socket

/-- Read what arrives until the socket would block or is at end of file, where it stays. -/
def readArrivals : List Arrival → List UInt8 → ℕ → Outcome ℕ × List UInt8 × List Arrival
  | [], buf, _ => (err .wouldBlock, buf, [])
  | .bytes bs :: rest, buf, n => readArrivals rest (buf ++ bs) (n + bs.length)
  | .wouldBlock :: rest, buf, _ => (err .wouldBlock, buf, rest)
  | .eof :: rest, buf, n => (.ok n, buf, .eof :: rest)

instance : ReadToEnd Socket where
  readToEnd s buf :=
    let (result, buf, incoming) := readArrivals s.incoming buf 0
    (result, buf, { s with incoming })

/-- The bytes taken of `offered` bytes: at least one, at most all. -/
def taken (k offered : ℕ) : ℕ := min (max k 1) offered

/-- A write to the socket, by the next answer of the script. -/
def write (s : Socket) (buf : List UInt8) : Outcome ℕ × Socket :=
  match s.answers with
  | [] => (err .wouldBlock, { s with refusals := s.refusals + 1 })
  | .block :: answers => (err .wouldBlock, { s with answers, refusals := s.refusals + 1 })
  | .accept k :: answers =>
    let n := taken k buf.length
    (.ok n, { s with answers, accepted := s.accepted ++ buf.take n })

instance : Write Socket := ⟨write, fun s => (.ok (), s)⟩

theorem taken_le (k offered : ℕ) : taken k offered ≤ offered := min_le_right _ _

theorem taken_pos (k : ℕ) {offered : ℕ} (h : 0 < offered) : 0 < taken k offered := by
  unfold taken
  omega

end Socket

/-! ## What `flush` copes with -/

/-- The next write is refused. -/
def Refuses : List Answer → Prop
  | .accept _ :: _ => False
  | _ => True

instance : DecidablePred Refuses
  | [] => isTrue trivial
  | .block :: _ => isTrue trivial
  | .accept _ :: _ => isFalse id

/-- The answers within reach of a loop that is offering all the pending bytes, at a positive
cursor: nothing is taken, or so little that twice the cursor stays within the buffer, and then
nothing more. -/
def ResumeFits (cursor len : ℕ) : List Answer → Prop
  | .accept k :: answers => 2 * cursor + Socket.taken k (len - cursor) < len ∧ Refuses answers
  | _ => True

instance (cursor len : ℕ) : DecidablePred (ResumeFits cursor len)
  | [] => isTrue trivial
  | .block :: _ => isTrue trivial
  | .accept _ :: _ => inferInstanceAs (Decidable (_ ∧ _))

/-- **The answers that `flush` copes with**, by the cursor and the length of the write buffer. A
call that starts at cursor `0` can have one more write than a call that resumes. -/
def FlushFits (cursor len : ℕ) (answers : List Answer) : Prop :=
  if cursor = 0 then
    match answers with
    | .accept k :: answers => Socket.taken k len = len ∨ ResumeFits (Socket.taken k len) len answers
    | _ => True
  else ResumeFits cursor len answers

instance (cursor len : ℕ) : DecidablePred (FlushFits cursor len) := fun answers =>
  match answers with
  | [] => by unfold FlushFits; infer_instance
  | .block :: _ => by unfold FlushFits; infer_instance
  | .accept _ :: _ => by unfold FlushFits; infer_instance

/-- The cursor is within the write buffer, which is cleared when the stream has taken it all. -/
def WellPlaced (w : AgentWriter) : Prop := w.cursor < w.buf.length ∨ w = {}

/-- **A call of `flush` keeps the bytes**: it succeeds, each byte that was pending is taken or
still pending, once and in order, and if the socket never refused then nothing is pending. -/
structure Keeps (a : StreamAgent Socket) (r : Outcome Unit × StreamAgent Socket) : Prop where
  ok : r.1 = .ok ()
  bytes : r.2.stream.accepted ++ r.2.pending = a.stream.accepted ++ a.pending
  placed : WellPlaced r.2.writer
  drained : r.2.stream.refusals = a.stream.refusals → r.2.writer = {}

namespace StreamAgent

variable {a : StreamAgent Socket}

theorem flushLoop_nil : a.flushLoop [] = (.ok (), { a with writer := {} }) := by
  rw [flushLoop, dif_pos rfl]
  rfl

/-- A refused write ends the loop and leaves the agent as it is. -/
theorem flushLoop_of_refuses {buf : List UInt8} (hbuf : buf ≠ []) (h : Refuses a.stream.answers) :
    ∃ answers, a.flushLoop buf = (.ok (), { a with
      stream := { a.stream with answers, refusals := a.stream.refusals + 1 } }) := by
  obtain ⟨⟨incoming, answers, accepted, refusals⟩, reader, writer⟩ := a
  rw [flushLoop, dif_neg hbuf]
  match answers, h with
  | [], _ => exact ⟨[], rfl⟩
  | .block :: answers, _ => exact ⟨answers, rfl⟩

/-- The agent after a write that takes `n` bytes of the slice `buf`. -/
def afterWrite (a : StreamAgent Socket) (buf : List UInt8) (answers : List Answer) (n : ℕ) :
    StreamAgent Socket :=
  { a with
    stream := { a.stream with answers, accepted := a.stream.accepted ++ buf.take n }
    writer := { a.writer with cursor := a.writer.cursor + n } }

/-- An accepted write moves the cursor, and the slice by the cursor. -/
theorem flushLoop_of_accept {buf : List UInt8} (hbuf : buf ≠ []) {k : ℕ} {answers : List Answer}
    (h : a.stream.answers = .accept k :: answers) :
    a.flushLoop buf =
      if a.writer.cursor + Socket.taken k buf.length ≤ buf.length then
        (a.afterWrite buf answers (Socket.taken k buf.length)).flushLoop
          (buf.drop (a.writer.cursor + Socket.taken k buf.length))
      else (panicked, a.afterWrite buf answers (Socket.taken k buf.length)) := by
  have hpos := Socket.taken_pos k (List.length_pos_of_ne_nil hbuf)
  obtain ⟨n, hn⟩ := Nat.exists_eq_add_of_lt hpos
  have hn : Socket.taken k buf.length = n + 1 := by omega
  have hw : Write.write a.stream buf = (.ok (n + 1),
      { a.stream with answers, accepted := a.stream.accepted ++ buf.take (n + 1) }) := by
    change Socket.write a.stream buf = _
    rw [Socket.write, h]
    simp [hn]
  rw [flushLoop, dif_neg hbuf, hw, hn]
  rfl

/-- Whatever the loop does, it only adds to what the socket has taken. -/
theorem accepted_prefix_flushLoop (a : StreamAgent Socket) (buf : List UInt8) :
    a.stream.accepted <+: (a.flushLoop buf).2.stream.accepted := by
  induction hlen : buf.length using Nat.strong_induction_on generalizing a buf with
  | _ len ih =>
    by_cases hbuf : buf = []
    · rw [hbuf, flushLoop_nil]
    rcases hans : a.stream.answers with - | ⟨k | -, answers⟩
    · obtain ⟨_, h⟩ := flushLoop_of_refuses (a := a) hbuf (by rw [hans]; trivial)
      rw [h]
    · rw [flushLoop_of_accept hbuf hans]
      have hstep : a.stream.accepted <+:
          (a.afterWrite buf answers (Socket.taken k buf.length)).stream.accepted :=
        List.prefix_append _ _
      split
      · refine hstep.trans (ih _ ?_ _ _ rfl)
        have := Socket.taken_pos k (List.length_pos_of_ne_nil hbuf)
        have := List.length_pos_of_ne_nil hbuf
        simp only [List.length_drop]
        omega
      · exact hstep
    · obtain ⟨_, h⟩ := flushLoop_of_refuses (a := a) hbuf (by rw [hans]; trivial)
      rw [h]

/-! ### Calls that keep the bytes -/

/-- A refused write keeps the bytes. -/
theorem keeps_of_refuses (hcur : a.writer.cursor < a.writer.buf.length)
    (h : Refuses a.stream.answers) : Keeps a (a.flushLoop a.pending) := by
  have hne : a.pending ≠ [] := by
    rw [pending, ← List.length_pos_iff, List.length_drop]
    omega
  obtain ⟨answers, heq⟩ := flushLoop_of_refuses hne h
  rw [heq]
  exact ⟨rfl, rfl, .inl hcur, fun hr => absurd hr (by simp)⟩

/-- After a write of pending bytes, each byte is taken or still pending. -/
theorem afterWrite_bytes (answers : List Answer) (n : ℕ) :
    (a.afterWrite a.pending answers n).stream.accepted ++
      (a.afterWrite a.pending answers n).pending = a.stream.accepted ++ a.pending := by
  simp only [afterWrite, pending, List.append_assoc, ← List.drop_drop, List.take_append_drop]

/-- A loop that resumes within reach keeps the bytes. -/
theorem keeps_of_resumeFits (hpos : 0 < a.writer.cursor)
    (hcur : a.writer.cursor < a.writer.buf.length)
    (h : ResumeFits a.writer.cursor a.writer.buf.length a.stream.answers) :
    Keeps a (a.flushLoop a.pending) := by
  have hlen : a.pending.length = a.writer.buf.length - a.writer.cursor := List.length_drop
  have hne : a.pending ≠ [] := by
    rw [← List.length_pos_iff]
    omega
  rcases hans : a.stream.answers with - | ⟨k | -, answers⟩
  · exact keeps_of_refuses hcur (by rw [hans]; trivial)
  · obtain ⟨hfit, href⟩ : 2 * a.writer.cursor + Socket.taken k _ < _ ∧ Refuses answers := by
      rwa [hans] at h
    rw [← hlen] at hfit
    rw [flushLoop_of_accept hne hans, if_pos (by omega)]
    set n := Socket.taken k a.pending.length
    have hslice : a.pending.drop (a.writer.cursor + n) ≠ [] := by
      rw [← List.length_pos_iff, List.length_drop]
      omega
    -- the slice is the wrong one here, but the socket refuses it
    obtain ⟨answers', heq⟩ := flushLoop_of_refuses (a := a.afterWrite a.pending answers n) hslice href
    rw [heq]
    refine ⟨rfl, afterWrite_bytes answers n, .inl ?_, fun hr => absurd hr (by simp [afterWrite])⟩
    simp only [afterWrite]
    omega
  · exact keeps_of_refuses hcur (by rw [hans]; trivial)

/-- **A call of `flush` within reach keeps the bytes.** -/
theorem flush_of_fits (hplaced : WellPlaced a.writer)
    (h : FlushFits a.writer.cursor a.writer.buf.length a.stream.answers) : Keeps a a.flush := by
  rcases hplaced with hcur | hempty
  · rw [flush, if_pos hcur.le]
    change Keeps a (a.flushLoop a.pending)
    by_cases hzero : a.writer.cursor = 0
    · have hpend : a.pending = a.writer.buf := by simp [pending, hzero]
      have hne : a.pending ≠ [] := by
        rw [hpend, ← List.length_pos_iff]
        omega
      rcases hans : a.stream.answers with - | ⟨k | -, answers⟩
      · exact keeps_of_refuses hcur (by rw [hans]; trivial)
      · have hfit : Socket.taken k a.writer.buf.length = a.writer.buf.length ∨
            ResumeFits (Socket.taken k a.writer.buf.length) a.writer.buf.length answers := by
          rwa [hans, FlushFits, if_pos hzero] at h
        have hle := Socket.taken_le k a.writer.buf.length
        have hnpos : 0 < Socket.taken k a.writer.buf.length := Socket.taken_pos k (by omega)
        have hloop : a.flushLoop a.pending =
            (a.afterWrite a.pending answers (Socket.taken k a.writer.buf.length)).flushLoop
              (a.afterWrite a.pending answers (Socket.taken k a.writer.buf.length)).pending := by
          rw [flushLoop_of_accept hne hans, hpend, if_pos (by omega)]
          rfl
        have hbytes := afterWrite_bytes (a := a) answers (Socket.taken k a.writer.buf.length)
        rw [hloop]
        by_cases hall : Socket.taken k a.writer.buf.length = a.writer.buf.length
        · have hnil : (a.afterWrite a.pending answers
              (Socket.taken k a.writer.buf.length)).pending = [] := by
            simp [afterWrite, pending, hall]
          rw [hnil] at hbytes ⊢
          rw [flushLoop_nil]
          exact ⟨rfl, by simpa [pending] using hbytes, .inr rfl, fun _ => rfl⟩
        · have hkeep := keeps_of_resumeFits
            (a := a.afterWrite a.pending answers (Socket.taken k a.writer.buf.length))
            (by simp only [afterWrite]; omega) (by simp only [afterWrite]; omega)
            (by simpa [afterWrite, hzero] using hfit.resolve_left hall)
          exact ⟨hkeep.ok, hkeep.bytes.trans hbytes, hkeep.placed, hkeep.drained⟩
      · exact keeps_of_refuses hcur (by rw [hans]; trivial)
    · unfold FlushFits at h
      rw [if_neg hzero] at h
      exact keeps_of_resumeFits (Nat.pos_of_ne_zero hzero) hcur h
  · have hflush : a.flush = (.ok (), a) := by
      obtain ⟨stream, reader, writer⟩ := a
      obtain rfl : writer = {} := hempty
      rw [flush, if_pos (by simp), List.drop_nil, flushLoop_nil]
    rw [hflush]
    exact ⟨rfl, rfl, .inr hempty, fun _ => hempty⟩

/-! ### Calls that do not

Outside `FlushFits` the loop panics, or ends with bytes it has not offered, or offers bytes from
the wrong place. A write buffer with one marked byte, the next one to be taken, shows the
latter. -/

/-- A buffer of zeros with a one at `i`. -/
def marked (len i : ℕ) : List UInt8 := (List.replicate len 0).set i 1

theorem length_marked (len i : ℕ) : (marked len i).length = len := by simp [marked]

theorem getElem?_marked {len i j : ℕ} (hj : j < len) :
    (marked len i)[j]? = some (if i = j then 1 else 0) := by
  simp only [marked, List.getElem?_set, List.length_replicate]
  split_ifs <;> simp_all

/-- A write that is taken from the slice at `cursor + n`, while `n` pending bytes have been taken,
puts another byte in the place of the marked one. -/
theorem not_keeps_of_misplaced {cursor len n : ℕ} {answers : List Answer} (hpos : 0 < cursor)
    (hpend : a.pending = (marked len (cursor + n)).drop cursor) (hmore : 2 * cursor + n < len)
    (href : ¬ Refuses answers) :
    ¬ Keeps a ((a.afterWrite a.pending answers n).flushLoop (a.pending.drop (cursor + n))) := by
  intro hkeep
  match answers, href with
  | .block :: _, href => exact href trivial
  | [], href => exact href trivial
  | .accept k :: answers, _ =>
    have hlen : a.pending.length = len - cursor := by rw [hpend, List.length_drop, length_marked]
    set b := a.afterWrite a.pending (.accept k :: answers) n with hb
    set slice := a.pending.drop (cursor + n) with hslice
    have hslen : slice.length = len - cursor - (cursor + n) := by
      rw [hslice, List.length_drop, hlen]
    have hne : slice ≠ [] := by
      rw [← List.length_pos_iff]
      omega
    set m := Socket.taken k slice.length with hm
    have hmpos : 0 < m := Socket.taken_pos k (by omega)
    have htaken : (b.afterWrite slice answers m).stream.accepted <+:
        (b.flushLoop slice).2.stream.accepted := by
      rw [flushLoop_of_accept hne rfl]
      split
      · exact accepted_prefix_flushLoop _ _
      · exact List.prefix_rfl
    have hpre : a.stream.accepted ++ (a.pending.take n ++ slice.take m) <+:
        a.stream.accepted ++ a.pending := by
      have := htaken.trans (List.prefix_append _ (b.flushLoop slice).2.pending)
      rw [hkeep.bytes] at this
      simpa [hb, afterWrite] using this
    rw [List.prefix_append_right_inj] at hpre
    have htook : (a.pending.take n ++ slice.take m)[n]? = some 0 := by
      rw [List.getElem?_append_right (by simp), List.length_take, hlen, min_eq_left (by omega),
        Nat.sub_self, List.getElem?_take, if_pos hmpos, hslice, List.getElem?_drop, hpend,
        List.getElem?_drop, getElem?_marked (by omega), if_neg (by omega)]
    have hnext : a.pending[n]? = some 1 := by
      rw [hpend, List.getElem?_drop, getElem?_marked (by omega), if_pos rfl]
    obtain ⟨rest, hrest⟩ := hpre
    rw [← hrest, List.getElem?_append_left (List.getElem?_eq_some_iff.mp htook).1, htook] at hnext
    exact absurd hnext (by decide)

theorem not_keeps_of_not_resumeFits {cursor len : ℕ} {answers : List Answer} (hpos : 0 < cursor)
    (hcur : cursor < len) (h : ¬ ResumeFits cursor len answers) :
    ∃ buf : List UInt8, buf.length = len ∧ ∀ a : StreamAgent Socket, a.stream.answers = answers →
      a.writer = { buf, cursor } → ¬ Keeps a (a.flushLoop a.pending) := by
  match answers, h with
  | .block :: _, h => exact absurd trivial h
  | [], h => exact absurd trivial h
  | .accept k :: answers, h =>
    set n := Socket.taken k (len - cursor) with hn
    have hnle : n ≤ len - cursor := Socket.taken_le _ _
    refine ⟨marked len (cursor + n), length_marked _ _, fun a hans hw hkeep => ?_⟩
    have hpend : a.pending = (marked len (cursor + n)).drop cursor := by rw [pending, hw]
    have hlen : a.pending.length = len - cursor := by rw [hpend, List.length_drop, length_marked]
    have hne : a.pending ≠ [] := by
      rw [← List.length_pos_iff]
      omega
    rw [flushLoop_of_accept hne hans, hlen, ← hn, hw] at hkeep
    simp only at hkeep
    split_ifs at hkeep with hroom
    · rcases Nat.eq_or_lt_of_le hroom with hend | hmore
      · -- the slice is empty: the loop ends and clears bytes that were never offered
        have hnil : a.pending.drop (cursor + n) = [] := by
          rw [List.drop_eq_nil_iff]
          omega
        rw [hnil, flushLoop_nil] at hkeep
        have hbytes := congrArg List.length hkeep.bytes
        simp only [afterWrite, pending, hw, List.drop_nil, List.append_nil, List.length_append,
          List.length_take, List.length_drop, length_marked] at hbytes
        omega
      · have hmore : 2 * cursor + n < len := by omega
        exact not_keeps_of_misplaced hpos hpend hmore (fun href => h ⟨hmore, href⟩) hkeep
    · exact absurd hkeep.ok (by simp [panicked])

/-- **`FlushFits` is exact**: at this cursor and this length of the write buffer, `flush` keeps
the bytes whatever they are if and only if the answers fit. -/
theorem flush_keeps_iff_fits {cursor len : ℕ} (hcur : cursor < len) (stream : Socket)
    (reader : AgentReader) :
    (∀ buf, buf.length = len →
        Keeps ⟨stream, reader, { buf, cursor }⟩ (flush ⟨stream, reader, { buf, cursor }⟩)) ↔
      FlushFits cursor len stream.answers := by
  refine ⟨fun hall => ?_, fun hfit buf hbuf => ?_⟩
  swap
  · subst hbuf
    exact flush_of_fits (.inl hcur) hfit
  by_contra hfit
  have hflush : ∀ buf : List UInt8, buf.length = len →
      flush (⟨stream, reader, { buf, cursor }⟩ : StreamAgent Socket) =
        flushLoop ⟨stream, reader, { buf, cursor }⟩ (buf.drop cursor) := fun buf hbuf => by
    rw [flush, if_pos (by simp only; omega)]
  by_cases hzero : cursor = 0
  · subst hzero
    match hans : stream.answers with
    | .block :: _ => simp [FlushFits, hans] at hfit
    | [] => simp [FlushFits, hans] at hfit
    | .accept k :: answers =>
      simp only [FlushFits, hans, if_true, not_or] at hfit
      have hle := Socket.taken_le k len
      obtain ⟨buf, hbuf, hnot⟩ := not_keeps_of_not_resumeFits (Socket.taken_pos k hcur)
        (lt_of_le_of_ne hle hfit.1) hfit.2
      have hkeep := hall buf hbuf
      rw [hflush buf hbuf, List.drop_zero] at hkeep
      set a : StreamAgent Socket := ⟨stream, reader, { buf, cursor := 0 }⟩ with ha
      have hne : buf ≠ [] := by
        rw [← List.length_pos_iff]
        omega
      rw [flushLoop_of_accept hne hans, hbuf, if_pos (by simp only [ha]; omega)] at hkeep
      simp only [ha, Nat.zero_add] at hkeep
      rw [← ha] at hkeep
      have hbytes := afterWrite_bytes (a := a) answers (Socket.taken k len)
      have hpend : a.pending = buf := by simp [ha, pending]
      have hslice : (a.afterWrite buf answers (Socket.taken k len)).pending =
          buf.drop (Socket.taken k len) := by simp [ha, afterWrite, pending]
      rw [hpend] at hbytes
      rw [← hslice] at hkeep
      exact hnot _ rfl (by simp [ha, afterWrite])
        ⟨hkeep.ok, hkeep.bytes.trans (hpend ▸ hbytes.symm), hkeep.placed, hkeep.drained⟩
  · unfold FlushFits at hfit
    rw [if_neg hzero] at hfit
    obtain ⟨buf, hbuf, hnot⟩ := not_keeps_of_not_resumeFits (Nat.pos_of_ne_zero hzero) hcur hfit
    have hkeep := hall buf hbuf
    rw [hflush buf hbuf] at hkeep
    exact hnot _ rfl rfl hkeep

end StreamAgent

end Groupchat
