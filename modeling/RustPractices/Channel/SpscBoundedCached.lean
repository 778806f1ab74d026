import RustPractices.Channel.Ring
import RustPractices.Transition.Machine

/-!
# The bounded channel of one producer and one consumer with cached positions

Each side keeps its own position in a cell, and beside it how many slots it may still use before it
has to look at the position of the other side again. Each atomic load or store and each access to a
slot is a step of the side that makes it; what a side does with its own cells happens in the step
before. The ring buffer is dropped with the second of the two handles.

## Main definitions

* `RingBuffer`, `Producer`, `Consumer`: what the two sides share, and what they keep
* `spscBoundedCached`: the machine of all interleavings
* `Faithful`: the channel is a bounded queue so far

## Main results

* `Valid.step`: one step of either side keeps the invariant
* `spscBoundedCached_faithful`: the channel is a bounded queue along every run
-/

open Transition

namespace Channel

namespace SpscBoundedCached

universe u

variable {T : Type u}

/-- `RingBuffer`, where `len` is the number of slots in `inner`. -/
structure RingBuffer (T : Type u) where
  inner : Slots T
  len : ℕ
  head : ℕ
  tail : ℕ
  available : Bool

/-- `RingBuffer::new`. -/
def RingBuffer.new (cap : ℕ) : RingBuffer T where
  inner := fun _ => none
  len := cap.nextPowerOfTwo
  head := 0
  tail := 0
  available := true

/-- The slot of a position. -/
def RingBuffer.slot (buf : RingBuffer T) (pos : ℕ) : ℕ := slotOf buf.len pos

/-- Where the producer is in `send(val)`. -/
inductive Send (T : Type u)
  | idle
  /-- `self.buf.available()` in the loop. -/
  | available (val : T)
  /-- `self.buf.head()` in the loop. -/
  | head (val : T)
  /-- The slot is written. -/
  | store (val : T)
  /-- `self.buf.tail.store(new_tail)`. -/
  | publish (val : T)
  | panicked
  /-- `available` has been stored by `drop`, and the reference to the buffer is still held. -/
  | released
  | dropped

/-- Where the consumer is in `recv()`. -/
inductive Recv (T : Type u)
  | idle
  /-- `self.buf.available()` in the loop. -/
  | available
  /-- `self.buf.tail()` in the loop. -/
  | tail (available : Bool)
  /-- The slot is read. -/
  | load
  /-- `self.buf.head.store(new_head)`. -/
  | publish (res : Option T)
  | panicked
  /-- `available` has been stored by `drop`, and the reference to the buffer is still held. -/
  | released
  | dropped

structure Producer (T : Type u) where
  pc : Send T
  tail : ℕ
  free : ℕ

structure Consumer (T : Type u) where
  pc : Recv T
  head : ℕ
  full : ℕ

/-- The shared buffer with the number of references to it, and the two sides. -/
structure State (T : Type u) where
  buf : RingBuffer T
  references : ℕ
  px : Producer T
  cx : Consumer T

/-- How a call of `send` or `recv` starts and returns, and what `RingBuffer::drop` drops. A slot that
was never written gives no value. -/
inductive Event (T : Type u)
  | called (val : T)
  | sent (val : T)
  | refused (val : T)
  | received (res : Option T)
  | disconnected
  | freed (res : Option T)

/-- What can happen next: a call starts, a side makes its next step, or a handle is dropped: its
`drop` runs, and then its reference to the buffer goes. -/
inductive Action (T : Type u)
  | send (val : T)
  | push
  | dropProducer
  | releaseProducer
  | recv
  | pop
  | dropConsumer
  | releaseConsumer

/-- The next test of the loop in `send`. -/
def Producer.loop (px : Producer T) (val : T) : Producer T :=
  if px.free = 0 then { px with pc := .available val } else { px with pc := .store val }

/-- The next step of `send`. -/
def push (s : State T) : Option (State T × List (Event T)) :=
  match s.px.pc with
  | .available val =>
    if s.buf.available then some ({ s with px := { s.px with pc := .head val } }, [])
    else some ({ s with px := { s.px with pc := .idle } }, [.refused val])
  | .head val =>
    match checkedSub s.px.tail s.buf.head with
    | none => some ({ s with px := { s.px with pc := .panicked } }, [])
    | some cnt =>
      match checkedSub s.buf.len cnt with
      | none => some ({ s with px := { s.px with pc := .panicked } }, [])
      | some free => some ({ s with px := { s.px with free }.loop val }, [])
  | .store val =>
    some ({ s with
      buf := { s.buf with inner := Function.update s.buf.inner (s.buf.slot s.px.tail) (some val) }
      px := { s.px with pc := .publish val } }, [])
  | .publish val =>
    match checkedAdd s.px.tail 1 with
    | none => some ({ s with px := { s.px with pc := .panicked } }, [])
    | some tail =>
      match checkedSub s.px.free 1 with
      | none =>
        some ({ s with buf := { s.buf with tail }, px := { s.px with pc := .panicked, tail } }, [])
      | some free =>
        some ({ s with buf := { s.buf with tail }, px := { pc := .idle, tail, free } }, [.sent val])
  | .idle | .panicked | .released | .dropped => none

/-- The next step of `recv`. -/
def pop (s : State T) : Option (State T × List (Event T)) :=
  match s.cx.pc with
  | .available => some ({ s with cx := { s.cx with pc := .tail s.buf.available } }, [])
  | .tail available =>
    match checkedSub s.buf.tail s.cx.head with
    | none => some ({ s with cx := { s.cx with pc := .panicked } }, [])
    | some full =>
      if full > 0 then some ({ s with cx := { s.cx with pc := .load, full } }, [])
      else if available then some ({ s with cx := { s.cx with pc := .available, full } }, [])
      else some ({ s with cx := { s.cx with pc := .idle, full } }, [.disconnected])
  | .load =>
    some ({ s with cx := { s.cx with pc := .publish (s.buf.inner (s.buf.slot s.cx.head)) } }, [])
  | .publish res =>
    match checkedAdd s.cx.head 1 with
    | none => some ({ s with cx := { s.cx with pc := .panicked } }, [])
    | some head =>
      match checkedSub s.cx.full 1 with
      | none =>
        some ({ s with buf := { s.buf with head }, cx := { s.cx with pc := .panicked, head } }, [])
      | some full =>
        some ({ s with buf := { s.buf with head }, cx := { pc := .idle, head, full } },
          [.received res])
  | .idle | .panicked | .released | .dropped => none

/-- `RingBuffer::drop`. -/
def RingBuffer.drop (buf : RingBuffer T) : List (Event T) :=
  (List.range' buf.head (buf.tail - buf.head)).map fun pos => .freed (buf.inner (buf.slot pos))

/-- A reference to the buffer goes, and with the last one the buffer. -/
def State.release (s : State T) : State T × List (Event T) :=
  ({ s with references := s.references - 1 }, if s.references = 1 then s.buf.drop else [])

/-- One step of one side. A call starts when its side is in no other call, and a handle is
dropped when its side is in no call or has panicked. -/
def step (s : State T) : Action T → Option (State T × List (Event T))
  | .send val =>
    match s.px.pc with
    | .idle => some ({ s with px := s.px.loop val }, [.called val])
    | _ => none
  | .push => push s
  | .dropProducer =>
    match s.px.pc with
    | .idle | .panicked =>
      some ({ s with
        buf := { s.buf with available := false }
        px := { s.px with pc := .released } }, [])
    | _ => none
  | .releaseProducer =>
    match s.px.pc with
    | .released => some (State.release { s with px := { s.px with pc := .dropped } })
    | _ => none
  | .recv =>
    match s.cx.pc with
    | .idle =>
      if s.cx.full = 0 then some ({ s with cx := { s.cx with pc := .available } }, [])
      else some ({ s with cx := { s.cx with pc := .load } }, [])
    | _ => none
  | .pop => pop s
  | .dropConsumer =>
    match s.cx.pc with
    | .idle | .panicked =>
      some ({ s with
        buf := { s.buf with available := false }
        cx := { s.cx with pc := .released } }, [])
    | _ => none
  | .releaseConsumer =>
    match s.cx.pc with
    | .released => some (State.release { s with cx := { s.cx with pc := .dropped } })
    | _ => none

/-- **The channel**: all interleavings of its two sides. -/
def spscBoundedCached (T : Type u) (cap : ℕ) : Machine (State T) (Action T) (Event T) where
  init := {
    buf := .new cap
    references := 2
    px := { pc := .idle, tail := 0, free := (RingBuffer.new (T := T) cap).len }
    cx := { pc := .idle, head := 0, full := 0 } }
  step := step

/-! ## What the calls have returned -/

/-- The values with which `send` has been called, in order. -/
def called (tr : List (Event T)) : List T :=
  tr.filterMap fun
    | .called val => some val
    | _ => none

/-- The values that `send` has enqueued or handed back, in order. -/
def answered (tr : List (Event T)) : List T :=
  tr.filterMap fun
    | .sent val => some val
    | .refused val => some val
    | _ => none

/-- The values for which `send` has returned `Ok`, in order. -/
def sent (tr : List (Event T)) : List T :=
  tr.filterMap fun
    | .sent val => some val
    | _ => none

/-- The values that `recv` has returned, in order. -/
def received (tr : List (Event T)) : List (Option T) :=
  tr.filterMap fun
    | .received res => some res
    | _ => none

/-- The values that `RingBuffer::drop` has dropped, in order. -/
def freed (tr : List (Event T)) : List (Option T) :=
  tr.filterMap fun
    | .freed res => some res
    | _ => none

section Append

variable (tr tr' : List (Event T))

@[simp] theorem called_append : called (tr ++ tr') = called tr ++ called tr' :=
  List.filterMap_append

@[simp] theorem answered_append : answered (tr ++ tr') = answered tr ++ answered tr' :=
  List.filterMap_append

@[simp] theorem sent_append : sent (tr ++ tr') = sent tr ++ sent tr' := List.filterMap_append

@[simp] theorem received_append : received (tr ++ tr') = received tr ++ received tr' :=
  List.filterMap_append

@[simp] theorem freed_append : freed (tr ++ tr') = freed tr ++ freed tr' :=
  List.filterMap_append

end Append

/-- **The channel is a bounded queue so far.** -/
structure Faithful (tr : List (Event T)) (s : State T) : Prop where
  head_le_tail : s.buf.head ≤ s.buf.tail
  /-- Between two calls, the producer does not count on more free slots than there are. -/
  free_le : s.px.pc = .idle → s.px.free + (s.buf.tail - s.buf.head) ≤ s.buf.len
  /-- Between two calls, the consumer does not count on more values than there are. -/
  full_le : s.cx.pc = .idle → s.cx.full ≤ s.buf.tail - s.buf.head
  /-- The slot that is about to be written holds no unread value. -/
  not_overwritten : ∀ val pos, s.px.pc = .store val → s.buf.head ≤ pos → pos < s.buf.tail →
    s.buf.slot pos ≠ s.buf.slot s.px.tail
  /-- The slot that is about to be read holds the next value. -/
  written : s.cx.pc = .load → ∃ val, (sent tr)[s.cx.head]? = some val ∧
    s.buf.inner (s.buf.slot s.cx.head) = some val
  received_prefix : received tr <+: (sent tr).map some
  /-- Each call enqueues its value or hands it back. -/
  answered_prefix : answered tr <+: called tr
  /-- At the end, each value that has been sent has been received or dropped, exactly once. -/
  dropped : s.px.pc = .dropped → s.cx.pc = .dropped →
    received tr ++ freed tr = (sent tr).map some

/-! ## The invariant -/

/-- The shared buffer, given what has been sent and received. -/
structure RingBuffer.Valid (buf : RingBuffer T) (sent : List T) (received : List (Option T)) :
    Prop where
  len : ∃ k, buf.len = 2 ^ k
  tail : buf.tail = sent.length
  received : received = (sent.take buf.head).map some
  head_le_tail : buf.head ≤ buf.tail
  holds : Holds buf.len buf.inner sent buf.head

/-- What the producer knows: a slot is free when it writes one. -/
structure Producer.Valid (px : Producer T) (buf : RingBuffer T) : Prop where
  tail : px.tail = buf.tail
  free : px.free + (buf.tail - buf.head) ≤ buf.len
  store : ∀ val, px.pc = .store val → 0 < px.free
  publish : ∀ val, px.pc = .publish val →
    0 < px.free ∧ buf.inner (buf.tail % buf.len) = some val

/-- What the consumer knows: a value is there when it reads one. -/
structure Consumer.Valid (cx : Consumer T) (buf : RingBuffer T) (sent : List T) : Prop where
  head : cx.head = buf.head
  full : cx.full ≤ buf.tail - buf.head
  load : cx.pc = .load → 0 < cx.full
  publish : ∀ res, cx.pc = .publish res → 0 < cx.full ∧ res = sent[buf.head]?

/-- The calls of `send`, given what has been called and answered. -/
def Send.Calls (called answered : List T) : Send T → Prop
  | .idle => called = answered
  | .available val | .head val | .store val | .publish val => called = answered ++ [val]
  | .panicked | .released | .dropped => answered <+: called

/-- The number of references that a side holds. -/
def Send.references : Send T → ℕ
  | .dropped => 0
  | _ => 1

/-- The number of references that a side holds. -/
def Recv.references : Recv T → ℕ
  | .dropped => 0
  | _ => 1

/-- The invariant of the channel. -/
structure Valid (tr : List (Event T)) (s : State T) : Prop where
  buf : s.buf.Valid (sent tr) (received tr)
  px : s.px.Valid s.buf
  cx : s.cx.Valid s.buf (sent tr)
  calls : s.px.pc.Calls (called tr) (answered tr)
  references : s.references = s.px.pc.references + s.cx.pc.references
  freed : freed tr = if s.references = 0 then ((sent tr).drop s.buf.head).map some else []

namespace RingBuffer.Valid

variable {buf : RingBuffer T} {sent : List T} {received : List (Option T)}

theorem slot_eq (h : buf.Valid sent received) (pos : ℕ) : buf.slot pos = pos % buf.len :=
  slotOf_eq h.len pos

/-- The slot behind the window is written. -/
theorem store (h : buf.Valid sent received) (hfree : buf.tail < buf.head + buf.len) (val : T) :
    { buf with inner := Function.update buf.inner (buf.slot buf.tail) (some val) }.Valid
      sent received := by
  refine { h with holds := ?_ }
  rw [h.slot_eq, h.tail]
  exact h.holds.write (h.tail ▸ hfree) _

/-- The window is extended by the slot behind it. -/
theorem publishTail (h : buf.Valid sent received) {val : T}
    (hslot : buf.inner (buf.tail % buf.len) = some val) :
    { buf with tail := buf.tail + 1 }.Valid (sent ++ [val]) received where
  len := h.len
  tail := by simp [h.tail]
  received := by rw [List.take_append_of_le_length (h.tail ▸ h.head_le_tail), ← h.received]
  head_le_tail := h.head_le_tail.trans (Nat.le_succ _)
  holds := h.holds.append (h.tail ▸ hslot)

/-- The window is left by its first slot. -/
theorem publishHead (h : buf.Valid sent received) (hlt : buf.head < buf.tail) :
    { buf with head := buf.head + 1 }.Valid sent (received ++ [sent[buf.head]?]) where
  len := h.len
  tail := h.tail
  received := by
    have hlt' : buf.head < sent.length := h.tail ▸ hlt
    rw [List.take_add_one, List.map_append, ← h.received, List.getElem?_eq_getElem hlt']
    rfl
  head_le_tail := hlt
  holds := h.holds.mono (Nat.le_succ _)

/-- What `RingBuffer::drop` drops is what has not been received. -/
theorem freed_drop (h : buf.Valid sent received) :
    SpscBoundedCached.freed buf.drop = (sent.drop buf.head).map some := by
  have hdrop : SpscBoundedCached.freed buf.drop =
      (List.range' buf.head (buf.tail - buf.head)).map fun pos => buf.inner (buf.slot pos) := by
    rw [RingBuffer.drop, SpscBoundedCached.freed, List.filterMap_map]
    show List.filterMap (some ∘ fun pos => buf.inner (buf.slot pos)) _ = _
    rw [List.filterMap_eq_map]
  rw [hdrop, h.tail, funext fun pos => congrArg buf.inner (h.slot_eq pos)]
  exact h.holds.map_range'

end RingBuffer.Valid

namespace Valid

variable {tr out : List (Event T)} {s t : State T}

/-- A step of the producer that changes neither the buffer nor what has been sent. -/
theorem withProducer (h : Valid tr s) {px : Producer T} (hpx : px.Valid s.buf)
    (hreferences : px.pc.references = s.px.pc.references) (hsent : sent out = [])
    (hreceived : received out = []) (hfreed : SpscBoundedCached.freed out = [])
    (hcalls : px.pc.Calls (called (tr ++ out)) (answered (tr ++ out))) :
    Valid (tr ++ out) { s with px } where
  buf := by simpa [hsent, hreceived] using h.buf
  px := hpx
  cx := by simpa [hsent] using h.cx
  calls := hcalls
  references := by
    rw [hreferences]
    exact h.references
  freed := by simpa [hsent, hfreed] using h.freed

/-- A step of the consumer that changes neither the buffer nor what has been received. -/
theorem withConsumer (h : Valid tr s) {cx : Consumer T} (hcx : cx.Valid s.buf (sent tr))
    (hreferences : cx.pc.references = s.cx.pc.references) (hsent : sent out = [])
    (hreceived : received out = []) (hfreed : SpscBoundedCached.freed out = [])
    (hcalled : called out = []) (hanswered : answered out = []) :
    Valid (tr ++ out) { s with cx } where
  buf := by simpa [hsent, hreceived] using h.buf
  px := h.px
  cx := by simpa [hsent] using hcx
  calls := by simpa [hcalled, hanswered] using h.calls
  references := by
    rw [hreferences]
    exact h.references
  freed := by simpa [hsent, hfreed] using h.freed

/-- The test of the loop in `send`. -/
theorem loop {px : Producer T} {buf : RingBuffer T} (htail : px.tail = buf.tail)
    (hfree : px.free + (buf.tail - buf.head) ≤ buf.len) (val : T) : (px.loop val).Valid buf := by
  unfold Producer.loop
  split_ifs with hzero
  · exact ⟨htail, hfree, by simp, by simp⟩
  · exact ⟨htail, hfree, fun _ _ => Nat.pos_of_ne_zero hzero, by simp⟩

theorem calls_loop {px : Producer T} {val : T} {called answered : List T}
    (h : called = answered ++ [val]) : (px.loop val).pc.Calls called answered := by
  unfold Producer.loop
  split_ifs <;> exact h

theorem references_loop (px : Producer T) (val : T) : (px.loop val).pc.references = 1 := by
  unfold Producer.loop
  split_ifs <;> rfl

/-- One step of the producer. -/
theorem push (h : Valid tr s) (hstep : push s = some (t, out)) : Valid (tr ++ out) t := by
  obtain ⟨buf, references, ⟨pc, tail, free⟩, cx⟩ := s
  obtain rfl : tail = buf.tail := h.px.tail
  have hbuf : buf.Valid (sent tr) (received tr) := h.buf
  have hfree : free + (buf.tail - buf.head) ≤ buf.len := h.px.free
  have hcalls := h.calls
  cases pc with
  | idle | panicked | released | dropped => simp [SpscBoundedCached.push] at hstep
  | available val =>
    cases havailable : buf.available <;>
      obtain ⟨rfl, rfl⟩ := by simpa [SpscBoundedCached.push, havailable] using hstep
    · refine h.withProducer ⟨rfl, hfree, by simp, by simp⟩ rfl rfl rfl rfl ?_
      simpa [Send.Calls, called, answered] using hcalls
    · refine h.withProducer ⟨rfl, hfree, by simp, by simp⟩ rfl rfl rfl rfl ?_
      simpa [Send.Calls] using hcalls
  | head val =>
    have hcnt : checkedSub buf.tail buf.head = some (buf.tail - buf.head) :=
      checkedSub_of_le h.buf.head_le_tail
    have hlen : checkedSub buf.len (buf.tail - buf.head) =
        some (buf.len - (buf.tail - buf.head)) := checkedSub_of_le (by omega)
    obtain ⟨rfl, rfl⟩ := by simpa [SpscBoundedCached.push, hcnt, hlen] using hstep
    refine h.withProducer (loop rfl ?_ val) (references_loop _ val) rfl rfl rfl (calls_loop ?_)
    · show buf.len - (buf.tail - buf.head) + (buf.tail - buf.head) ≤ buf.len
      omega
    · simpa [Send.Calls] using hcalls
  | store val =>
    have hpos : 0 < free := h.px.store val rfl
    obtain ⟨rfl, rfl⟩ := by simpa [SpscBoundedCached.push] using hstep
    rw [List.append_nil]
    refine ⟨hbuf.store (by omega) val, ⟨rfl, hfree, by simp, ?_⟩, ⟨h.cx.head, h.cx.full, h.cx.load,
      h.cx.publish⟩, hcalls, h.references, h.freed⟩
    intro val' hval
    obtain rfl : val = val' := by simpa using hval
    refine ⟨hpos, ?_⟩
    simp only [hbuf.slot_eq, Function.update_self]
  | publish val =>
    obtain ⟨hpos, hslot⟩ : 0 < free ∧ buf.inner (buf.tail % buf.len) = some val :=
      h.px.publish val rfl
    cases htail : checkedAdd buf.tail 1 with
    | none =>
      obtain ⟨rfl, rfl⟩ := by simpa [SpscBoundedCached.push, htail] using hstep
      refine h.withProducer ⟨rfl, hfree, by simp, by simp⟩ rfl rfl rfl rfl ?_
      have hcalls' : called tr = answered tr ++ [val] := hcalls
      simp [Send.Calls, hcalls']
    | some tail =>
      obtain rfl := checkedAdd_eq_some htail
      have hfree' : checkedSub free 1 = some (free - 1) := checkedSub_of_le hpos
      obtain ⟨rfl, rfl⟩ := by simpa [SpscBoundedCached.push, htail, hfree'] using hstep
      have hsent : sent (tr ++ [Event.sent val]) = sent tr ++ [val] := by simp [sent]
      have hle := hbuf.head_le_tail
      constructor
      · rw [hsent]
        simpa [received] using hbuf.publishTail hslot
      · refine ⟨rfl, ?_, by simp, by simp⟩
        show free - 1 + (buf.tail + 1 - buf.head) ≤ buf.len
        omega
      · rw [hsent]
        -- the consumer may have loaded a value that it has not published yet
        refine ⟨h.cx.head, h.cx.full.trans (Nat.sub_le_sub_right (Nat.le_succ _) _), h.cx.load, ?_⟩
        intro res hres
        obtain ⟨hfull, rfl⟩ := h.cx.publish res hres
        refine ⟨hfull, ?_⟩
        have hlt : cx.full ≤ buf.tail - buf.head := h.cx.full
        have hlength := hbuf.tail
        dsimp only at hfull ⊢
        rw [List.getElem?_append_left (by omega)]
      · simpa [Send.Calls, called, answered] using hcalls
      · exact h.references
      · have hfreed := h.freed
        have hreferences : references ≠ 0 := by
          have : references = 1 + cx.pc.references := h.references
          omega
        dsimp only at hfreed ⊢
        rw [if_neg hreferences] at hfreed ⊢
        simpa [SpscBoundedCached.freed] using hfreed

/-- One step of the consumer. -/
theorem pop (h : Valid tr s) (hstep : pop s = some (t, out)) : Valid (tr ++ out) t := by
  obtain ⟨buf, references, px, ⟨pc, head, full⟩⟩ := s
  obtain rfl : head = buf.head := h.cx.head
  have hbuf : buf.Valid (sent tr) (received tr) := h.buf
  have hfull : full ≤ buf.tail - buf.head := h.cx.full
  cases pc with
  | idle | panicked | released | dropped => simp [SpscBoundedCached.pop] at hstep
  | available =>
    obtain ⟨rfl, rfl⟩ := by simpa [SpscBoundedCached.pop] using hstep
    exact h.withConsumer ⟨rfl, hfull, by simp, by simp⟩ rfl rfl rfl rfl rfl rfl
  | tail available =>
    have hcnt : checkedSub buf.tail buf.head = some (buf.tail - buf.head) :=
      checkedSub_of_le h.buf.head_le_tail
    by_cases hpos : buf.tail - buf.head > 0
    · obtain ⟨rfl, rfl⟩ := by
        simpa only [SpscBoundedCached.pop, hcnt, if_pos hpos, Option.some.injEq, Prod.mk.injEq]
          using hstep
      exact h.withConsumer ⟨rfl, le_rfl, fun _ => hpos, by simp⟩ rfl rfl rfl rfl rfl rfl
    · cases available <;> obtain ⟨rfl, rfl⟩ := by
        simpa only [SpscBoundedCached.pop, hcnt, if_neg hpos, Option.some.injEq, Prod.mk.injEq,
          if_true, Bool.false_eq_true, if_false] using hstep
      · exact h.withConsumer ⟨rfl, le_rfl, by simp, by simp⟩ rfl rfl rfl rfl rfl rfl
      · exact h.withConsumer ⟨rfl, le_rfl, by simp, by simp⟩ rfl rfl rfl rfl rfl rfl
  | load =>
    have hpos : 0 < full := h.cx.load rfl
    have hlength := hbuf.tail
    have hload : buf.inner (buf.slot buf.head) = (sent tr)[buf.head]? := by
      rw [hbuf.slot_eq]
      exact hbuf.holds _ le_rfl (by omega)
    obtain ⟨rfl, rfl⟩ := by simpa [SpscBoundedCached.pop] using hstep
    refine h.withConsumer ⟨rfl, hfull, by simp, ?_⟩ rfl rfl rfl rfl rfl rfl
    intro res hres
    obtain rfl : _ = res := by simpa using hres
    exact ⟨hpos, hload⟩
  | publish res =>
    obtain ⟨hpos, rfl⟩ : 0 < full ∧ res = (sent tr)[buf.head]? := h.cx.publish res rfl
    cases hhead : checkedAdd buf.head 1 with
    | none =>
      obtain ⟨rfl, rfl⟩ := by simpa [SpscBoundedCached.pop, hhead] using hstep
      exact h.withConsumer ⟨rfl, hfull, by simp, by simp⟩ rfl rfl rfl rfl rfl rfl
    | some head =>
      obtain rfl := checkedAdd_eq_some hhead
      have hfull' : checkedSub full 1 = some (full - 1) := checkedSub_of_le hpos
      obtain ⟨rfl, rfl⟩ := by simpa [SpscBoundedCached.pop, hhead, hfull'] using hstep
      have hsent : sent (tr ++ [Event.received (sent tr)[buf.head]?]) = sent tr := by simp [sent]
      constructor
      · rw [hsent]
        simpa [received] using hbuf.publishHead (by omega)
      · have hfree := h.px.free
        refine ⟨h.px.tail, ?_, h.px.store, h.px.publish⟩
        dsimp only at hfree ⊢
        omega
      · refine ⟨rfl, ?_, by simp, by simp⟩
        show full - 1 ≤ buf.tail - (buf.head + 1)
        omega
      · simpa [called, answered] using h.calls
      · exact h.references
      · have hfreed := h.freed
        have hreferences : references ≠ 0 := by
          have : references = px.pc.references + 1 := h.references
          omega
        dsimp only at hfreed ⊢
        rw [if_neg hreferences] at hfreed ⊢
        simpa [SpscBoundedCached.freed] using hfreed

/-- A handle is dropped: the buffer is no longer available to the other side. -/
theorem unavailable (h : s.buf.Valid (sent tr) (received tr)) :
    { s.buf with available := false }.Valid (sent tr) (received tr) :=
  ⟨h.len, h.tail, h.received, h.head_le_tail, h.holds⟩

theorem filterMap_drop {α : Type*} (f : Event T → Option α) (hf : ∀ res, f (.freed res) = none)
    (buf : RingBuffer T) : buf.drop.filterMap f = [] := by
  rw [RingBuffer.drop, List.filterMap_map]
  simp [hf]

/-- A reference goes that a side has held until now. -/
theorem release (hbuf : s.buf.Valid (sent tr) (received tr)) (hpx : s.px.Valid s.buf)
    (hcx : s.cx.Valid s.buf (sent tr)) (hcalls : s.px.pc.Calls (called tr) (answered tr))
    (hreferences : s.references = s.px.pc.references + s.cx.pc.references + 1)
    (hfreed : SpscBoundedCached.freed tr = []) :
    Valid (tr ++ s.release.2) s.release.1 := by
  have hout : sent s.release.2 = [] ∧ received s.release.2 = [] ∧ called s.release.2 = [] ∧
      answered s.release.2 = [] := by
    unfold State.release
    split_ifs
    · exact ⟨filterMap_drop _ (fun _ => rfl) _, filterMap_drop _ (fun _ => rfl) _,
        filterMap_drop _ (fun _ => rfl) _, filterMap_drop _ (fun _ => rfl) _⟩
    · exact ⟨rfl, rfl, rfl, rfl⟩
  obtain ⟨hsent, hreceived, hcalled, hanswered⟩ := hout
  constructor
  · rw [sent_append, received_append, hsent, hreceived, List.append_nil, List.append_nil]
    exact hbuf
  · exact hpx
  · rw [sent_append, hsent, List.append_nil]
    exact hcx
  · rw [called_append, answered_append, hcalled, hanswered, List.append_nil, List.append_nil]
    exact hcalls
  · show s.references - 1 = _
    rw [hreferences]
    rfl
  · rw [freed_append, sent_append, hfreed, hsent, List.append_nil, List.nil_append]
    show SpscBoundedCached.freed (if s.references = 1 then s.buf.drop else []) =
      if s.references - 1 = 0 then _ else _
    by_cases hlast : s.references = 1
    · rw [if_pos hlast, if_pos (by omega)]
      exact hbuf.freed_drop
    · rw [if_neg hlast, if_neg (by omega)]
      rfl

/-- As long as a side holds a reference, nothing has been dropped. -/
theorem freed_eq_nil (h : Valid tr s) (hpos : 0 < s.px.pc.references + s.cx.pc.references) :
    SpscBoundedCached.freed tr = [] := by
  have hreferences := h.references
  rw [h.freed, if_neg (by omega)]

/-- One step of either side keeps the invariant. -/
theorem step {a : Action T} (h : Valid tr s) (hstep : step s a = some (t, out)) :
    Valid (tr ++ out) t := by
  cases a with
  | push => exact h.push hstep
  | pop => exact h.pop hstep
  | send val =>
    obtain ⟨buf, references, ⟨pc, tail, free⟩, cx⟩ := s
    cases pc <;>
      simp only [SpscBoundedCached.step, Option.some.injEq, Prod.mk.injEq, reduceCtorEq] at hstep
    obtain ⟨rfl, rfl⟩ := hstep
    have hcalls : called tr = answered tr := h.calls
    refine h.withProducer (loop h.px.tail h.px.free val) (references_loop _ val) rfl rfl rfl
      (calls_loop ?_)
    rw [called_append, answered_append, hcalls]
    simp [called, answered]
  | dropProducer =>
    obtain ⟨buf, references, ⟨pc, tail, free⟩, cx⟩ := s
    cases pc <;>
      simp only [SpscBoundedCached.step, Option.some.injEq, Prod.mk.injEq, reduceCtorEq] at hstep
    all_goals
      obtain ⟨rfl, rfl⟩ := hstep
      rw [List.append_nil]
      refine ⟨unavailable h.buf, ⟨h.px.tail, h.px.free, by simp, by simp⟩,
        ⟨h.cx.head, h.cx.full, h.cx.load, h.cx.publish⟩, ?_, h.references, h.freed⟩
    · have hcalls : called tr = answered tr := h.calls
      simp [Send.Calls, hcalls]
    · exact h.calls
  | releaseProducer =>
    obtain ⟨buf, references, ⟨pc, tail, free⟩, cx⟩ := s
    cases pc <;>
      simp only [SpscBoundedCached.step, Option.some.injEq, reduceCtorEq] at hstep
    have hfreed := h.freed_eq_nil (by simp [Send.references])
    have hreferences : references = 1 + cx.pc.references := h.references
    obtain ⟨rfl, rfl⟩ := Prod.mk.inj hstep
    refine release h.buf ⟨h.px.tail, h.px.free, by simp, by simp⟩ h.cx h.calls ?_ hfreed
    simp only [Send.references]
    omega
  | recv =>
    obtain ⟨buf, references, px, ⟨pc, head, full⟩⟩ := s
    cases pc <;> simp only [SpscBoundedCached.step, reduceCtorEq] at hstep
    by_cases hzero : full = 0
    · obtain ⟨rfl, rfl⟩ := by simpa [hzero] using hstep
      exact h.withConsumer ⟨h.cx.head, Nat.zero_le _, by simp, by simp⟩ rfl rfl rfl rfl rfl rfl
    · obtain ⟨rfl, rfl⟩ := by simpa [hzero] using hstep
      exact h.withConsumer ⟨h.cx.head, h.cx.full, fun _ => Nat.pos_of_ne_zero hzero, by simp⟩
        rfl rfl rfl rfl rfl rfl
  | dropConsumer =>
    obtain ⟨buf, references, px, ⟨pc, head, full⟩⟩ := s
    cases pc <;>
      simp only [SpscBoundedCached.step, Option.some.injEq, Prod.mk.injEq, reduceCtorEq] at hstep
    all_goals
      obtain ⟨rfl, rfl⟩ := hstep
      rw [List.append_nil]
      exact ⟨unavailable h.buf, ⟨h.px.tail, h.px.free, h.px.store, h.px.publish⟩,
        ⟨h.cx.head, h.cx.full, by simp, by simp⟩, h.calls, h.references, h.freed⟩
  | releaseConsumer =>
    obtain ⟨buf, references, px, ⟨pc, head, full⟩⟩ := s
    cases pc <;>
      simp only [SpscBoundedCached.step, Option.some.injEq, reduceCtorEq] at hstep
    have hfreed := h.freed_eq_nil (by simp [Recv.references])
    have hreferences : references = px.pc.references + 1 := h.references
    obtain ⟨rfl, rfl⟩ := Prod.mk.inj hstep
    exact release h.buf h.px ⟨h.cx.head, h.cx.full, by simp, by simp⟩ h.calls hreferences hfreed

/-- A valid channel is a bounded queue so far. -/
theorem faithful (h : Valid tr s) : Faithful tr s where
  head_le_tail := h.buf.head_le_tail
  free_le := by
    intro _
    have := h.px.free
    omega
  full_le := fun _ => h.cx.full
  not_overwritten := by
    intro val pos hpc hhead htail
    -- the cached number of free slots is never too large
    have hpos : 0 < s.px.free := h.px.store val hpc
    have hfree := h.px.free
    rw [h.px.tail, h.buf.slot_eq, h.buf.slot_eq]
    exact Holds.slot_ne hhead htail (by omega)
  written := by
    intro hpc
    have hpos : 0 < s.cx.full := h.cx.load hpc
    have hfull := h.cx.full
    have htail := h.buf.tail
    have hlt : s.buf.head < (sent tr).length := by omega
    refine ⟨(sent tr)[s.buf.head], ?_, ?_⟩
    · rw [h.cx.head, List.getElem?_eq_getElem hlt]
    · rw [h.cx.head, h.buf.slot_eq, h.buf.holds _ le_rfl hlt, List.getElem?_eq_getElem hlt]
  received_prefix := by
    rw [h.buf.received]
    exact (List.take_prefix _ _).map _
  answered_prefix := by
    have hcalls := h.calls
    generalize s.px.pc = pc at hcalls
    cases pc with
    | idle => exact hcalls ▸ List.prefix_rfl
    | available val | head val | store val | publish val =>
      have hcalls' : called tr = answered tr ++ [val] := hcalls
      exact hcalls' ▸ List.prefix_append _ _
    | panicked | released | dropped => exact hcalls
  dropped := by
    intro hpx hcx
    have hreferences : s.references = 0 := by rw [h.references, hpx, hcx]; rfl
    rw [h.buf.received, h.freed, if_pos hreferences, ← List.map_append, List.take_append_drop]

end Valid

theorem valid_init (cap : ℕ) : Valid [] (spscBoundedCached T cap).init where
  buf := {
    len := Nat.isPowerOfTwo_nextPowerOfTwo cap
    tail := rfl
    received := rfl
    head_le_tail := le_rfl
    holds := .nil }
  px := ⟨rfl, le_rfl, nofun, nofun⟩
  cx := ⟨rfl, le_rfl, nofun, nofun⟩
  calls := rfl
  references := rfl
  freed := rfl

/-- **The channel is a bounded queue** along every run. -/
theorem spscBoundedCached_faithful {cap : ℕ} {tr : List (Event T)} {s : State T}
    (h : (spscBoundedCached T cap).Run Machine.unguarded tr s) : Faithful tr s :=
  (h.invariant (P := Valid) (valid_init cap) fun _ _ _ _ _ ih _ hstep => ih.step hstep).faithful

/-- The two handles go. -/
def handlesDropped : List (Action T) :=
  [.dropProducer, .releaseProducer, .dropConsumer, .releaseConsumer]

/-- One slot, two values: the first is received before the second finds its slot free, and the
second is dropped with the buffer. -/
theorem spscBoundedCached_faithful_twice :
    ∃ tr s, (spscBoundedCached ℕ 1).Run Machine.unguarded tr s ∧ Faithful tr s ∧
      sent tr = [1, 2] ∧ received tr ++ freed tr = [some 1, some 2] := by
  have h : ((spscBoundedCached ℕ 1).exec
      (([.send 1, .push, .push, .send 2, .push, .push, .push, .recv, .pop, .pop, .pop, .pop,
        .push, .push, .push] : List (Action ℕ)) ++ handlesDropped)).map
        (fun result => (sent result.2, received result.2 ++ freed result.2)) =
          some ([1, 2], [some 1, some 2]) := by decide +kernel
  obtain ⟨⟨s, tr⟩, hexec, hevents⟩ := Option.map_eq_some_iff.mp h
  obtain ⟨hsent, hreceived⟩ := Prod.mk.inj hevents
  have hrun := Machine.run_exec hexec
  exact ⟨tr, s, hrun, spscBoundedCached_faithful hrun, hsent, hreceived⟩

end SpscBoundedCached

end Channel
