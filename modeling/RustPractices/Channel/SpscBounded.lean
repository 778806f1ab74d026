import RustPractices.Channel.Ring
import RustPractices.Transition.Machine

/-!
# The bounded channel of one producer and one consumer

The two sides share a ring buffer and the atomic positions `head` and `tail`. Each atomic load
or store and each access to a slot is a step of the side that makes it, so that the steps of
`push_back` and `pop_front` interleave in any order. The program counter of a side says which
access it makes next and carries the local variables that it still needs.

`full` compares the next position of `tail`, masked, with `head` as it is. The comparison is the
intended one during the first round of `head` only; afterwards the buffer never looks full.

## Main definitions

* `RingBuffer`, `RingBuffer.new`: what the two sides share
* `PushBack`, `PopFront`: the program counters of the two sides
* `spscBounded`: the machine of all interleavings
* `Faithful`: the channel is a queue so far
* `FullIsExact`: the side condition under which `full` is right
* `Closing`, `Disconnects`: what the flag says about the handles, and when a call may fail

## Main results

* `spscBounded_faithful`: the channel is a queue along every run in which `full` is right
* `spscBounded_overruns`: it is not one along every run
* `spscBounded_frees`: each value is received, or dropped with the buffer
* `spscBounded_disconnects`: a call fails only when the other side has gone
-/

open Transition

namespace Channel

namespace SpscBounded

universe u

variable {T : Type u}

/-- `RingBuffer`, where `len` is the number of slots in `inner`. -/
structure RingBuffer (T : Type u) where
  inner : Slots T
  len : ℕ
  head : ℕ
  tail : ℕ
  available : Bool

/-- `RingBuffer::new`. -/
def RingBuffer.new (cap : ℕ) : RingBuffer T where
  inner := fun _ => none
  len := cap.nextPowerOfTwo
  head := 0
  tail := 0
  available := true

/-- The slot of a position. -/
def RingBuffer.slot (buf : RingBuffer T) (pos : ℕ) : ℕ := pos &&& (buf.len - 1)

/-- `pos + 1` on `usize`, which panics on overflow. -/
def next (pos : ℕ) : Option ℕ := if pos + 1 < 2 ^ 64 then some (pos + 1) else none

/-- `RingBuffer::drop`: the slots that are read and dropped, in order. -/
def RingBuffer.drop (buf : RingBuffer T) : List (Option T) :=
  (List.range' buf.head (buf.tail - buf.head)).map fun pos => buf.inner (buf.slot pos)

/-- Where the producer is in `push_back(val)`. -/
inductive PushBack (T : Type u)
  | idle
  /-- `full` loads `tail`. -/
  | fullTail (val : T)
  /-- `full` loads `head`, and compares it with the masked successor of `tail`. -/
  | fullHead (val : T) (next : ℕ)
  /-- `self.available()` in the loop. -/
  | available (val : T)
  /-- `let tail_cur = self.tail()`. -/
  | tailCur (val : T)
  /-- `self.tail()` in the argument of `store`. -/
  | storeTail (val : T) (tailCur : ℕ)
  /-- The slot is written. -/
  | store (val : T) (tailCur pos : ℕ)
  /-- `self.tail.store(tail_cur + 1)`. -/
  | advance (val : T) (tailCur : ℕ)
  | panicked
  | dropped

/-- Where the consumer is in `pop_front()`. -/
inductive PopFront (T : Type u)
  | idle
  /-- `empty` loads `head`. -/
  | emptyHead
  /-- `empty` loads `tail`. -/
  | emptyTail (head : ℕ)
  /-- `self.available()` in the loop. -/
  | available
  /-- The second `empty` loads `head`. -/
  | againHead (available : Bool)
  /-- The second `empty` loads `tail`. -/
  | againTail (available : Bool) (head : ℕ)
  /-- `let head_cur = self.head()`. -/
  | headCur
  /-- The slot is read. -/
  | load (headCur : ℕ)
  /-- `self.head.store(head_cur + 1)`. -/
  | advance (headCur : ℕ) (res : Option T)
  | panicked
  | dropped

/-- The shared buffer and the two sides. -/
structure State (T : Type u) where
  buf : RingBuffer T
  px : PushBack T
  cx : PopFront T

/-- How a call of `send` or `recv` returns. A slot that was never written gives no value. -/
inductive Event (T : Type u)
  | sent (val : T)
  | refused (val : T)
  | received (res : Option T)
  | disconnected

/-- What can happen next: a call starts, a side makes its next step, or a handle is dropped. -/
inductive Action (T : Type u)
  | send (val : T)
  | push
  | dropProducer
  | recv
  | pop
  | dropConsumer

/-- The next step of `push_back`. -/
def push (s : State T) : Option (State T × List (Event T)) :=
  match s.px with
  | .fullTail val =>
    match next s.buf.tail with
    | some tail => some ({ s with px := .fullHead val tail }, [])
    | none => some ({ s with px := .panicked }, [])
  | .fullHead val tail =>
    if s.buf.slot tail = s.buf.head then some ({ s with px := .available val }, [])
    else some ({ s with px := .tailCur val }, [])
  | .available val =>
    if s.buf.available then some ({ s with px := .fullTail val }, [])
    else some ({ s with px := .idle }, [.refused val])
  | .tailCur val => some ({ s with px := .storeTail val s.buf.tail }, [])
  | .storeTail val tailCur => some ({ s with px := .store val tailCur s.buf.tail }, [])
  | .store val tailCur pos =>
    some ({ s with
      buf := { s.buf with inner := Function.update s.buf.inner (s.buf.slot pos) (some val) },
      px := .advance val tailCur }, [])
  | .advance val tailCur =>
    match next tailCur with
    | some tail => some ({ s with buf := { s.buf with tail }, px := .idle }, [.sent val])
    | none => some ({ s with px := .panicked }, [])
  | .idle | .panicked | .dropped => none

/-- The next step of `pop_front`. -/
def pop (s : State T) : Option (State T × List (Event T)) :=
  match s.cx with
  | .emptyHead => some ({ s with cx := .emptyTail s.buf.head }, [])
  | .emptyTail head =>
    if head = s.buf.tail then some ({ s with cx := .available }, [])
    else some ({ s with cx := .headCur }, [])
  | .available => some ({ s with cx := .againHead s.buf.available }, [])
  | .againHead available => some ({ s with cx := .againTail available s.buf.head }, [])
  | .againTail available head =>
    if head ≠ s.buf.tail then some ({ s with cx := .headCur }, [])
    else if available then some ({ s with cx := .emptyHead }, [])
    else some ({ s with cx := .idle }, [.disconnected])
  | .headCur => some ({ s with cx := .load s.buf.head }, [])
  | .load headCur => some ({ s with cx := .advance headCur (s.buf.inner (s.buf.slot headCur)) }, [])
  | .advance headCur res =>
    match next headCur with
    | some head => some ({ s with buf := { s.buf with head }, cx := .idle }, [.received res])
    | none => some ({ s with cx := .panicked }, [])
  | .idle | .panicked | .dropped => none

/-- One step of one side. A call starts when its side is in no other call, and a handle is
dropped when its side is in no call or has panicked. -/
def step (s : State T) : Action T → Option (State T × List (Event T))
  | .send val =>
    match s.px with
    | .idle => some ({ s with px := .fullTail val }, [])
    | _ => none
  | .push => push s
  | .dropProducer =>
    match s.px with
    | .idle | .panicked =>
      some ({ s with buf := { s.buf with available := false }, px := .dropped }, [])
    | _ => none
  | .recv =>
    match s.cx with
    | .idle => some ({ s with cx := .emptyHead }, [])
    | _ => none
  | .pop => pop s
  | .dropConsumer =>
    match s.cx with
    | .idle | .panicked =>
      some ({ s with buf := { s.buf with available := false }, cx := .dropped }, [])
    | _ => none

/-- **The channel**: all interleavings of its two sides. -/
def spscBounded (T : Type u) (cap : ℕ) : Machine (State T) (Action T) (Event T) where
  init := { buf := .new cap, px := .idle, cx := .idle }
  step := step

/-! ## What the calls have returned -/

/-- The values for which `send` has returned `Ok`, in order. -/
def sent (tr : List (Event T)) : List T :=
  tr.filterMap fun
    | .sent val => some val
    | _ => none

/-- The values that `recv` has returned, in order. -/
def received (tr : List (Event T)) : List (Option T) :=
  tr.filterMap fun
    | .received res => some res
    | _ => none

@[simp] theorem sent_append (tr tr' : List (Event T)) : sent (tr ++ tr') = sent tr ++ sent tr' :=
  List.filterMap_append

@[simp] theorem received_append (tr tr' : List (Event T)) :
    received (tr ++ tr') = received tr ++ received tr' :=
  List.filterMap_append

/-- **The channel is a queue so far**: at most `len` values are unread, the slot that the producer
is about to write holds none of them, and what has been received is the front of what has been
sent. -/
structure Faithful (tr : List (Event T)) (s : State T) : Prop where
  head_le_tail : s.buf.head ≤ s.buf.tail
  tail_le : s.buf.tail ≤ s.buf.head + s.buf.len
  not_overwritten : ∀ val tailCur pos, s.px = .store val tailCur pos →
    s.buf.tail ≤ pos ∧ pos < s.buf.head + s.buf.len
  received_prefix : received tr <+: (sent tr).map some

/-- The step is not a comparison in `full` that meets a buffer without a free slot after `head`
has left the first round. -/
def FullIsExact (s : State T) (a : Action T) : Prop :=
  a matches .push → (s.px matches .fullHead _ _) →
    s.buf.head < s.buf.len ∨ s.buf.tail < s.buf.head + s.buf.len

instance (s : State T) (a : Action T) : Decidable (FullIsExact s a) :=
  inferInstanceAs (Decidable (_ → _ → _ ∨ _))

/-! ## The invariant -/

/-- The shared buffer, given what has been sent and received. Within the first round of `head`
one slot stays free. -/
structure RingBuffer.Valid (buf : RingBuffer T) (sent : List T) (received : List (Option T)) :
    Prop where
  len : ∃ k, buf.len = 2 ^ k
  tail : buf.tail = sent.length
  head : buf.head = received.length
  received : received = (sent.take buf.head).map some
  head_le_tail : buf.head ≤ buf.tail
  tail_le : buf.tail ≤ buf.head + buf.len
  tail_lt : buf.head < buf.len → buf.tail < buf.head + buf.len
  holds : Holds buf.len buf.inner sent buf.head

/-- There is a slot to write, and one more within the first round of `head`. -/
structure RingBuffer.Room (buf : RingBuffer T) : Prop where
  slot : buf.tail < buf.head + buf.len
  first_round : buf.head < buf.len → buf.tail + 1 < buf.head + buf.len

/-- What the producer knows at its program counter. -/
def PushBack.Valid (buf : RingBuffer T) : PushBack T → Prop
  | .fullHead _ next => next = buf.tail + 1
  | .tailCur _ => buf.Room
  | .storeTail _ cur => cur = buf.tail ∧ buf.Room
  | .store _ cur pos => cur = buf.tail ∧ pos = buf.tail ∧ buf.Room
  | .advance val cur => cur = buf.tail ∧ buf.Room ∧ buf.inner (buf.tail % buf.len) = some val
  | _ => True

/-- What the consumer knows at its program counter. -/
def PopFront.Valid (buf : RingBuffer T) (sent : List T) : PopFront T → Prop
  | .emptyTail head | .againTail _ head => head = buf.head
  | .headCur => buf.head < buf.tail
  | .load cur => cur = buf.head ∧ buf.head < buf.tail
  | .advance cur res => cur = buf.head ∧ buf.head < buf.tail ∧ res = sent[buf.head]?
  | _ => True

/-- The invariant of the channel. -/
structure Valid (sent : List T) (received : List (Option T)) (s : State T) : Prop where
  buf : s.buf.Valid sent received
  px : s.px.Valid s.buf
  cx : s.cx.Valid s.buf sent

namespace RingBuffer.Valid

variable {buf : RingBuffer T} {sent : List T} {received : List (Option T)}

theorem slot_eq (h : buf.Valid sent received) (pos : ℕ) : buf.slot pos = pos % buf.len := by
  obtain ⟨k, hk⟩ := h.len
  rw [slot, hk, Nat.and_two_pow_sub_one_eq_mod]

theorem len_pos (h : buf.Valid sent received) : 0 < buf.len := by
  obtain ⟨k, hk⟩ := h.len
  rw [hk]
  exact Nat.two_pow_pos k

/-- The comparison in `full`: the buffer looks full in the first round of `head` only. -/
theorem slot_eq_head_iff (h : buf.Valid sent received) :
    buf.slot (buf.tail + 1) = buf.head ↔
      buf.head < buf.len ∧ buf.tail + 1 = buf.head + buf.len := by
  rw [h.slot_eq]
  constructor
  · intro hslot
    have hfirst : buf.head < buf.len := by
      rw [← hslot]
      exact Nat.mod_lt _ h.len_pos
    refine ⟨hfirst, ?_⟩
    by_contra hne
    have htail := h.tail_lt hfirst
    have hle := h.head_le_tail
    have hmod : buf.head % buf.len = (buf.tail + 1) % buf.len := by
      rw [hslot, Nat.mod_eq_of_lt hfirst]
    have := eq_of_slot_eq hmod (by omega) (by omega)
    omega
  · rintro ⟨hfirst, htail⟩
    rw [htail, Nat.add_mod_right, Nat.mod_eq_of_lt hfirst]

/-- Where `full` is right, a buffer that does not look full has room. -/
theorem room (h : buf.Valid sent received)
    (hexact : buf.head < buf.len ∨ buf.tail < buf.head + buf.len)
    (hslot : buf.slot (buf.tail + 1) ≠ buf.head) : buf.Room := by
  have hne := mt h.slot_eq_head_iff.mpr hslot
  constructor
  · exact hexact.elim h.tail_lt id
  · intro hfirst
    have := h.tail_lt hfirst
    have : buf.tail + 1 ≠ buf.head + buf.len := fun heq => hne ⟨hfirst, heq⟩
    omega

/-- The slot behind the window is written. -/
theorem store (h : buf.Valid sent received) (hroom : buf.Room) (val : T) :
    { buf with inner := Function.update buf.inner (buf.slot buf.tail) (some val) }.Valid
      sent received := by
  refine { h with holds := ?_ }
  rw [h.slot_eq, h.tail]
  exact h.holds.write (h.tail ▸ hroom.slot) _

/-- The window is extended by the slot behind it. -/
theorem advanceTail (h : buf.Valid sent received) (hroom : buf.Room) {val : T}
    (hslot : buf.inner (buf.tail % buf.len) = some val) :
    { buf with tail := buf.tail + 1 }.Valid (sent ++ [val]) received where
  len := h.len
  tail := by simp [h.tail]
  head := h.head
  received := by rw [List.take_append_of_le_length (h.tail ▸ h.head_le_tail), ← h.received]
  head_le_tail := h.head_le_tail.trans (Nat.le_succ _)
  tail_le := hroom.slot
  tail_lt := hroom.first_round
  holds := h.holds.append (h.tail ▸ hslot)

/-- The window is left by its first slot. -/
theorem advanceHead (h : buf.Valid sent received) (hlt : buf.head < buf.tail) :
    { buf with head := buf.head + 1 }.Valid sent (received ++ [sent[buf.head]?]) where
  len := h.len
  tail := h.tail
  head := by simp [h.head]
  received := by
    have hlt' : buf.head < sent.length := h.tail ▸ hlt
    rw [List.take_add_one, List.map_append, ← h.received, List.getElem?_eq_getElem hlt']
    rfl
  head_le_tail := hlt
  tail_le := by
    have := h.tail_le
    simp only
    omega
  tail_lt := by
    intro hfirst
    have := h.tail_lt (by simp only at hfirst; omega)
    simp only
    omega
  holds := h.holds.mono (Nat.le_succ _)

/-- What `RingBuffer::drop` drops is what has not been received. -/
theorem drop_eq (h : buf.Valid sent received) : buf.drop = (sent.drop buf.head).map some := by
  have hslots : buf.drop =
      (List.range' buf.head (sent.length - buf.head)).map fun pos => buf.inner (pos % buf.len) := by
    rw [RingBuffer.drop, h.tail, funext fun pos => congrArg buf.inner (h.slot_eq pos)]
  rw [hslots]
  exact h.holds.map_range'

end RingBuffer.Valid

/-! ## The steps -/

theorem next_eq_some {pos pos' : ℕ} (h : next pos = some pos') : pos' = pos + 1 := by
  unfold next at h
  split_ifs at h
  exact (Option.some.inj h).symm

/-- When the buffer loses no room, the producer knows what it knew. -/
theorem PushBack.Valid.mono {buf buf' : RingBuffer T} {px : PushBack T} (h : px.Valid buf)
    (htail : buf'.tail = buf.tail) (hlen : buf'.len = buf.len) (hinner : buf'.inner = buf.inner)
    (hroom : buf.Room → buf'.Room) : px.Valid buf' := by
  cases px <;> simp_all only [PushBack.Valid, and_self]

/-- When values are added behind the window, the consumer knows what it knew. -/
theorem PopFront.Valid.mono {buf buf' : RingBuffer T} {sent sent' : List T} {cx : PopFront T}
    (h : cx.Valid buf sent) (hhead : buf'.head = buf.head) (htail : buf.tail ≤ buf'.tail)
    (hlength : buf.tail = sent.length) (hsent : sent <+: sent') : cx.Valid buf' sent' := by
  cases cx with
  | headCur =>
    rw [PopFront.Valid] at h ⊢
    omega
  | load cur =>
    rw [PopFront.Valid] at h ⊢
    omega
  | advance cur res =>
    obtain ⟨hcur, hlt, rfl⟩ := h
    refine ⟨by omega, by omega, ?_⟩
    obtain ⟨more, rfl⟩ := hsent
    rw [hhead, List.getElem?_append_left (by omega)]
  | emptyTail | againTail => exact h.trans hhead.symm
  | _ => trivial

/-- When the window is left by its first slot, there is more room. -/
theorem RingBuffer.Room.advanceHead {buf : RingBuffer T} (h : buf.Room) :
    { buf with head := buf.head + 1 }.Room where
  slot := by
    have := h.slot
    show buf.tail < buf.head + 1 + buf.len
    omega
  first_round := by
    intro hfirst
    have := h.first_round (Nat.lt_of_succ_lt hfirst)
    show buf.tail + 1 < buf.head + 1 + buf.len
    omega

namespace Valid

variable {tr out : List (Event T)} {s t : State T}

/-- One step of the producer. -/
theorem push (h : Valid (sent tr) (received tr) s) (hexact : FullIsExact s .push)
    (hstep : push s = some (t, out)) : Valid (sent (tr ++ out)) (received (tr ++ out)) t := by
  obtain ⟨buf, px, cx⟩ := s
  obtain ⟨hbuf, hpx, hcx⟩ := h
  cases px with
  | idle | panicked | dropped => simp [SpscBounded.push] at hstep
  | fullTail val =>
    cases hnext : next buf.tail with
    | none =>
      obtain ⟨rfl, rfl⟩ := by simpa [SpscBounded.push, hnext] using hstep
      simpa using ⟨hbuf, trivial, hcx⟩
    | some tail =>
      obtain ⟨rfl, rfl⟩ := by simpa [SpscBounded.push, hnext] using hstep
      simpa using ⟨hbuf, next_eq_some hnext, hcx⟩
  | fullHead val tail =>
    obtain rfl : tail = buf.tail + 1 := hpx
    by_cases hslot : buf.slot (buf.tail + 1) = buf.head
    · obtain ⟨rfl, rfl⟩ := by simpa [SpscBounded.push, hslot] using hstep
      simpa using ⟨hbuf, trivial, hcx⟩
    · obtain ⟨rfl, rfl⟩ := by simpa [SpscBounded.push, hslot] using hstep
      simpa using ⟨hbuf, hbuf.room (hexact rfl rfl) hslot, hcx⟩
  | available val =>
    cases havailable : buf.available <;>
      obtain ⟨rfl, rfl⟩ := by simpa [SpscBounded.push, havailable] using hstep
    · simpa [SpscBounded.sent, SpscBounded.received] using ⟨hbuf, trivial, hcx⟩
    · simpa using ⟨hbuf, trivial, hcx⟩
  | tailCur val =>
    obtain ⟨rfl, rfl⟩ := by simpa [SpscBounded.push] using hstep
    simpa using ⟨hbuf, ⟨rfl, hpx⟩, hcx⟩
  | storeTail val cur =>
    obtain ⟨rfl, rfl⟩ := by simpa [SpscBounded.push] using hstep
    simpa using ⟨hbuf, ⟨hpx.1, rfl, hpx.2⟩, hcx⟩
  | store val cur pos =>
    obtain ⟨rfl, rfl, hroom⟩ : cur = buf.tail ∧ pos = buf.tail ∧ buf.Room := hpx
    obtain ⟨rfl, rfl⟩ := by simpa [SpscBounded.push] using hstep
    refine ⟨by simpa using hbuf.store hroom val, ⟨rfl, ⟨hroom.slot, hroom.first_round⟩, ?_⟩, ?_⟩
    · simp only [hbuf.slot_eq, Function.update_self]
    · exact hcx.mono rfl le_rfl hbuf.tail (by simp)
  | advance val cur =>
    obtain ⟨rfl, hroom, hslot⟩ :
      cur = buf.tail ∧ buf.Room ∧ buf.inner (buf.tail % buf.len) = some val := hpx
    cases hnext : next buf.tail with
    | none =>
      obtain ⟨rfl, rfl⟩ := by simpa [SpscBounded.push, hnext] using hstep
      simpa using ⟨hbuf, trivial, hcx⟩
    | some tail =>
      obtain ⟨rfl, rfl⟩ := by simpa [SpscBounded.push, hnext] using hstep
      obtain rfl := next_eq_some hnext
      refine ⟨?_, trivial, ?_⟩
      · simpa [SpscBounded.sent, SpscBounded.received] using hbuf.advanceTail hroom hslot
      · exact hcx.mono rfl (Nat.le_succ _) hbuf.tail (by simp)

/-- One step of the consumer. -/
theorem pop (h : Valid (sent tr) (received tr) s) (hstep : pop s = some (t, out)) :
    Valid (sent (tr ++ out)) (received (tr ++ out)) t := by
  obtain ⟨buf, px, cx⟩ := s
  obtain ⟨hbuf, hpx, hcx⟩ := h
  cases cx with
  | idle | panicked | dropped => simp [SpscBounded.pop] at hstep
  | emptyHead | available | againHead =>
    obtain ⟨rfl, rfl⟩ := by simpa [SpscBounded.pop] using hstep
    refine ⟨by simpa using hbuf, hpx, ?_⟩
    simp [PopFront.Valid]
  | emptyTail head =>
    obtain rfl : head = buf.head := hcx
    by_cases hempty : buf.head = buf.tail
    · obtain ⟨rfl, rfl⟩ := by simpa [SpscBounded.pop, hempty] using hstep
      simpa using ⟨hbuf, hpx, trivial⟩
    · obtain ⟨rfl, rfl⟩ := by simpa [SpscBounded.pop, hempty] using hstep
      simpa using ⟨hbuf, hpx, lt_of_le_of_ne hbuf.head_le_tail hempty⟩
  | againTail available head =>
    obtain rfl : head = buf.head := hcx
    by_cases hempty : buf.head = buf.tail
    · cases available <;> obtain ⟨rfl, rfl⟩ := by simpa [SpscBounded.pop, hempty] using hstep
      · simpa [SpscBounded.sent, SpscBounded.received] using ⟨hbuf, hpx, trivial⟩
      · simpa using ⟨hbuf, hpx, trivial⟩
    · obtain ⟨rfl, rfl⟩ := by simpa [SpscBounded.pop, hempty] using hstep
      simpa using ⟨hbuf, hpx, lt_of_le_of_ne hbuf.head_le_tail hempty⟩
  | headCur =>
    obtain ⟨rfl, rfl⟩ := by simpa [SpscBounded.pop] using hstep
    simpa using ⟨hbuf, hpx, ⟨rfl, hcx⟩⟩
  | load cur =>
    obtain ⟨rfl, hlt⟩ : cur = buf.head ∧ buf.head < buf.tail := hcx
    obtain ⟨rfl, rfl⟩ := by simpa [SpscBounded.pop] using hstep
    have hload : buf.inner (buf.slot buf.head) = (sent tr)[buf.head]? := by
      rw [hbuf.slot_eq]
      exact hbuf.holds _ le_rfl (hbuf.tail ▸ hlt)
    simpa using ⟨hbuf, hpx, ⟨rfl, hlt, hload⟩⟩
  | advance cur res =>
    obtain ⟨rfl, hlt, rfl⟩ :
      cur = buf.head ∧ buf.head < buf.tail ∧ res = (sent tr)[buf.head]? := hcx
    cases hnext : next buf.head with
    | none =>
      obtain ⟨rfl, rfl⟩ := by simpa [SpscBounded.pop, hnext] using hstep
      simpa using ⟨hbuf, hpx, trivial⟩
    | some head =>
      obtain ⟨rfl, rfl⟩ := by simpa [SpscBounded.pop, hnext] using hstep
      obtain rfl := next_eq_some hnext
      refine ⟨?_, ?_, trivial⟩
      · simpa [SpscBounded.sent, SpscBounded.received] using hbuf.advanceHead hlt
      · exact hpx.mono rfl rfl rfl RingBuffer.Room.advanceHead

/-- One step of either side keeps the invariant. -/
theorem step {a : Action T} (h : Valid (sent tr) (received tr) s) (hexact : FullIsExact s a)
    (hstep : step s a = some (t, out)) : Valid (sent (tr ++ out)) (received (tr ++ out)) t := by
  cases a with
  | push => exact h.push hexact hstep
  | pop => exact h.pop hstep
  | send val =>
    obtain ⟨buf, px, cx⟩ := s
    cases px <;> simp only [SpscBounded.step, Option.some.injEq, Prod.mk.injEq, reduceCtorEq] at hstep
    obtain ⟨rfl, rfl⟩ := hstep
    simpa using ⟨h.buf, trivial, h.cx⟩
  | recv =>
    obtain ⟨buf, px, cx⟩ := s
    cases cx <;> simp only [SpscBounded.step, Option.some.injEq, Prod.mk.injEq, reduceCtorEq] at hstep
    obtain ⟨rfl, rfl⟩ := hstep
    simpa using ⟨h.buf, h.px, trivial⟩
  | dropProducer =>
    obtain ⟨buf, px, cx⟩ := s
    have hbuf : { buf with available := false }.Valid (sent tr) (received tr) := { h.buf with }
    cases px <;> simp only [SpscBounded.step, Option.some.injEq, Prod.mk.injEq, reduceCtorEq] at hstep
    all_goals
      obtain ⟨rfl, rfl⟩ := hstep
      simpa using ⟨hbuf, trivial, h.cx⟩
  | dropConsumer =>
    obtain ⟨buf, px, cx⟩ := s
    have hbuf : { buf with available := false }.Valid (sent tr) (received tr) := { h.buf with }
    have hpx : px.Valid { buf with available := false } :=
      h.px.mono rfl rfl rfl fun hroom => ⟨hroom.slot, hroom.first_round⟩
    cases cx <;> simp only [SpscBounded.step, Option.some.injEq, Prod.mk.injEq, reduceCtorEq] at hstep
    all_goals
      obtain ⟨rfl, rfl⟩ := hstep
      simpa using ⟨hbuf, hpx, trivial⟩

/-- A valid channel is a queue so far. -/
theorem faithful (h : Valid (sent tr) (received tr) s) : Faithful tr s where
  head_le_tail := h.buf.head_le_tail
  tail_le := h.buf.tail_le
  not_overwritten := by
    intro val cur pos hpx
    obtain ⟨-, rfl, hroom⟩ : cur = s.buf.tail ∧ pos = s.buf.tail ∧ s.buf.Room := by
      have := h.px
      rwa [hpx] at this
    exact ⟨le_rfl, hroom.slot⟩
  received_prefix := by
    rw [h.buf.received]
    exact (List.take_prefix _ _).map _

end Valid

theorem valid_init (cap : ℕ) : Valid [] [] (spscBounded T cap).init where
  buf := {
    len := Nat.isPowerOfTwo_nextPowerOfTwo cap
    tail := rfl
    head := rfl
    received := rfl
    head_le_tail := le_rfl
    tail_le := Nat.zero_le _
    tail_lt := fun hpos => by
      show 0 < 0 + _
      rwa [zero_add]
    holds := .nil }
  px := trivial
  cx := trivial

theorem valid_of_run {cap : ℕ} {tr : List (Event T)} {s : State T}
    (h : (spscBounded T cap).Run FullIsExact tr s) : Valid (sent tr) (received tr) s :=
  h.invariant (P := fun tr s => Valid (sent tr) (received tr) s) (valid_init cap)
    fun _ _ _ _ _ ih hexact hstep => ih.step hexact hstep

/-- **The channel is a queue** along every run in which `full` is right. -/
theorem spscBounded_faithful {cap : ℕ} {tr : List (Event T)} {s : State T}
    (h : (spscBounded T cap).Run FullIsExact tr s) : Faithful tr s :=
  (valid_of_run h).faithful

/-- A call of `send` that meets a buffer that does not look full, without a step of the
consumer in between. -/
def sendCall (val : T) : List (Action T) := .send val :: List.replicate 6 .push

/-- A call of `recv` that meets a buffer that is not empty, without a step of the producer in
between. -/
def recvCall : List (Action T) := .recv :: List.replicate 5 .pop

/-- Two slots, and three values that are received at once. -/
theorem spscBounded_faithful_thrice :
    ∃ tr s, (spscBounded ℕ 2).Run FullIsExact tr s ∧ Faithful tr s ∧
      received tr = [some 1, some 2, some 3] := by
  have h : (((spscBounded ℕ 2).guard FullIsExact).exec
      (sendCall 1 ++ recvCall ++ sendCall 2 ++ recvCall ++ sendCall 3 ++ recvCall)).map
        (fun result => received result.2) = some [some 1, some 2, some 3] := by decide +kernel
  obtain ⟨⟨s, tr⟩, hexec, hreceived⟩ := Option.map_eq_some_iff.mp h
  have hrun := (Machine.run_exec hexec).of_guard
  exact ⟨tr, s, hrun, spscBounded_faithful hrun, hreceived⟩

/-- Two slots, and three values that are sent after two have been received: three values are
unread. -/
theorem spscBounded_overruns :
    ¬ ∀ (tr : List (Event ℕ)) (s : State ℕ), (spscBounded ℕ 2).Run Machine.unguarded tr s →
      Faithful tr s := by
  intro hall
  have h : ((spscBounded ℕ 2).exec (sendCall 1 ++ recvCall ++ sendCall 2 ++ recvCall ++
      sendCall 3 ++ sendCall 4 ++ sendCall 5)).map
        (fun result => (result.1.buf.len, result.1.buf.head, result.1.buf.tail)) =
          some (2, 2, 5) := by decide +kernel
  obtain ⟨⟨s, tr⟩, hexec, hpositions⟩ := Option.map_eq_some_iff.mp h
  obtain ⟨hlen, hhead, htail⟩ : s.buf.len = 2 ∧ s.buf.head = 2 ∧ s.buf.tail = 5 := by
    simpa using hpositions
  have := (hall tr s (Machine.run_exec hexec)).tail_le
  omega

/-- **Each value that has been sent is received or dropped**, exactly once and in order, along every run in
which `full` is right: what `recv` has returned and what the buffer drops, when it goes, is what has been
sent. -/
theorem spscBounded_frees {cap : ℕ} {tr : List (Event T)} {s : State T}
    (h : (spscBounded T cap).Run FullIsExact tr s) : received tr ++ s.buf.drop = (sent tr).map some := by
  have hvalid := (valid_of_run h).buf
  rw [hvalid.drop_eq, hvalid.received, ← List.map_append, List.take_append_drop]

/-- One value is received, and the other one is dropped with the buffer. -/
theorem spscBounded_frees_two : ∃ tr s, (spscBounded ℕ 2).Run FullIsExact tr s ∧ sent tr = [1, 2] ∧
    received tr = [some 1] ∧ [some 1] ++ s.buf.drop = [some 1, some 2] := by
  have h : (((spscBounded ℕ 2).guard FullIsExact).exec
      (sendCall 1 ++ recvCall ++ sendCall 2 ++ [.dropProducer, .dropConsumer])).map
        (fun result => (sent result.2, received result.2)) = some ([1, 2], [some 1]) := by decide +kernel
  obtain ⟨⟨s, tr⟩, hexec, hevents⟩ := Option.map_eq_some_iff.mp h
  obtain ⟨hsent, hreceived⟩ := Prod.mk.inj hevents
  have hrun := (Machine.run_exec hexec).of_guard
  have hfrees := spscBounded_frees hrun
  have hsent' : sent tr = [1, 2] := hsent
  have hreceived' : received tr = [some 1] := hreceived
  rw [hsent', hreceived'] at hfrees
  exact ⟨tr, s, hrun, hsent', hreceived', hfrees⟩

/-- Where `full` is wrong, a value is dropped twice and another one never: the last of five values is
written over the third one, and read with both slots. -/
theorem not_spscBounded_frees : ∃ tr s, (spscBounded ℕ 2).Run Machine.unguarded tr s ∧
    sent tr = [1, 2, 3, 4, 5] ∧ received tr ++ s.buf.drop = [some 1, some 2, some 5, some 4, some 5] := by
  have h : ((spscBounded ℕ 2).exec (sendCall 1 ++ recvCall ++ sendCall 2 ++ recvCall ++
      sendCall 3 ++ sendCall 4 ++ sendCall 5 ++ [.dropProducer, .dropConsumer])).map
        (fun result => (sent result.2, received result.2 ++ result.1.buf.drop)) =
          some ([1, 2, 3, 4, 5], [some 1, some 2, some 5, some 4, some 5]) := by decide +kernel
  obtain ⟨⟨s, tr⟩, hexec, hevents⟩ := Option.map_eq_some_iff.mp h
  obtain ⟨hsent, hfreed⟩ := Prod.mk.inj hevents
  exact ⟨tr, s, Machine.run_exec hexec, hsent, hfreed⟩

/-! ## The end of the channel -/

/-- The consumer has found the flag cleared. -/
def PopFront.Closed : PopFront T → Prop
  | .againHead found | .againTail found _ => found = false
  | _ => False

/-- **What the flag says about the handles.** -/
structure Closing (tr : List (Event T)) (s : State T) : Prop where
  /-- One of the handles has cleared the flag. -/
  available : s.buf.available = false → s.px = .dropped ∨ s.cx = .dropped
  /-- What the consumer has found cleared has been cleared by the producer. -/
  closed : s.cx.Closed → s.px = .dropped
  disconnected : .disconnected ∈ tr → s.px = .dropped ∧ (received tr).length = (sent tr).length
  refused : ∀ val, .refused val ∈ tr → s.cx = .dropped

/-- **A call fails only when the other side has gone**, and `recv` only when all that has been sent has
been received. -/
structure Disconnects (tr : List (Event T)) (s : State T) : Prop where
  disconnected : .disconnected ∈ tr → s.px = .dropped ∧ received tr = (sent tr).map some
  refused : ∀ val, .refused val ∈ tr → s.cx = .dropped

section Spec

variable {s t : State T} {out : List (Event T)}

/-- What a step of `push_back` leaves alone, and when it fails. -/
structure PushSpec (s t : State T) (out : List (Event T)) : Prop where
  px : s.px ≠ .dropped
  cx : t.cx = s.cx
  available : t.buf.available = s.buf.available
  disconnected : .disconnected ∉ out
  refused : ∀ val, .refused val ∈ out → s.buf.available = false

theorem push_spec (h : push s = some (t, out)) : PushSpec s t out := by
  obtain ⟨buf, px, cx⟩ := s
  cases px with
  | idle | panicked | dropped => simp [push] at h
  | fullTail val =>
    cases hnext : next buf.tail <;> obtain ⟨rfl, rfl⟩ := by simpa [push, hnext] using h
    all_goals exact ⟨by simp, rfl, rfl, by simp, by simp⟩
  | fullHead val tail =>
    simp only [push] at h
    split_ifs at h <;> obtain ⟨rfl, rfl⟩ := by simpa using h
    all_goals exact ⟨by simp, rfl, rfl, by simp, by simp⟩
  | available val =>
    cases havailable : buf.available <;> obtain ⟨rfl, rfl⟩ := by simpa [push, havailable] using h
    · exact ⟨by simp, rfl, rfl, by simp, fun _ _ => havailable⟩
    · exact ⟨by simp, rfl, rfl, by simp, by simp⟩
  | tailCur val | storeTail val cur | store val cur pos =>
    obtain ⟨rfl, rfl⟩ := by simpa [push] using h
    exact ⟨by simp, rfl, rfl, by simp, by simp⟩
  | advance val cur =>
    cases hnext : next cur <;> obtain ⟨rfl, rfl⟩ := by simpa [push, hnext] using h
    all_goals exact ⟨by simp, rfl, rfl, by simp, by simp⟩

/-- What a step of `pop_front` leaves alone, and when it fails. -/
structure PopSpec (s t : State T) (out : List (Event T)) : Prop where
  cx : s.cx ≠ .dropped
  px : t.px = s.px
  available : t.buf.available = s.buf.available
  closed : t.cx.Closed → s.buf.available = false ∨ s.cx.Closed
  sent : sent out = []
  disconnected : .disconnected ∈ out → s.cx = .againTail false s.buf.tail
  refused : ∀ val, .refused val ∉ out

theorem pop_spec (h : pop s = some (t, out)) : PopSpec s t out := by
  obtain ⟨buf, px, cx⟩ := s
  cases cx with
  | idle | panicked | dropped => simp [pop] at h
  | emptyHead | headCur | load cur =>
    obtain ⟨rfl, rfl⟩ := by simpa [pop] using h
    exact ⟨by simp, rfl, rfl, False.elim, rfl, by simp, by simp⟩
  | emptyTail head =>
    simp only [pop] at h
    split_ifs at h <;> obtain ⟨rfl, rfl⟩ := by simpa using h
    all_goals exact ⟨by simp, rfl, rfl, False.elim, rfl, by simp, by simp⟩
  | available =>
    obtain ⟨rfl, rfl⟩ := by simpa [pop] using h
    exact ⟨by simp, rfl, rfl, .inl, rfl, by simp, by simp⟩
  | againHead available =>
    obtain ⟨rfl, rfl⟩ := by simpa [pop] using h
    exact ⟨by simp, rfl, rfl, .inr, rfl, by simp, by simp⟩
  | againTail available head =>
    simp only [pop] at h
    split_ifs at h with hempty havailable <;> obtain ⟨rfl, rfl⟩ := by simpa using h
    · exact ⟨by simp, rfl, rfl, False.elim, rfl, by simp, by simp⟩
    · exact ⟨by simp, rfl, rfl, False.elim, rfl, by simp, by simp⟩
    · -- the flag had been read before the buffer was found empty
      refine ⟨by simp, rfl, rfl, False.elim, rfl, fun _ => ?_, by simp⟩
      rw [Bool.not_eq_true] at havailable
      rw [not_not] at hempty
      rw [havailable, hempty]
  | advance cur res =>
    cases hnext : next cur <;> obtain ⟨rfl, rfl⟩ := by simpa [pop, hnext] using h
    all_goals exact ⟨by simp, rfl, rfl, False.elim, rfl, by simp, by simp⟩

end Spec

namespace Closing

variable {tr out : List (Event T)} {s t : State T}

/-- A step of a producer that has not gone. -/
theorem withProducer (h : Closing tr s) (hpx : s.px ≠ .dropped) (hcx : t.cx = s.cx)
    (havailable : t.buf.available = s.buf.available) (hdisconnected : .disconnected ∉ out)
    (hrefused : ∀ val, .refused val ∈ out → s.buf.available = false) : Closing (tr ++ out) t where
  available := by
    intro hfalse
    rw [havailable] at hfalse
    exact .inr (hcx ▸ (h.available hfalse).resolve_left hpx)
  closed := by
    intro hclosed
    rw [hcx] at hclosed
    exact absurd (h.closed hclosed) hpx
  disconnected := by
    intro hmem
    rcases List.mem_append.mp hmem with hmem | hmem
    · exact absurd (h.disconnected hmem).1 hpx
    · exact absurd hmem hdisconnected
  refused := by
    intro val hmem
    rw [hcx]
    rcases List.mem_append.mp hmem with hmem | hmem
    · exact h.refused val hmem
    · exact (h.available (hrefused val hmem)).resolve_left hpx

/-- Behind the end of the producer, nothing is sent, and all that has been sent has been received. -/
theorem received_eq (hvalid : Valid (sent (tr ++ out)) (received (tr ++ out)) t) (hsent : sent out = [])
    (h : (received tr).length = (sent tr).length) :
    (received (tr ++ out)).length = (sent (tr ++ out)).length := by
  have hle : (received (tr ++ out)).length ≤ (sent (tr ++ out)).length := by
    rw [hvalid.buf.received, List.length_map]
    exact List.length_take_le' _ _
  rw [received_append, sent_append, hsent, List.append_nil, List.length_append] at hle ⊢
  omega

/-- A step of a consumer that has not gone. -/
theorem withConsumer (h : Closing tr s) (hvalid : Valid (sent (tr ++ out)) (received (tr ++ out)) t)
    (hcx : s.cx ≠ .dropped) (hpx : t.px = s.px) (havailable : t.buf.available = s.buf.available)
    (hsent : sent out = []) (hclosed : t.cx.Closed → s.buf.available = false ∨ s.cx.Closed)
    (hdisconnected : .disconnected ∈ out → s.cx.Closed ∧ (received tr).length = (sent tr).length)
    (hrefused : ∀ val, .refused val ∉ out) : Closing (tr ++ out) t where
  available := by
    intro hfalse
    rw [havailable] at hfalse
    exact .inl (hpx ▸ (h.available hfalse).resolve_right hcx)
  closed := by
    intro hnow
    rw [hpx]
    rcases hclosed hnow with hfalse | hbefore
    · exact (h.available hfalse).resolve_right hcx
    · exact h.closed hbefore
  disconnected := by
    intro hmem
    rw [hpx]
    rcases List.mem_append.mp hmem with hmem | hmem
    · obtain ⟨hgone, hlength⟩ := h.disconnected hmem
      exact ⟨hgone, received_eq hvalid hsent hlength⟩
    · obtain ⟨hbefore, hlength⟩ := hdisconnected hmem
      exact ⟨h.closed hbefore, received_eq hvalid hsent hlength⟩
  refused := by
    intro val hmem
    rcases List.mem_append.mp hmem with hmem | hmem
    · exact absurd (h.refused val hmem) hcx
    · exact absurd hmem (hrefused val)

/-- **One step of either side.** -/
theorem step {a : Action T} (h : Closing tr s) (hs : Valid (sent tr) (received tr) s)
    (ht : Valid (sent (tr ++ out)) (received (tr ++ out)) t) (hstep : step s a = some (t, out)) :
    Closing (tr ++ out) t := by
  cases a with
  | push =>
    have hspec := push_spec hstep
    exact h.withProducer hspec.px hspec.cx hspec.available hspec.disconnected hspec.refused
  | pop =>
    have hspec := pop_spec hstep
    refine h.withConsumer ht hspec.cx hspec.px hspec.available hspec.sent hspec.closed ?_ hspec.refused
    intro hmem
    have hpc := hspec.disconnected hmem
    refine ⟨by rw [hpc]; exact rfl, ?_⟩
    have hhead : s.buf.tail = s.buf.head := by
      have hcx := hs.cx
      rwa [hpc] at hcx
    rw [← hs.buf.head, ← hs.buf.tail, hhead]
  | send val =>
    obtain ⟨buf, px, cx⟩ := s
    cases px <;> simp only [SpscBounded.step, Option.some.injEq, Prod.mk.injEq, reduceCtorEq] at hstep
    obtain ⟨rfl, rfl⟩ := hstep
    exact h.withProducer (by simp) rfl rfl (by simp) (by simp)
  | recv =>
    obtain ⟨buf, px, cx⟩ := s
    cases cx <;> simp only [SpscBounded.step, Option.some.injEq, Prod.mk.injEq, reduceCtorEq] at hstep
    obtain ⟨rfl, rfl⟩ := hstep
    exact h.withConsumer ht (by simp) rfl rfl rfl False.elim (by simp) (by simp)
  | dropProducer =>
    obtain ⟨buf, px, cx⟩ := s
    cases px <;> simp only [SpscBounded.step, Option.some.injEq, Prod.mk.injEq, reduceCtorEq] at hstep
    all_goals
      obtain ⟨rfl, rfl⟩ := hstep
      rw [List.append_nil]
      exact {
        available := fun _ => .inl rfl
        closed := fun _ => rfl
        disconnected := fun hmem => ⟨rfl, (h.disconnected hmem).2⟩
        refused := h.refused }
  | dropConsumer =>
    obtain ⟨buf, px, cx⟩ := s
    cases cx <;> simp only [SpscBounded.step, Option.some.injEq, Prod.mk.injEq, reduceCtorEq] at hstep
    all_goals
      obtain ⟨rfl, rfl⟩ := hstep
      rw [List.append_nil]
      exact {
        available := fun _ => .inr rfl
        closed := False.elim
        disconnected := h.disconnected
        refused := fun _ _ => rfl }

/-- A channel that closes as its flag says loses nothing. -/
theorem disconnects (h : Closing tr s) (hs : Valid (sent tr) (received tr) s) : Disconnects tr s where
  disconnected := by
    intro hmem
    obtain ⟨hgone, hlength⟩ := h.disconnected hmem
    refine ⟨hgone, ?_⟩
    rw [← hs.buf.head] at hlength
    rw [hs.buf.received, List.take_of_length_le hlength.ge]
  refused := h.refused

end Closing

theorem closing_init (cap : ℕ) : Closing [] (spscBounded T cap).init where
  available := nofun
  closed := False.elim
  disconnected := nofun
  refused := nofun

/-- **The disconnection loses nothing** along every run in which `full` is right: a call fails only when the
other side has gone, and `recv` only when everything has been received. -/
theorem spscBounded_disconnects {cap : ℕ} {tr : List (Event T)} {s : State T}
    (h : (spscBounded T cap).Run FullIsExact tr s) : Disconnects tr s := by
  have hclosing := h.invariant_over valid_of_run (closing_init cap)
    fun _ _ _ _ _ hs ht ih hstep => ih.step hs ht hstep
  exact hclosing.disconnects (valid_of_run h)

/-- `recv` has failed. -/
def Event.isDisconnected : Event T → Bool
  | .disconnected => true
  | _ => false

/-- A value is received behind the end of its producer, and then `recv` fails. -/
theorem spscBounded_disconnects_once : ∃ tr s, (spscBounded ℕ 2).Run FullIsExact tr s ∧
    .disconnected ∈ tr ∧ received tr = [some 1] ∧ Disconnects tr s := by
  have h : (((spscBounded ℕ 2).guard FullIsExact).exec
      (sendCall 1 ++ [.dropProducer] ++ recvCall ++ recvCall)).map
        (fun result => (result.2.any (·.isDisconnected), received result.2)) =
          some (true, [some 1]) := by decide +kernel
  obtain ⟨⟨s, tr⟩, hexec, hevents⟩ := Option.map_eq_some_iff.mp h
  obtain ⟨hany, hreceived⟩ := Prod.mk.inj hevents
  obtain ⟨event, hmem, hevent⟩ := List.any_eq_true.mp hany
  have hrun := (Machine.run_exec hexec).of_guard
  cases event with
  | disconnected => exact ⟨tr, s, hrun, hmem, hreceived, spscBounded_disconnects hrun⟩
  | _ => cases hevent

end SpscBounded

end Channel
