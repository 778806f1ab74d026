import RustPractices.Channel.Ring
import RustPractices.Transition.Locking
import RustPractices.Transition.Machine

/-!
# The bounded channel of many producers and one consumer

The producers push one after the other, under the mutex of `tail`; the consumer pops without a
lock. `tail`, `head` and `len` are three variables: a push writes the slot, then moves `tail`,
then raises `len`; a pop moves `head`, then reads the slot, then lowers `len`. Each atomic
operation, each access to a slot, to `tail` or to the mutex is a step of the side that makes it.
The ring buffer is dropped with the last handle.

## Main definitions

* `RingBuffer`, `PushBack`, `PopFront`: what the sides share, and where they are
* `mpscBounded`: the machine of all interleavings, with producers that are cloned and dropped
* `Faithful`: the channel is a bounded queue so far

## Main results

* `Valid.step`: one step of any side keeps the invariant
* `mpscBounded_faithful`: the channel is a bounded queue along every run
-/

open Transition

namespace Channel

namespace MpscBounded

universe u

variable {T : Type u}

/-- `RingBuffer`, where `capacity` is the number of slots in `inner`. The mutex of `tail` is held by a
producer. -/
structure RingBuffer (T : Type u) where
  inner : Slots T
  capacity : ℕ
  head : ℕ
  tail : Mutex ℕ ℕ
  len : ℕ
  pxCount : ℕ
  cxCount : Bool

/-- `RingBuffer::new`. -/
def RingBuffer.new (cap : ℕ) : RingBuffer T where
  inner := fun _ => none
  capacity := cap.nextPowerOfTwo
  head := 0
  tail := { data := 0, holder := none, poisoned := false }
  len := 0
  pxCount := 1
  cxCount := true

/-- The slot of a position. -/
def RingBuffer.slot (buf : RingBuffer T) (pos : ℕ) : ℕ := slotOf buf.capacity pos

/-- The mutex is taken or given back. -/
def RingBuffer.setHolder (buf : RingBuffer T) (holder : Option ℕ) : RingBuffer T :=
  { buf with tail := { buf.tail with holder } }

/-- Where a producer is in `push_back(val)`. -/
inductive PushBack (T : Type u)
  | idle
  /-- `self.tail.lock()`. -/
  | lock (val : T)
  /-- `self.len()` in `is_full`. -/
  | isFull (val : T)
  /-- `self.cx_exists()`. -/
  | cxExists (val : T)
  /-- The lock goes with `continue`. -/
  | again (val : T)
  /-- The lock goes with `return Err(SendError(val))`. -/
  | refuse (val : T)
  /-- The slot is written. -/
  | store (val : T)
  /-- `*tail += 1`. -/
  | advance (val : T)
  /-- `self.len.fetch_add(1)`. -/
  | addLen (val : T)
  /-- The lock goes with `return Ok(())`. -/
  | unlock (val : T)
  /-- `self.buf.clone()` in `clone`, after `px_count` has been raised. -/
  | clone
  | panicked
  /-- `px_count` has been lowered by `drop`, and the reference to the buffer is still held. -/
  | released
  | dropped

/-- Where the consumer is in `pop_front()`. -/
inductive PopFront (T : Type u)
  | idle
  /-- `self.is_empty()` in the head of the loop. -/
  | isEmpty
  /-- `self.px_exist()`. -/
  | pxExist
  /-- `self.is_empty()` in the body of the loop. -/
  | again (pxExist : Bool)
  /-- `self.head.fetch_add(1)`. -/
  | head
  /-- The slot is read. -/
  | load (head : ℕ)
  /-- `self.len.fetch_sub(1)`. -/
  | subLen (res : Option T)
  /-- `cx_count` has been stored by `drop`, and the reference to the buffer is still held. -/
  | released
  | dropped

/-- The shared buffer with the number of references to it, the producers and the consumer. -/
structure State (T : Type u) where
  buf : RingBuffer T
  references : ℕ
  px : List (PushBack T)
  cx : PopFront T

/-- How the calls of `send` and `recv` start and return, the moment in which a value becomes
visible to the consumer, and what `RingBuffer::drop` drops. A producer is known by its index, and a
slot that was never written gives no value. -/
inductive Event (T : Type u)
  | called (x : ℕ) (val : T)
  | pushed (x : ℕ) (val : T)
  | sent (x : ℕ) (val : T)
  | refused (x : ℕ) (val : T)
  | received (res : Option T)
  | disconnected
  | freed (res : Option T)

/-- What can happen next: a call starts, a side makes its next step, a producer is cloned, or a
handle is dropped: its `drop` runs, and then its reference to the buffer goes. -/
inductive Action (T : Type u)
  | send (x : ℕ) (val : T)
  | push (x : ℕ)
  | clone (x : ℕ)
  | cloneBuf (x : ℕ)
  | dropProducer (x : ℕ)
  | releaseProducer (x : ℕ)
  | recv
  | pop
  | dropConsumer
  | releaseConsumer

/-- The next step of `push_back` of the producer `x`. -/
def push (s : State T) (x : ℕ) : Option (State T × List (Event T)) :=
  match s.px[x]? with
  | some (.lock val) =>
    match s.buf.tail.holder with
    | some _ => none
    | none =>
      -- `lock` fails after a panic of a holder, and `expect` panics in turn
      if s.buf.tail.poisoned then some ({ s with px := s.px.set x .panicked }, [])
      else some ({ s with buf := s.buf.setHolder (some x), px := s.px.set x (.isFull val) }, [])
  | some (.isFull val) =>
    if s.buf.len = s.buf.capacity then some ({ s with px := s.px.set x (.cxExists val) }, [])
    else some ({ s with px := s.px.set x (.store val) }, [])
  | some (.cxExists val) =>
    if s.buf.cxCount then some ({ s with px := s.px.set x (.again val) }, [])
    else some ({ s with px := s.px.set x (.refuse val) }, [])
  | some (.again val) =>
    some ({ s with buf := s.buf.setHolder none, px := s.px.set x (.lock val) }, [])
  | some (.refuse val) =>
    some ({ s with buf := s.buf.setHolder none, px := s.px.set x .idle }, [.refused x val])
  | some (.store val) =>
    some ({ s with
      buf := { s.buf with
        inner := Function.update s.buf.inner (s.buf.slot s.buf.tail.data) (some val) }
      px := s.px.set x (.advance val) }, [])
  | some (.advance val) =>
    match checkedAdd s.buf.tail.data 1 with
    | none =>
      some ({ s with
        buf := { s.buf with tail := { s.buf.tail with holder := none, poisoned := true } }
        px := s.px.set x .panicked }, [])
    | some data =>
      some ({ s with
        buf := { s.buf with tail := { s.buf.tail with data } }
        px := s.px.set x (.addLen val) }, [])
  | some (.addLen val) =>
    some ({ s with
      buf := { s.buf with len := wrappingAdd s.buf.len 1 }
      px := s.px.set x (.unlock val) }, [.pushed x val])
  | some (.unlock val) =>
    some ({ s with buf := s.buf.setHolder none, px := s.px.set x .idle }, [.sent x val])
  | some .idle | some .clone | some .panicked | some .released | some .dropped | none => none

/-- The next step of `pop_front`. -/
def pop (s : State T) : Option (State T × List (Event T)) :=
  match s.cx with
  | .isEmpty =>
    if s.buf.len = 0 then some ({ s with cx := .pxExist }, [])
    else some ({ s with cx := .head }, [])
  | .pxExist => some ({ s with cx := .again (decide (s.buf.pxCount > 0)) }, [])
  | .again pxExist =>
    if s.buf.len = 0 then
      if pxExist then some ({ s with cx := .isEmpty }, [])
      else some ({ s with cx := .idle }, [.disconnected])
    else some ({ s with cx := .head }, [])
  | .head =>
    some ({ s with
      buf := { s.buf with head := wrappingAdd s.buf.head 1 }
      cx := .load s.buf.head }, [])
  | .load head => some ({ s with cx := .subLen (s.buf.inner (s.buf.slot head)) }, [])
  | .subLen res =>
    some ({ s with
      buf := { s.buf with len := wrappingSub s.buf.len 1 }
      cx := .idle }, [.received res])
  | .idle | .released | .dropped => none

/-- `RingBuffer::drop`. -/
def RingBuffer.drop (buf : RingBuffer T) : List (Event T) :=
  match checkedAdd buf.head buf.len with
  | none => []
  | some stop =>
    (List.range' buf.head (stop - buf.head)).map fun pos => .freed (buf.inner (buf.slot pos))

/-- A reference to the buffer goes, and with the last one the buffer. -/
def State.release (s : State T) : State T × List (Event T) :=
  ({ s with references := s.references - 1 }, if s.references = 1 then s.buf.drop else [])

/-- One step of one side. A call starts when its side is in no other call, a producer is cloned
when it is in no call, and a handle is dropped when its side is in no call or has panicked. -/
def step (s : State T) : Action T → Option (State T × List (Event T))
  | .send x val =>
    match s.px[x]? with
    | some .idle => some ({ s with px := s.px.set x (.lock val) }, [.called x val])
    | _ => none
  | .push x => push s x
  | .clone x =>
    match s.px[x]? with
    | some .idle =>
      some ({ s with
        buf := { s.buf with pxCount := s.buf.pxCount + 1 }
        px := s.px.set x .clone }, [])
    | _ => none
  | .cloneBuf x =>
    match s.px[x]? with
    | some .clone =>
      some ({ s with references := s.references + 1, px := s.px.set x .idle ++ [.idle] }, [])
    | _ => none
  | .dropProducer x =>
    match s.px[x]? with
    | some .idle | some .panicked =>
      some ({ s with
        buf := { s.buf with pxCount := s.buf.pxCount - 1 }
        px := s.px.set x .released }, [])
    | _ => none
  | .releaseProducer x =>
    match s.px[x]? with
    | some .released => some (State.release { s with px := s.px.set x .dropped })
    | _ => none
  | .recv =>
    match s.cx with
    | .idle => some ({ s with cx := .isEmpty }, [])
    | _ => none
  | .pop => pop s
  | .dropConsumer =>
    match s.cx with
    | .idle => some ({ s with buf := { s.buf with cxCount := false }, cx := .released }, [])
    | _ => none
  | .releaseConsumer =>
    match s.cx with
    | .released => some (State.release { s with cx := .dropped })
    | _ => none

/-- **The channel**: all interleavings of its sides, which begin with one producer. -/
def mpscBounded (T : Type u) (cap : ℕ) : Machine (State T) (Action T) (Event T) where
  init := { buf := .new cap, references := 2, px := [.idle], cx := .idle }
  step := step

/-! ## What the calls have returned -/

/-- The values with which the producer `x` has called `send`, in order. -/
def called (x : ℕ) (tr : List (Event T)) : List T :=
  tr.filterMap fun
    | .called y val => if y = x then some val else none
    | _ => none

/-- The values that `send` of the producer `x` has enqueued or handed back, in order. -/
def answered (x : ℕ) (tr : List (Event T)) : List T :=
  tr.filterMap fun
    | .sent y val | .refused y val => if y = x then some val else none
    | _ => none

/-- The values that have become visible to the consumer, with their producers, in the order in which
the pushes held the lock. -/
def pushed (tr : List (Event T)) : List (ℕ × T) :=
  tr.filterMap fun
    | .pushed x val => some (x, val)
    | _ => none

/-- The values for which `send` has returned `Ok`, with their producers, in order. -/
def sent (tr : List (Event T)) : List (ℕ × T) :=
  tr.filterMap fun
    | .sent x val => some (x, val)
    | _ => none

/-- The values that `recv` has returned, in order. -/
def received (tr : List (Event T)) : List (Option T) :=
  tr.filterMap fun
    | .received res => some res
    | _ => none

/-- The values that `RingBuffer::drop` has dropped, in order. -/
def freed (tr : List (Event T)) : List (Option T) :=
  tr.filterMap fun
    | .freed res => some res
    | _ => none

section Append

variable (x : ℕ) (tr tr' : List (Event T))

@[simp] theorem called_append : called x (tr ++ tr') = called x tr ++ called x tr' :=
  List.filterMap_append

@[simp] theorem answered_append : answered x (tr ++ tr') = answered x tr ++ answered x tr' :=
  List.filterMap_append

@[simp] theorem pushed_append : pushed (tr ++ tr') = pushed tr ++ pushed tr' :=
  List.filterMap_append

@[simp] theorem sent_append : sent (tr ++ tr') = sent tr ++ sent tr' := List.filterMap_append

@[simp] theorem received_append : received (tr ++ tr') = received tr ++ received tr' :=
  List.filterMap_append

@[simp] theorem freed_append : freed (tr ++ tr') = freed tr ++ freed tr' :=
  List.filterMap_append

end Append

/-- The producer is between `lock` and the end of the guard. -/
def PushBack.Inside : PushBack T → Prop
  | .isFull _ | .cxExists _ | .again _ | .refuse _ | .store _ | .advance _ | .addLen _
  | .unlock _ => True
  | .idle | .lock _ | .clone | .panicked | .released | .dropped => False

/-- The value that a producer has enqueued and for which it has not returned yet. -/
def PushBack.returning (x : ℕ) : PushBack T → List (ℕ × T)
  | .unlock val => [(x, val)]
  | _ => []

/-- The value that the holder of the lock has enqueued and for which it has not returned yet. -/
def returning (holder : Option ℕ) (px : List (PushBack T)) : List (ℕ × T) :=
  match holder with
  | none => []
  | some x => (px[x]?).elim [] (PushBack.returning x)

/-- The first position that has not been read. -/
def State.unread (s : State T) : ℕ :=
  match s.cx with
  | .load head => head
  | _ => s.buf.head

/-- **The channel is a bounded queue so far.** -/
structure Faithful (tr : List (Event T)) (s : State T) : Prop where
  len_le : s.buf.len ≤ s.buf.capacity
  /-- The pushes hold the lock one after the other. -/
  exclusive : ∀ (x y : ℕ) (p q : PushBack T), s.px[x]? = some p → s.px[y]? = some q →
    p.Inside → q.Inside → x = y
  /-- The slot that is about to be written holds no unread value. -/
  not_overwritten : ∀ (x : ℕ) (val : T) pos, s.px[x]? = some (.store val) → s.unread ≤ pos →
    pos < s.buf.tail.data → s.buf.slot pos ≠ s.buf.slot s.buf.tail.data
  /-- The slot that is about to be read holds the next value. -/
  written : ∀ head, s.cx = .load head → ∃ x val, (pushed tr)[head]? = some (x, val) ∧
    s.buf.inner (s.buf.slot head) = some val
  received_prefix : received tr <+: (pushed tr).map fun push => some push.2
  /-- The pushes that hold the lock one after the other return `Ok` in this order. -/
  pushed_eq : pushed tr = sent tr ++ returning s.buf.tail.holder s.px
  /-- Each call enqueues its value or hands it back, and those of one producer do so in order. -/
  answered_prefix : ∀ x, answered x tr <+: called x tr
  /-- At the end, each value that has been sent has been received or dropped, exactly once. -/
  dropped : (∀ p ∈ s.px, p = .dropped) → s.cx = .dropped →
    received tr ++ freed tr = (sent tr).map fun push => some push.2

/-! ## The invariant -/

/-- The values that have become visible to the consumer, in order. -/
def values (tr : List (Event T)) : List T := (pushed tr).map Prod.snd

/-- The shared buffer, given what has been pushed and received. -/
structure RingBuffer.Valid (buf : RingBuffer T) (values : List T) (received : List (Option T)) :
    Prop where
  capacity : ∃ k, buf.capacity = 2 ^ k
  len : buf.len + received.length = values.length
  len_le : buf.len ≤ buf.capacity
  holds : Holds buf.capacity buf.inner values received.length
  received : received = (values.take received.length).map some

/-- What a producer knows inside of the lock: `tail` is ahead of the values between its step and the
one of `len`, and a slot is free when it is written. -/
def PushBack.Valid (buf : RingBuffer T) (values : List T) : PushBack T → Prop
  | .isFull _ | .cxExists _ | .again _ | .refuse _ | .unlock _ => buf.tail.data = values.length
  | .store _ => buf.tail.data = values.length ∧ buf.len < buf.capacity
  | .advance val =>
    buf.tail.data = values.length ∧ buf.len < buf.capacity ∧
      buf.inner (values.length % buf.capacity) = some val
  | .addLen val =>
    buf.tail.data = values.length + 1 ∧ buf.len < buf.capacity ∧
      buf.inner (values.length % buf.capacity) = some val
  | .idle | .lock _ | .clone | .panicked | .released | .dropped => True

/-- What the consumer knows: `head` is ahead of what it has received between its step and the one of
`len`, and a value is there when it is read. -/
def PopFront.Valid (buf : RingBuffer T) (values : List T) (received : List (Option T)) :
    PopFront T → Prop
  | .idle | .isEmpty | .pxExist | .again _ | .released | .dropped => buf.head = received.length
  | .head => buf.head = received.length ∧ 0 < buf.len
  | .load pos => pos = received.length ∧ buf.head = received.length + 1 ∧ 0 < buf.len
  | .subLen res =>
    buf.head = received.length + 1 ∧ 0 < buf.len ∧ res = values[received.length]?

/-- **The mutex of `tail`**, given where the producers are: while nobody holds it, `tail` is the number
of the values that have been pushed. -/
structure Pushing (buf : RingBuffer T) (px : List (PushBack T)) (values : List T) : Prop where
  tail_lt : buf.tail.data < 2 ^ 64
  le_tail : values.length ≤ buf.tail.data
  locked : Locked buf.tail.holder (fun x => px[x]?) PushBack.Inside
    (buf.tail.data = values.length) (PushBack.Valid buf values)

/-- The calls of `send` of one producer, given what has been called and answered. -/
def PushBack.Calls (called answered : List T) : PushBack T → Prop
  | .idle | .clone => called = answered
  | .lock val | .isFull val | .cxExists val | .again val | .refuse val | .store val | .advance val
  | .addLen val | .unlock val => called = answered ++ [val]
  | .panicked | .released | .dropped => answered <+: called

/-- The number of references that a producer holds. -/
def PushBack.references : PushBack T → ℕ
  | .dropped => 0
  | _ => 1

/-- The number of references that the consumer holds. -/
def PopFront.references : PopFront T → ℕ
  | .dropped => 0
  | _ => 1

/-- The number of references that all sides hold. -/
def references (px : List (PushBack T)) (cx : PopFront T) : ℕ :=
  (px.map PushBack.references).sum + cx.references

/-- The calls of `send` of all producers. -/
structure Calls (tr : List (Event T)) (px : List (PushBack T)) : Prop where
  calls : ∀ (x : ℕ) (p : PushBack T), px[x]? = some p → p.Calls (called x tr) (answered x tr)
  fresh : ∀ x, px.length ≤ x → called x tr = [] ∧ answered x tr = []

/-- The invariant of the channel. -/
structure Valid (tr : List (Event T)) (s : State T) : Prop where
  buf : s.buf.Valid (values tr) (received tr)
  pushing : Pushing s.buf s.px (values tr)
  cx : s.cx.Valid s.buf (values tr) (received tr)
  calls : Calls tr s.px
  returned : pushed tr = sent tr ++ returning s.buf.tail.holder s.px
  references : s.references = references s.px s.cx
  freed : freed tr =
    if s.references = 0 then ((values tr).drop (received tr).length).map some else []

@[simp] theorem values_append (tr tr' : List (Event T)) :
    values (tr ++ tr') = values tr ++ values tr' := by
  simp [values]

namespace RingBuffer.Valid

variable {buf : RingBuffer T} {values : List T} {received : List (Option T)}

theorem slot_eq (h : buf.Valid values received) (pos : ℕ) : buf.slot pos = pos % buf.capacity :=
  slotOf_eq h.capacity pos

/-- The slot behind the window is written. -/
theorem store (h : buf.Valid values received) (hfree : buf.len < buf.capacity) (val : T) :
    { buf with
      inner := Function.update buf.inner (values.length % buf.capacity) (some val) }.Valid
        values received := by
  have hlen := h.len
  refine { h with holds := ?_ }
  exact h.holds.write (by omega) _

/-- The window is extended by the slot behind it. -/
theorem addLen (h : buf.Valid values received) (hfree : buf.len < buf.capacity) {val : T}
    (hslot : buf.inner (values.length % buf.capacity) = some val) :
    { buf with len := buf.len + 1 }.Valid (values ++ [val]) received where
  capacity := h.capacity
  len := by
    have hlen := h.len
    simp only [List.length_append, List.length_singleton]
    omega
  len_le := hfree
  received := by
    have hlen := h.len
    rw [List.take_append_of_le_length (by omega)]
    exact h.received
  holds := h.holds.append hslot

/-- The window is left by its first slot. -/
theorem subLen (h : buf.Valid values received) (hpos : 0 < buf.len) :
    { buf with len := buf.len - 1 }.Valid values (received ++ [values[received.length]?]) where
  capacity := h.capacity
  len := by
    have hlen := h.len
    simp only [List.length_append, List.length_singleton]
    omega
  len_le := (Nat.sub_le _ _).trans h.len_le
  received := by
    have hlen := h.len
    have hlt : received.length < values.length := by omega
    rw [List.length_append, List.length_singleton, List.take_add_one, List.map_append, ← h.received,
      List.getElem?_eq_getElem hlt]
    rfl
  holds := by
    rw [List.length_append]
    exact h.holds.mono (Nat.le_add_right _ _)

/-- What `RingBuffer::drop` drops is what has not been received. -/
theorem freed_drop (h : buf.Valid values received) (hhead : buf.head = received.length)
    (hlt : values.length < 2 ^ 64) :
    MpscBounded.freed buf.drop = (values.drop received.length).map some := by
  have hlen := h.len
  have hstop : checkedAdd buf.head buf.len = some values.length := by
    rw [checkedAdd_of_lt (by omega), hhead, Nat.add_comm, hlen]
  have hdrop : MpscBounded.freed buf.drop = (List.range' buf.head (values.length - buf.head)).map
      fun pos => buf.inner (buf.slot pos) := by
    rw [RingBuffer.drop, hstop, MpscBounded.freed]
    dsimp only
    rw [List.filterMap_map]
    show List.filterMap (some ∘ fun pos => buf.inner (buf.slot pos)) _ = _
    rw [List.filterMap_eq_map]
  rw [hdrop, hhead, funext fun pos => congrArg buf.inner (h.slot_eq pos)]
  exact h.holds.map_range'

end RingBuffer.Valid

/-- Outside of the lock a producer knows nothing. -/
theorem PushBack.valid_of_not_inside {p : PushBack T} (h : ¬ p.Inside) (buf : RingBuffer T)
    (values : List T) : p.Valid buf values := by
  cases p <;> first | trivial | exact absurd trivial h

/-- The consumer only makes room. -/
theorem PushBack.Valid.mono {p : PushBack T} {buf buf' : RingBuffer T} {values : List T}
    (h : p.Valid buf values) (htail : buf'.tail = buf.tail) (hinner : buf'.inner = buf.inner)
    (hcapacity : buf'.capacity = buf.capacity) (hlen : buf'.len ≤ buf.len) :
    p.Valid buf' values := by
  cases p <;> simp only [PushBack.Valid, htail, hinner, hcapacity] at h ⊢
  case isFull | cxExists | again | refuse | unlock => exact h
  case store => exact ⟨h.1, hlen.trans_lt h.2⟩
  case advance | addLen => exact ⟨h.1, hlen.trans_lt h.2.1, h.2.2⟩

namespace Pushing

variable {buf buf' : RingBuffer T} {px : List (PushBack T)} {values values' : List T} {x : ℕ}
  {p q : PushBack T}

theorem inside_iff (h : Pushing buf px values) (hx : px[x]? = some p) :
    p.Inside ↔ buf.tail.holder = some x := by
  rw [← h.locked.inside_iff x]
  constructor
  · exact fun hp => ⟨p, hx, hp⟩
  · rintro ⟨p', hx', hp⟩
    obtain rfl := Option.some.inj (hx.symm.trans hx')
    exact hp

theorem holder_lt (h : Pushing buf px values) (hholder : buf.tail.holder = some x) :
    x < px.length := by
  obtain ⟨p, hx, -⟩ := (h.locked.inside_iff x).mpr hholder
  exact (List.getElem?_eq_some_iff.mp hx).1

theorem valid (h : Pushing buf px values) (hx : px[x]? = some p) : p.Valid buf values := by
  by_cases hp : p.Inside
  · exact h.locked.of_inside hx hp
  · exact PushBack.valid_of_not_inside hp buf values

/-- The consumer only makes room. -/
theorem mono (h : Pushing buf px values) (htail : buf'.tail = buf.tail)
    (hinner : buf'.inner = buf.inner) (hcapacity : buf'.capacity = buf.capacity)
    (hlen : buf'.len ≤ buf.len) : Pushing buf' px values where
  tail_lt := htail ▸ h.tail_lt
  le_tail := htail ▸ h.le_tail
  locked := by
    rw [htail]
    exact h.locked.mono id fun _ _ hp => hp.mono htail hinner hcapacity hlen

/-- A producer takes a step under the lock, takes the lock or gives it back. -/
theorem set (h : Pushing buf px values) (hx : px[x]? = some p)
    (hturn : buf.tail.holder = none ∨ buf.tail.holder = some x)
    (hturn' : buf'.tail.holder = none ∨ buf'.tail.holder = some x)
    (hinside : q.Inside ↔ buf'.tail.holder = some x) (htail_lt : buf'.tail.data < 2 ^ 64)
    (hle_tail : values'.length ≤ buf'.tail.data)
    (hfree : buf'.tail.holder = none → buf'.tail.data = values'.length)
    (hvalid : q.Valid buf' values') : Pushing buf' (px.set x q) values' where
  tail_lt := htail_lt
  le_tail := hle_tail
  locked := by
    rw [getElem?_set_eq_update hx]
    refine h.locked.set hturn hturn' ?_ hfree ?_
    · rw [← hinside]
      constructor
      · rintro ⟨p', hp', hin⟩
        obtain rfl := Option.some.inj hp'
        exact hin
      · exact fun hin => ⟨q, rfl, hin⟩
    · intro p' hp' _
      obtain rfl := Option.some.inj hp'
      exact hvalid

/-- A producer takes a step outside of the lock, which another producer may hold. -/
theorem outside (h : Pushing buf px values) (hx : px[x]? = some p) (hp : ¬ p.Inside)
    (hq : ¬ q.Inside) : Pushing buf (px.set x q) values where
  tail_lt := h.tail_lt
  le_tail := h.le_tail
  locked := by
    rw [getElem?_set_eq_update hx]
    refine h.locked.outside ?_ ?_
    · intro p' hp'
      obtain rfl := Option.some.inj (hx.symm.trans hp')
      exact hp
    · intro p' hp'
      obtain rfl := Option.some.inj hp'
      exact hq

/-- A new producer comes. -/
theorem clone (h : Pushing buf px values) : Pushing buf (px ++ [.idle]) values where
  tail_lt := h.tail_lt
  le_tail := h.le_tail
  locked := by
    rw [getElem?_append_eq_update]
    refine h.locked.outside ?_ ?_
    · intro p' hp'
      rw [List.getElem?_eq_none le_rfl] at hp'
      cases hp'
    · intro p' hp'
      obtain rfl := Option.some.inj hp'
      exact id

end Pushing

section Returning

variable {px : List (PushBack T)} {x : ℕ} {p : PushBack T} {holder : Option ℕ}

theorem returning_some (hx : px[x]? = some p) : returning (some x) px = p.returning x := by
  simp [returning, hx]

theorem returning_set (hlt : x < px.length) (p : PushBack T) :
    returning (some x) (px.set x p) = p.returning x :=
  returning_some (List.getElem?_set_self hlt)

theorem returning_set_ne (hne : holder ≠ some x) (p : PushBack T) :
    returning holder (px.set x p) = returning holder px := by
  cases holder with
  | none => rfl
  | some y =>
    have hyx : x ≠ y := fun heq => hne (heq ▸ rfl)
    simp [returning, List.getElem?_set_ne hyx]

theorem returning_append (hlt : ∀ y, holder = some y → y < px.length) (p : PushBack T) :
    returning holder (px ++ [p]) = returning holder px := by
  cases holder with
  | none => rfl
  | some y => simp [returning, List.getElem?_append_left (hlt y rfl)]

end Returning

namespace Calls

variable {tr out : List (Event T)} {px : List (PushBack T)} {x : ℕ} {p q : PushBack T}

/-- A producer takes a step. -/
theorem set (h : Calls tr px) (hx : px[x]? = some p)
    (hcalls : q.Calls (called x (tr ++ out)) (answered x (tr ++ out)))
    (hother : ∀ y, y ≠ x → called y out = [] ∧ answered y out = []) :
    Calls (tr ++ out) (px.set x q) := by
  obtain ⟨hlt, -⟩ := List.getElem?_eq_some_iff.mp hx
  constructor
  · intro y r hy
    by_cases hne : y = x
    · subst hne
      obtain rfl : q = r := by simpa [hlt] using hy
      exact hcalls
    · rw [List.getElem?_set_ne (Ne.symm hne)] at hy
      rw [called_append, answered_append, (hother y hne).1, (hother y hne).2, List.append_nil,
        List.append_nil]
      exact h.calls y r hy
  · intro y hle
    rw [List.length_set] at hle
    have hne : y ≠ x := by omega
    rw [called_append, answered_append, (hother y hne).1, (hother y hne).2, List.append_nil,
      List.append_nil]
    exact h.fresh y hle

/-- A new producer comes. -/
theorem clone (h : Calls tr px) : Calls tr (px ++ [.idle]) := by
  constructor
  · intro y r hy
    rw [List.getElem?_append] at hy
    split_ifs at hy with hlt
    · exact h.calls y r hy
    · obtain ⟨-, rfl⟩ := by simpa [List.getElem?_singleton] using hy
      obtain ⟨hcalled, hanswered⟩ := h.fresh y (by omega)
      rw [hcalled, hanswered]
      rfl
  · intro y hle
    rw [List.length_append] at hle
    exact h.fresh y (by omega)

/-- An event that is no call. -/
theorem other (h : Calls tr px) (hother : ∀ y, called y out = [] ∧ answered y out = []) :
    Calls (tr ++ out) px where
  calls := by
    intro y r hy
    rw [called_append, answered_append, (hother y).1, (hother y).2, List.append_nil,
      List.append_nil]
    exact h.calls y r hy
  fresh := by
    intro y hle
    rw [called_append, answered_append, (hother y).1, (hother y).2, List.append_nil,
      List.append_nil]
    exact h.fresh y hle

end Calls

section References

variable {px : List (PushBack T)} {x : ℕ} {p : PushBack T}

/-- A step of one producer changes the references by its own. -/
theorem references_set (hx : px[x]? = some p) (q : PushBack T) (cx : PopFront T) :
    references (px.set x q) cx + p.references = references px cx + q.references := by
  have := sum_map_set hx q PushBack.references
  unfold references
  omega

theorem references_pos (hx : px[x]? = some p) (hp : p.references = 1) (cx : PopFront T) :
    0 < references px cx := by
  have hset := references_set hx .dropped cx
  have hzero : (PushBack.dropped : PushBack T).references = 0 := rfl
  omega

theorem references_eq_zero (cx : PopFront T) (hpx : ∀ p ∈ px, p = .dropped) (hcx : cx = .dropped) :
    references px cx = 0 := by
  have hsum : (px.map PushBack.references).sum = 0 := by
    rw [List.sum_eq_zero_iff]
    simp only [List.mem_map, forall_exists_index, and_imp]
    rintro n p hp rfl
    rw [hpx p hp]
    rfl
  rw [references, hsum, hcx]
  rfl

end References

/-- The producers give the consumer more. -/
theorem PopFront.Valid.mono {cx : PopFront T} {buf buf' : RingBuffer T} {values : List T}
    {received : List (Option T)} (h : cx.Valid buf values received)
    (hbuf : buf.Valid values received) (hhead : buf'.head = buf.head) (hlen : buf.len ≤ buf'.len)
    (vs : List T) : cx.Valid buf' (values ++ vs) received := by
  have hlength := hbuf.len
  cases cx <;> simp only [PopFront.Valid, hhead] at h ⊢
  case idle | isEmpty | pxExist | again | released | dropped => exact h
  case head => exact ⟨h.1, h.2.trans_le hlen⟩
  case load => exact ⟨h.1, h.2.1, h.2.2.trans_le hlen⟩
  case subLen =>
    obtain ⟨hhead, hpos, rfl⟩ := h
    exact ⟨hhead, hpos.trans_le hlen, (List.getElem?_append_left (by omega)).symm⟩

namespace Valid

variable {tr out : List (Event T)} {s t : State T} {x : ℕ} {p q : PushBack T}

/-- As long as a side holds a reference, nothing has been dropped. -/
theorem freed_eq_nil (h : Valid tr s) (hpos : 0 < MpscBounded.references s.px s.cx) :
    MpscBounded.freed tr = [] := by
  have hreferences := h.references
  rw [h.freed, if_neg (by omega)]

/-- A step of a producer, of which it is left to say what it does to the buffer. -/
theorem withProducer (h : Valid tr s) (hx : s.px[x]? = some p) {buf : RingBuffer T}
    (hp : p.references = 1) (hq : q.references = 1)
    (hbuf : buf.Valid (values (tr ++ out)) (received tr))
    (hpushing : Pushing buf (s.px.set x q) (values (tr ++ out)))
    (hhead : buf.head = s.buf.head) (hlen : s.buf.len ≤ buf.len)
    (hcalls : q.Calls (called x (tr ++ out)) (answered x (tr ++ out)))
    (hreturned : pushed (tr ++ out) = sent (tr ++ out) ++ returning buf.tail.holder (s.px.set x q))
    (hother : ∀ y, y ≠ x → called y out = [] ∧ answered y out = [])
    (hreceived : received out = []) (hfreed : MpscBounded.freed out = []) :
    Valid (tr ++ out) { s with buf, px := s.px.set x q } := by
  have hreferences : s.references = MpscBounded.references (s.px.set x q) s.cx := by
    have := references_set hx q s.cx
    rw [h.references]
    omega
  have hpos : 0 < MpscBounded.references s.px s.cx := references_pos hx hp s.cx
  refine ⟨?_, hpushing, ?_, h.calls.set hx hcalls hother, hreturned, hreferences, ?_⟩
  · rwa [received_append, hreceived, List.append_nil]
  · rw [received_append, hreceived, List.append_nil, values_append]
    exact h.cx.mono h.buf hhead hlen _
  · have hne : s.references ≠ 0 := by
      rw [h.references]
      exact hpos.ne'
    rw [freed_append, hfreed, h.freed_eq_nil hpos, if_neg hne]
    rfl

/-- A step of the consumer that lowers neither `len` nor the number of references. -/
theorem withConsumer (h : Valid tr s) {buf : RingBuffer T} {cx : PopFront T}
    (hbuf : buf.Valid (values tr) (received tr)) (hpushing : Pushing buf s.px (values tr))
    (hcx : cx.Valid buf (values tr) (received tr)) (htail : buf.tail = s.buf.tail)
    (hreferences : cx.references = s.cx.references)
    (hout : out = [] ∨ out = [.disconnected]) : Valid (tr ++ out) { s with buf, cx } := by
  have hreferences' : s.references = MpscBounded.references s.px cx := by
    rw [h.references]
    unfold MpscBounded.references
    rw [hreferences]
  have hfreed := h.freed
  rcases hout with rfl | rfl
  · rw [List.append_nil]
    exact ⟨hbuf, hpushing, hcx, h.calls, htail ▸ h.returned, hreferences', hfreed⟩
  · have hvalues : values (tr ++ [Event.disconnected]) = values tr := by
      rw [values_append]
      exact List.append_nil _
    have hreceived : received (tr ++ [Event.disconnected]) = received tr := by
      rw [received_append]
      exact List.append_nil _
    refine ⟨?_, ?_, ?_, h.calls.other fun _ => ⟨rfl, rfl⟩, ?_, hreferences', ?_⟩
    · rwa [hvalues, hreceived]
    · rwa [hvalues]
    · rwa [hvalues, hreceived]
    · simpa [pushed, sent, htail] using h.returned
    · rw [hvalues, hreceived, freed_append]
      simpa [MpscBounded.freed] using hfreed

/-- The holder of the lock takes a step under the lock and pushes nothing. -/
theorem inside (h : Valid tr s) (hx : s.px[x]? = some p) (hp : p.Inside) (hq : q.Inside)
    (hreferences : p.references = 1 ∧ q.references = 1)
    (hreturning : p.returning x = [] ∧ q.returning x = []) {buf : RingBuffer T}
    (hbuf : buf.Valid (values tr) (received tr)) (hhead : buf.head = s.buf.head)
    (hlen : buf.len = s.buf.len) (hholder : buf.tail.holder = s.buf.tail.holder)
    (htail_lt : buf.tail.data < 2 ^ 64) (hvalid : q.Valid buf (values tr))
    (hle_tail : s.buf.tail.data ≤ buf.tail.data)
    (hcalls : q.Calls (called x tr) (answered x tr)) :
    Valid (tr ++ []) { s with buf, px := s.px.set x q } := by
  have hturn : s.buf.tail.holder = some x := (h.pushing.inside_iff hx).mp hp
  have hturn' : buf.tail.holder = some x := hholder.trans hturn
  obtain ⟨hlt, -⟩ := List.getElem?_eq_some_iff.mp hx
  have hpushing : Pushing buf (s.px.set x q) (values tr) :=
    h.pushing.set hx (.inr hturn) (.inr hturn') (iff_of_true hq hturn') htail_lt
      (h.pushing.le_tail.trans hle_tail) (fun hnone => absurd (hnone.symm.trans hturn') (by simp))
      hvalid
  have hreturned : pushed tr = sent tr ++ returning buf.tail.holder (s.px.set x q) := by
    rw [hturn', returning_set hlt, hreturning.2, h.returned, hturn, returning_some hx,
      hreturning.1]
  apply h.withProducer hx hreferences.1 hreferences.2
  · rwa [List.append_nil]
  · rwa [List.append_nil]
  · exact hhead
  · exact hlen.ge
  · rwa [List.append_nil]
  · rwa [List.append_nil]
  · exact fun _ _ => ⟨rfl, rfl⟩
  · rfl
  · rfl

/-- The holder of the lock gives it back. -/
theorem unlock (h : Valid tr s) (hx : s.px[x]? = some p) (hp : p.Inside) (hq : ¬ q.Inside)
    (hreferences : p.references = 1 ∧ q.references = 1) {buf : RingBuffer T}
    (hbuf : buf.Valid (values tr) (received tr)) (hhead : buf.head = s.buf.head)
    (hlen : buf.len = s.buf.len) (hholder : buf.tail.holder = none)
    (hdata : buf.tail.data = s.buf.tail.data) (htail : s.buf.tail.data = (values tr).length)
    (hcalls : q.Calls (called x (tr ++ out)) (answered x (tr ++ out)))
    (hreturned : sent tr ++ p.returning x = sent (tr ++ out)) (hpushed : pushed out = [])
    (hother : ∀ y, y ≠ x → called y out = [] ∧ answered y out = [])
    (hreceived : received out = []) (hfreed : MpscBounded.freed out = []) :
    Valid (tr ++ out) { s with buf, px := s.px.set x q } := by
  have hturn : s.buf.tail.holder = some x := (h.pushing.inside_iff hx).mp hp
  have hvalues : values (tr ++ out) = values tr := by
    rw [values, values, pushed_append, hpushed, List.append_nil]
  have hpushing : Pushing buf (s.px.set x q) (values tr) := by
    refine h.pushing.set hx (.inr hturn) (.inl hholder) ?_ (hdata ▸ h.pushing.tail_lt)
      (hdata ▸ h.pushing.le_tail) (fun _ => hdata.trans htail) (PushBack.valid_of_not_inside hq _ _)
    exact iff_of_false hq fun hsome => absurd (hholder.symm.trans hsome) (by simp)
  apply h.withProducer hx hreferences.1 hreferences.2
  · rwa [hvalues]
  · rwa [hvalues]
  · exact hhead
  · exact hlen.ge
  · exact hcalls
  · rw [pushed_append, hpushed, List.append_nil, hholder, h.returned, hturn, returning_some hx,
      hreturned]
    exact (List.append_nil _).symm
  · exact hother
  · exact hreceived
  · exact hfreed

/-- A producer takes a step outside of the lock. -/
theorem outside (h : Valid tr s) (hx : s.px[x]? = some p) (hp : ¬ p.Inside) (hq : ¬ q.Inside)
    (hreferences : p.references = 1 ∧ q.references = 1) {buf : RingBuffer T}
    (hbuf : buf.Valid (values tr) (received tr)) (htail : buf.tail = s.buf.tail)
    (hinner : buf.inner = s.buf.inner) (hcapacity : buf.capacity = s.buf.capacity)
    (hhead : buf.head = s.buf.head) (hlen : buf.len = s.buf.len)
    (hcalls : q.Calls (called x (tr ++ out)) (answered x (tr ++ out)))
    (hpushed : pushed out = []) (hsent : sent out = [])
    (hother : ∀ y, y ≠ x → called y out = [] ∧ answered y out = [])
    (hreceived : received out = []) (hfreed : MpscBounded.freed out = []) :
    Valid (tr ++ out) { s with buf, px := s.px.set x q } := by
  have hvalues : values (tr ++ out) = values tr := by
    rw [values, values, pushed_append, hpushed, List.append_nil]
  have hpushing : Pushing buf (s.px.set x q) (values tr) :=
    (h.pushing.outside hx hp hq).mono htail hinner hcapacity hlen.le
  have hne : s.buf.tail.holder ≠ some x := fun hholder =>
    hp ((h.pushing.inside_iff hx).mpr hholder)
  apply h.withProducer hx hreferences.1 hreferences.2
  · rwa [hvalues]
  · rwa [hvalues]
  · exact hhead
  · exact hlen.ge
  · exact hcalls
  · rw [pushed_append, hpushed, sent_append, hsent, List.append_nil, List.append_nil, htail,
      returning_set_ne hne]
    exact h.returned
  · exact hother
  · exact hreceived
  · exact hfreed

/-- One step of a producer in `push_back`. -/
theorem push (h : Valid tr s) (hstep : push s x = some (t, out)) : Valid (tr ++ out) t := by
  obtain ⟨buf, references, px, cx⟩ := s
  have hbuf : buf.Valid (values tr) (received tr) := h.buf
  have htail_lt : buf.tail.data < 2 ^ 64 := h.pushing.tail_lt
  cases hx : px[x]? with
  | none => simp [MpscBounded.push, hx] at hstep
  | some p =>
    have hvalid : p.Valid buf (values tr) := h.pushing.valid hx
    have hcalls : p.Calls (called x tr) (answered x tr) := h.calls.calls x p hx
    cases p with
    | idle | clone | panicked | released | dropped => simp [MpscBounded.push, hx] at hstep
    | lock val =>
      cases hholder : buf.tail.holder with
      | some y => simp [MpscBounded.push, hx, hholder] at hstep
      | none =>
        cases hpoisoned : buf.tail.poisoned
        · obtain ⟨rfl, rfl⟩ := by simpa [MpscBounded.push, hx, hholder, hpoisoned] using hstep
          have htail : buf.tail.data = (values tr).length := h.pushing.locked.free hholder
          have hbuf' : (buf.setHolder (some x)).Valid (values tr) (received tr) := { hbuf with }
          have hpushing : Pushing (buf.setHolder (some x)) (px.set x (.isFull val)) (values tr) :=
            h.pushing.set hx (.inl hholder) (.inr rfl) (iff_of_true trivial rfl) htail_lt
              h.pushing.le_tail nofun htail
          obtain ⟨hlt, -⟩ := List.getElem?_eq_some_iff.mp hx
          apply h.withProducer hx rfl rfl
          · rwa [List.append_nil]
          · rwa [List.append_nil]
          · rfl
          · exact le_rfl
          · rwa [List.append_nil]
          · rw [List.append_nil, h.returned, hholder]
            show _ = _ ++ returning (some x) _
            rw [returning_set hlt]
            rfl
          · exact fun _ _ => ⟨rfl, rfl⟩
          · rfl
          · rfl
        · obtain ⟨rfl, rfl⟩ := by simpa [MpscBounded.push, hx, hholder, hpoisoned] using hstep
          refine h.outside hx id id ⟨rfl, rfl⟩ hbuf rfl rfl rfl rfl rfl ?_ rfl rfl
            (fun _ _ => ⟨rfl, rfl⟩) rfl rfl
          have hcalls' : called x tr = answered x tr ++ [val] := hcalls
          simp [PushBack.Calls, hcalls']
    | isFull val =>
      by_cases hfull : buf.len = buf.capacity
      · obtain ⟨rfl, rfl⟩ := by simpa [MpscBounded.push, hx, hfull] using hstep
        exact h.inside (q := .cxExists val) hx trivial trivial ⟨rfl, rfl⟩ ⟨rfl, rfl⟩ hbuf rfl rfl
          rfl htail_lt hvalid le_rfl hcalls
      · obtain ⟨rfl, rfl⟩ := by simpa [MpscBounded.push, hx, hfull] using hstep
        -- no other producer can fill the free slot before this one does
        exact h.inside (q := .store val) hx trivial trivial ⟨rfl, rfl⟩ ⟨rfl, rfl⟩ hbuf rfl rfl rfl
          htail_lt ⟨hvalid, lt_of_le_of_ne hbuf.len_le hfull⟩ le_rfl hcalls
    | cxExists val =>
      cases hexists : buf.cxCount <;>
        obtain ⟨rfl, rfl⟩ := by simpa [MpscBounded.push, hx, hexists] using hstep
      · exact h.inside (q := .refuse val) hx trivial trivial ⟨rfl, rfl⟩ ⟨rfl, rfl⟩ hbuf rfl rfl rfl
          htail_lt hvalid le_rfl hcalls
      · exact h.inside (q := .again val) hx trivial trivial ⟨rfl, rfl⟩ ⟨rfl, rfl⟩ hbuf rfl rfl rfl
          htail_lt hvalid le_rfl hcalls
    | again val =>
      obtain ⟨rfl, rfl⟩ := by simpa [MpscBounded.push, hx] using hstep
      refine h.unlock hx trivial id ⟨rfl, rfl⟩ { hbuf with } rfl rfl rfl rfl hvalid ?_ ?_ rfl
        (fun _ _ => ⟨rfl, rfl⟩) rfl rfl
      · rwa [List.append_nil]
      · rw [List.append_nil]
        exact List.append_nil _
    | refuse val =>
      obtain ⟨rfl, rfl⟩ := by simpa [MpscBounded.push, hx] using hstep
      refine h.unlock hx trivial id ⟨rfl, rfl⟩ { hbuf with } rfl rfl rfl rfl hvalid ?_ ?_ rfl
        ?_ rfl rfl
      · have hcalls' : called x tr = answered x tr ++ [val] := hcalls
        rw [called_append, answered_append, hcalls']
        simp [PushBack.Calls, called, answered]
      · rw [sent_append]
        rfl
      · intro y hne
        simp [called, answered, Ne.symm hne]
    | store val =>
      obtain ⟨htail, hfree⟩ : buf.tail.data = (values tr).length ∧ buf.len < buf.capacity := hvalid
      obtain ⟨rfl, rfl⟩ := by simpa [MpscBounded.push, hx] using hstep
      have hslot : buf.slot buf.tail.data = (values tr).length % buf.capacity := by
        rw [hbuf.slot_eq, htail]
      rw [hslot]
      exact h.inside (q := .advance val) hx trivial trivial ⟨rfl, rfl⟩ ⟨rfl, rfl⟩
        (hbuf.store hfree val) rfl rfl rfl htail_lt ⟨htail, hfree, Function.update_self _ _ _⟩ le_rfl hcalls
    | advance val =>
      obtain ⟨htail, hfree, hslot⟩ : buf.tail.data = (values tr).length ∧ buf.len < buf.capacity ∧
        buf.inner ((values tr).length % buf.capacity) = some val := hvalid
      cases hdata : checkedAdd buf.tail.data 1 with
      | none =>
        obtain ⟨rfl, rfl⟩ := by simpa [MpscBounded.push, hx, hdata] using hstep
        refine h.unlock hx trivial id ⟨rfl, rfl⟩ { hbuf with } rfl rfl rfl rfl htail ?_ ?_ rfl
          (fun _ _ => ⟨rfl, rfl⟩) rfl rfl
        · have hcalls' : called x tr = answered x tr ++ [val] := hcalls
          simp [PushBack.Calls, hcalls']
        · rw [List.append_nil]
          exact List.append_nil _
      | some data =>
        have hlt := checkedAdd_lt hdata
        obtain ⟨rfl, rfl⟩ := by simpa [MpscBounded.push, hx, hdata] using hstep
        obtain rfl := checkedAdd_eq_some hdata
        exact h.inside (q := .addLen val) hx trivial trivial ⟨rfl, rfl⟩ ⟨rfl, rfl⟩ { hbuf with } rfl
          rfl rfl hlt ⟨congrArg (· + 1) htail, hfree, hslot⟩ (Nat.le_succ _) hcalls
    | addLen val =>
      obtain ⟨htail, hfree, hslot⟩ : buf.tail.data = (values tr).length + 1 ∧
        buf.len < buf.capacity ∧ buf.inner ((values tr).length % buf.capacity) = some val := hvalid
      have hlen : wrappingAdd buf.len 1 = buf.len + 1 := by
        have := hbuf.len
        exact wrappingAdd_of_lt (by omega)
      obtain ⟨rfl, rfl⟩ := by simpa [MpscBounded.push, hx, hlen] using hstep
      have hturn : buf.tail.holder = some x := (h.pushing.inside_iff hx).mp trivial
      obtain ⟨hlt, -⟩ := List.getElem?_eq_some_iff.mp hx
      -- the value becomes visible to the consumer, while the lock is still held
      have hvalues : values (tr ++ [Event.pushed x val]) = values tr ++ [val] := by
        simp [values, pushed]
      have hlength : (values tr ++ [val]).length = buf.tail.data := by simp [htail]
      have hpushing : Pushing { buf with len := buf.len + 1 } (px.set x (.unlock val))
          (values tr ++ [val]) :=
        h.pushing.set hx (.inr hturn) (.inr hturn) (iff_of_true trivial hturn) htail_lt hlength.le
          (fun hnone => absurd (hnone.symm.trans hturn) (by simp)) hlength.symm
      apply h.withProducer hx rfl rfl
      · rw [hvalues]
        exact hbuf.addLen hfree hslot
      · rwa [hvalues]
      · rfl
      · exact Nat.le_succ _
      · simpa [PushBack.Calls, called, answered] using hcalls
      · show _ = _ ++ returning buf.tail.holder _
        rw [pushed_append, sent_append, h.returned, hturn, returning_some hx, returning_set hlt]
        simp [PushBack.returning, pushed, sent]
      · exact fun _ _ => ⟨rfl, rfl⟩
      · rfl
      · rfl
    | unlock val =>
      obtain ⟨rfl, rfl⟩ := by simpa [MpscBounded.push, hx] using hstep
      refine h.unlock hx trivial id ⟨rfl, rfl⟩ { hbuf with } rfl rfl rfl rfl hvalid ?_ ?_ rfl
        ?_ rfl rfl
      · have hcalls' : called x tr = answered x tr ++ [val] := hcalls
        rw [called_append, answered_append, hcalls']
        simp [PushBack.Calls, called, answered]
      · rw [sent_append]
        rfl
      · intro y hne
        simp [called, answered, Ne.symm hne]

/-- One step of the consumer in `pop_front`. -/
theorem pop (h : Valid tr s) (hstep : pop s = some (t, out)) : Valid (tr ++ out) t := by
  obtain ⟨buf, references, px, cx⟩ := s
  have hbuf : buf.Valid (values tr) (received tr) := h.buf
  have hpushing : Pushing buf px (values tr) := h.pushing
  have hcx : cx.Valid buf (values tr) (received tr) := h.cx
  have hlength := hbuf.len
  have hle : (values tr).length ≤ buf.tail.data := hpushing.le_tail
  have hlt : buf.tail.data < 2 ^ 64 := hpushing.tail_lt
  cases cx with
  | idle | released | dropped => simp [MpscBounded.pop] at hstep
  | isEmpty =>
    by_cases hempty : buf.len = 0
    · obtain ⟨rfl, rfl⟩ := by simpa [MpscBounded.pop, hempty] using hstep
      exact h.withConsumer hbuf hpushing hcx rfl rfl (.inl rfl)
    · obtain ⟨rfl, rfl⟩ := by simpa [MpscBounded.pop, hempty] using hstep
      exact h.withConsumer hbuf hpushing ⟨hcx, Nat.pos_of_ne_zero hempty⟩ rfl rfl (.inl rfl)
  | pxExist =>
    obtain ⟨rfl, rfl⟩ := by simpa [MpscBounded.pop] using hstep
    exact h.withConsumer hbuf hpushing hcx rfl rfl (.inl rfl)
  | again pxExist =>
    by_cases hempty : buf.len = 0
    · cases pxExist <;> obtain ⟨rfl, rfl⟩ := by simpa [MpscBounded.pop, hempty] using hstep
      · exact h.withConsumer hbuf hpushing hcx rfl rfl (.inr rfl)
      · exact h.withConsumer hbuf hpushing hcx rfl rfl (.inl rfl)
    · obtain ⟨rfl, rfl⟩ := by simpa [MpscBounded.pop, hempty] using hstep
      exact h.withConsumer hbuf hpushing ⟨hcx, Nat.pos_of_ne_zero hempty⟩ rfl rfl (.inl rfl)
  | head =>
    obtain ⟨hhead, hpos⟩ : buf.head = (received tr).length ∧ 0 < buf.len := hcx
    have hadd : wrappingAdd buf.head 1 = buf.head + 1 := wrappingAdd_of_lt (by omega)
    obtain ⟨rfl, rfl⟩ := by simpa [MpscBounded.pop, hadd] using hstep
    exact h.withConsumer { hbuf with } (hpushing.mono rfl rfl rfl le_rfl)
      ⟨hhead, congrArg (· + 1) hhead, hpos⟩ rfl rfl (.inl rfl)
  | load pos =>
    obtain ⟨rfl, hhead, hpos⟩ :
      pos = (received tr).length ∧ buf.head = (received tr).length + 1 ∧ 0 < buf.len := hcx
    -- `head` has moved on already, but `len` still counts the slot, so that nobody writes it
    have hload : buf.inner (buf.slot (received tr).length) = (values tr)[(received tr).length]? := by
      rw [hbuf.slot_eq]
      exact hbuf.holds _ le_rfl (by omega)
    obtain ⟨rfl, rfl⟩ := by simpa [MpscBounded.pop] using hstep
    exact h.withConsumer hbuf hpushing ⟨hhead, hpos, hload⟩ rfl rfl (.inl rfl)
  | subLen res =>
    obtain ⟨hhead, hpos, rfl⟩ : buf.head = (received tr).length + 1 ∧ 0 < buf.len ∧
      res = (values tr)[(received tr).length]? := hcx
    have hsub : wrappingSub buf.len 1 = buf.len - 1 := wrappingSub_of_le hpos (by omega)
    obtain ⟨rfl, rfl⟩ := by simpa [MpscBounded.pop, hsub] using hstep
    have hvalues : values (tr ++ [Event.received (values tr)[(received tr).length]?]) =
        values tr := by simp [values, pushed]
    have hreceived : received (tr ++ [Event.received (values tr)[(received tr).length]?]) =
        received tr ++ [(values tr)[(received tr).length]?] := by simp [received]
    constructor
    · rw [hvalues, hreceived]
      exact hbuf.subLen hpos
    · rw [hvalues]
      exact hpushing.mono rfl rfl rfl (Nat.sub_le _ _)
    · rw [hreceived]
      show buf.head = _
      rw [hhead, List.length_append, List.length_singleton]
    · exact h.calls.other fun _ => ⟨rfl, rfl⟩
    · simpa [pushed, sent] using h.returned
    · exact h.references
    · have hne : references ≠ 0 := by
        have : references = MpscBounded.references px (.subLen (values tr)[(received tr).length]?) :=
          h.references
        rw [this]
        exact (Nat.succ_pos _).ne'
      have hfreed := h.freed
      dsimp only at hfreed ⊢
      rw [if_neg hne] at hfreed ⊢
      rw [freed_append, hfreed]
      rfl

theorem filterMap_drop {α : Type*} (f : Event T → Option α) (hf : ∀ res, f (.freed res) = none)
    (buf : RingBuffer T) : buf.drop.filterMap f = [] := by
  unfold RingBuffer.drop
  split
  · rfl
  · rw [List.filterMap_map]
    simp [hf]

/-- A reference goes that a side has held until now. -/
theorem release (hbuf : s.buf.Valid (values tr) (received tr))
    (hpushing : Pushing s.buf s.px (values tr)) (hcx : s.cx.Valid s.buf (values tr) (received tr))
    (hcalls : Calls tr s.px)
    (hreturned : pushed tr = sent tr ++ returning s.buf.tail.holder s.px)
    (hreferences : s.references = MpscBounded.references s.px s.cx + 1)
    (hfreed : MpscBounded.freed tr = []) : Valid (tr ++ s.release.2) s.release.1 := by
  have hout : pushed s.release.2 = [] ∧ sent s.release.2 = [] ∧ received s.release.2 = [] ∧
      ∀ y, called y s.release.2 = [] ∧ answered y s.release.2 = [] := by
    unfold State.release
    split_ifs
    · exact ⟨filterMap_drop _ (fun _ => rfl) _, filterMap_drop _ (fun _ => rfl) _,
        filterMap_drop _ (fun _ => rfl) _, fun _ =>
          ⟨filterMap_drop _ (fun _ => rfl) _, filterMap_drop _ (fun _ => rfl) _⟩⟩
    · exact ⟨rfl, rfl, rfl, fun _ => ⟨rfl, rfl⟩⟩
  obtain ⟨hpushed, hsent, hreceived, hother⟩ := hout
  have hvalues : values (tr ++ s.release.2) = values tr := by
    rw [values, values, pushed_append, hpushed, List.append_nil]
  have hreceived' : received (tr ++ s.release.2) = received tr := by
    rw [received_append, hreceived, List.append_nil]
  refine ⟨?_, ?_, ?_, hcalls.other hother, ?_, ?_, ?_⟩
  · rw [hvalues, hreceived']
    exact hbuf
  · rw [hvalues]
    exact hpushing
  · rw [hvalues, hreceived']
    exact hcx
  · rw [pushed_append, hpushed, sent_append, hsent, List.append_nil, List.append_nil]
    exact hreturned
  · show s.references - 1 = _
    rw [hreferences]
    rfl
  · rw [freed_append, hvalues, hreceived', hfreed, List.nil_append]
    show MpscBounded.freed (if s.references = 1 then s.buf.drop else []) =
      if s.references - 1 = 0 then _ else _
    by_cases hlast : s.references = 1
    · rw [if_pos hlast, if_pos (by omega)]
      have hhead : s.buf.head = (received tr).length := by
        have hzero : s.cx.references = 0 := by
          rw [MpscBounded.references] at hreferences
          omega
        generalize hcx' : s.cx = cx at hzero hcx
        cases cx <;> first | exact hcx | simp [PopFront.references] at hzero
      exact hbuf.freed_drop hhead (hpushing.le_tail.trans_lt hpushing.tail_lt)
    · rw [if_neg hlast, if_neg (by omega)]
      rfl

/-- One step of any side keeps the invariant. -/
theorem step {a : Action T} (h : Valid tr s) (hstep : step s a = some (t, out)) :
    Valid (tr ++ out) t := by
  cases a with
  | push x => exact h.push hstep
  | pop => exact h.pop hstep
  | send x val =>
    obtain ⟨buf, references, px, cx⟩ := s
    simp only [MpscBounded.step] at hstep
    split at hstep
    · next hx =>
      obtain ⟨rfl, rfl⟩ := by simpa using hstep
      refine h.outside hx id id ⟨rfl, rfl⟩ h.buf rfl rfl rfl rfl rfl ?_ rfl rfl ?_ rfl rfl
      · have hcalls : called x tr = answered x tr := h.calls.calls x _ hx
        rw [called_append, answered_append, hcalls]
        simp [PushBack.Calls, called, answered]
      · intro y hne
        simp [called, answered, Ne.symm hne]
    · simp at hstep
  | clone x =>
    obtain ⟨buf, references, px, cx⟩ := s
    simp only [MpscBounded.step] at hstep
    split at hstep
    · next hx =>
      obtain ⟨rfl, rfl⟩ := by simpa using hstep
      refine h.outside hx id id ⟨rfl, rfl⟩ { h.buf with } rfl rfl rfl rfl rfl ?_ rfl rfl
        (fun _ _ => ⟨rfl, rfl⟩) rfl rfl
      rw [List.append_nil]
      have hcalls := h.calls.calls x _ hx
      exact hcalls
    · simp at hstep
  | cloneBuf x =>
    obtain ⟨buf, references, px, cx⟩ := s
    simp only [MpscBounded.step] at hstep
    split at hstep
    · next hx =>
      obtain ⟨rfl, rfl⟩ := by simpa using hstep
      have hidle : Valid (tr ++ []) ⟨buf, references, px.set x .idle, cx⟩ := by
        refine h.outside hx id id ⟨rfl, rfl⟩ h.buf rfl rfl rfl rfl rfl ?_ rfl rfl
          (fun _ _ => ⟨rfl, rfl⟩) rfl rfl
        rw [List.append_nil]
        have hcalls := h.calls.calls x _ hx
        exact hcalls
      have hpos : 0 < MpscBounded.references px cx := references_pos hx rfl cx
      have hreferences : references = MpscBounded.references (px.set x .idle) cx :=
        hidle.references
      refine ⟨hidle.buf, hidle.pushing.clone, hidle.cx, hidle.calls.clone, ?_, ?_, ?_⟩
      · rw [hidle.returned, returning_append fun _ => hidle.pushing.holder_lt]
      · show references + 1 = _
        rw [hreferences]
        simp only [MpscBounded.references, List.map_append, List.sum_append, List.map_cons,
          List.map_nil, List.sum_cons, List.sum_nil, PushBack.references]
        omega
      · rw [List.append_nil, h.freed_eq_nil hpos]
        exact (if_neg (Nat.succ_ne_zero _)).symm
    · simp at hstep
  | dropProducer x =>
    obtain ⟨buf, references, px, cx⟩ := s
    simp only [MpscBounded.step] at hstep
    split at hstep
    · next hx =>
      obtain ⟨rfl, rfl⟩ := by simpa using hstep
      refine h.outside hx id id ⟨rfl, rfl⟩ { h.buf with } rfl rfl rfl rfl rfl ?_ rfl rfl
        (fun _ _ => ⟨rfl, rfl⟩) rfl rfl
      have hcalls : called x tr = answered x tr := h.calls.calls x _ hx
      rw [List.append_nil]
      exact hcalls ▸ List.prefix_rfl
    · next hx =>
      obtain ⟨rfl, rfl⟩ := by simpa using hstep
      refine h.outside hx id id ⟨rfl, rfl⟩ { h.buf with } rfl rfl rfl rfl rfl ?_ rfl rfl
        (fun _ _ => ⟨rfl, rfl⟩) rfl rfl
      rw [List.append_nil]
      have hcalls := h.calls.calls x _ hx
      exact hcalls
    · simp at hstep
  | releaseProducer x =>
    obtain ⟨buf, references, px, cx⟩ := s
    simp only [MpscBounded.step] at hstep
    split at hstep
    · next hx =>
      have hpos : 0 < MpscBounded.references px cx := references_pos hx rfl cx
      have hfreed := h.freed_eq_nil hpos
      have hne : buf.tail.holder ≠ some x := fun hholder => (h.pushing.inside_iff hx).mpr hholder
      have hset := references_set hx .dropped cx
      have hreferences : references = MpscBounded.references px cx := h.references
      obtain ⟨rfl, rfl⟩ := Prod.mk.inj (Option.some.inj hstep)
      refine release h.buf (h.pushing.outside hx id id) h.cx ?_ ?_ ?_ hfreed
      · have hcalls : _ → _ → Calls (tr ++ []) (px.set x .dropped) := h.calls.set hx
        rw [List.append_nil] at hcalls
        have hreleased := h.calls.calls x _ hx
        exact hcalls hreleased fun _ _ => ⟨rfl, rfl⟩
      · show _ = _ ++ returning buf.tail.holder (px.set x .dropped)
        rw [returning_set_ne hne]
        exact h.returned
      · show references = MpscBounded.references (px.set x .dropped) cx + 1
        simp only [PushBack.references] at hset
        omega
    · simp at hstep
  | recv =>
    obtain ⟨buf, references, px, cx⟩ := s
    cases cx <;> simp only [MpscBounded.step, Option.some.injEq, Prod.mk.injEq, reduceCtorEq] at hstep
    obtain ⟨rfl, rfl⟩ := hstep
    exact h.withConsumer h.buf h.pushing h.cx rfl rfl (.inl rfl)
  | dropConsumer =>
    obtain ⟨buf, references, px, cx⟩ := s
    cases cx <;> simp only [MpscBounded.step, Option.some.injEq, Prod.mk.injEq, reduceCtorEq] at hstep
    obtain ⟨rfl, rfl⟩ := hstep
    exact h.withConsumer { h.buf with } (h.pushing.mono rfl rfl rfl le_rfl) h.cx rfl rfl (.inl rfl)
  | releaseConsumer =>
    obtain ⟨buf, references, px, cx⟩ := s
    cases cx <;> simp only [MpscBounded.step, Option.some.injEq, reduceCtorEq] at hstep
    have hfreed := h.freed_eq_nil (Nat.succ_pos _)
    have hreferences : references = MpscBounded.references px .released := h.references
    obtain ⟨rfl, rfl⟩ := Prod.mk.inj hstep
    exact release h.buf h.pushing h.cx h.calls h.returned hreferences hfreed

/-- A valid channel is a bounded queue so far. -/
theorem faithful (h : Valid tr s) : Faithful tr s where
  len_le := h.buf.len_le
  exclusive := by
    intro x y p q hx hy hp hq
    have hholder := (h.pushing.inside_iff hx).mp hp
    exact Option.some.inj (hholder.symm.trans ((h.pushing.inside_iff hy).mp hq))
  not_overwritten := by
    intro x val pos hx hunread htail
    obtain ⟨hdata, hfree⟩ : s.buf.tail.data = (values tr).length ∧ s.buf.len < s.buf.capacity :=
      h.pushing.valid hx
    have hlen := h.buf.len
    have hreceived : (received tr).length ≤ s.unread := by
      have hcx := h.cx
      unfold State.unread
      generalize s.cx = cx at hcx ⊢
      cases cx with
      | idle | isEmpty | pxExist | again | released | dropped => exact hcx.ge
      | head => exact hcx.1.ge
      | load pos => exact hcx.1.ge
      | subLen res =>
        have hhead : s.buf.head = (received tr).length + 1 := hcx.1
        exact hhead ▸ Nat.le_succ _
    rw [h.buf.slot_eq, h.buf.slot_eq]
    exact Holds.slot_ne (hreceived.trans hunread) htail (by omega)
  written := by
    intro head hcx
    have hvalid := h.cx
    rw [hcx] at hvalid
    obtain ⟨rfl, -, hpos⟩ : head = (received tr).length ∧
      s.buf.head = (received tr).length + 1 ∧ 0 < s.buf.len := hvalid
    have hlen := h.buf.len
    have hlt : (received tr).length < (values tr).length := by omega
    have hlt' : (received tr).length < (pushed tr).length := by simpa [values] using hlt
    refine ⟨((pushed tr)[(received tr).length]).1, ((pushed tr)[(received tr).length]).2, ?_, ?_⟩
    · rw [List.getElem?_eq_getElem hlt']
    · rw [h.buf.slot_eq, h.buf.holds _ le_rfl hlt, List.getElem?_eq_getElem hlt]
      simp [values]
  received_prefix := by
    have hmap : (pushed tr).map (fun push => some push.2) = (values tr).map some := by
      simp [values]
    rw [hmap, h.buf.received]
    exact (List.take_prefix _ _).map _
  pushed_eq := h.returned
  answered_prefix := by
    intro x
    cases hx : s.px[x]? with
    | none =>
      rw [(h.calls.fresh x (List.getElem?_eq_none_iff.mp hx)).2]
      exact List.nil_prefix
    | some p =>
      have hcalls := h.calls.calls x p hx
      cases p with
      | idle | clone =>
        have heq : called x tr = answered x tr := hcalls
        exact heq ▸ List.prefix_rfl
      | lock val | isFull val | cxExists val | again val | refuse val | store val | advance val
      | addLen val | unlock val =>
        have heq : called x tr = answered x tr ++ [val] := hcalls
        exact heq ▸ List.prefix_append _ _
      | panicked | released | dropped => exact hcalls
  dropped := by
    intro hpx hcx
    have hreferences : s.references = 0 := by
      rw [h.references]
      exact references_eq_zero s.cx hpx hcx
    have hreturning : returning s.buf.tail.holder s.px = [] := by
      cases hholder : s.buf.tail.holder with
      | none => rfl
      | some x =>
        have hlt := h.pushing.holder_lt hholder
        have hx := List.getElem?_eq_getElem hlt
        rw [returning_some hx, hpx _ (List.getElem_mem hlt)]
        rfl
    have hsent : (sent tr).map (fun push => some push.2) = (values tr).map some := by
      have hpushed := h.returned
      rw [hreturning, List.append_nil] at hpushed
      simp [values, hpushed]
    rw [hsent, h.freed, if_pos hreferences]
    conv_lhs => rw [h.buf.received]
    rw [List.length_map, ← List.map_append]
    have hlen := h.buf.len
    rw [List.length_take, Nat.min_eq_left (by omega), List.take_append_drop]

end Valid

theorem valid_init (cap : ℕ) : Valid [] (mpscBounded T cap).init where
  buf := {
    capacity := Nat.isPowerOfTwo_nextPowerOfTwo cap
    len := rfl
    len_le := Nat.zero_le _
    holds := .nil
    received := rfl }
  pushing := {
    tail_lt := Nat.two_pow_pos 64
    le_tail := le_rfl
    locked := by
      refine ⟨fun x => iff_of_false ?_ nofun, fun _ => rfl, ?_⟩
      · rintro ⟨p, hx, hp⟩
        obtain ⟨-, rfl⟩ := by simpa [mpscBounded, List.getElem?_singleton] using hx
        exact hp
      · intro x p hx hp
        obtain ⟨-, rfl⟩ := by simpa [mpscBounded, List.getElem?_singleton] using hx
        exact hp.elim }
  cx := rfl
  calls := {
    calls := by
      intro x p hx
      obtain ⟨-, rfl⟩ := by simpa [mpscBounded, List.getElem?_singleton] using hx
      rfl
    fresh := fun _ _ => ⟨rfl, rfl⟩ }
  returned := rfl
  references := rfl
  freed := rfl

/-- **The channel is a bounded queue** along every run. -/
theorem mpscBounded_faithful {cap : ℕ} {tr : List (Event T)} {s : State T}
    (h : (mpscBounded T cap).Run Machine.unguarded tr s) : Faithful tr s :=
  (h.invariant (P := Valid) (valid_init cap) fun _ _ _ _ _ ih _ hstep => ih.step hstep).faithful

/-- A call of `send` that finds the lock free and a slot as well. -/
def sendCall (x : ℕ) (val : T) : List (Action T) := .send x val :: List.replicate 6 (.push x)

/-- A call of `recv` that finds a value. -/
def recvCall : List (Action T) := .recv :: List.replicate 4 .pop

/-- Two slots and two producers: the value of the first is received, and that of the second is
dropped with the buffer. -/
theorem mpscBounded_faithful_two :
    ∃ tr s, (mpscBounded ℕ 2).Run Machine.unguarded tr s ∧ Faithful tr s ∧
      sent tr = [(0, 1), (1, 2)] ∧ received tr ++ freed tr = [some 1, some 2] := by
  have h : ((mpscBounded ℕ 2).exec
      (.clone 0 :: .cloneBuf 0 :: sendCall 0 1 ++ sendCall 1 2 ++ recvCall ++
        ([.dropProducer 0, .releaseProducer 0, .dropConsumer, .releaseConsumer, .dropProducer 1,
          .releaseProducer 1] : List (Action ℕ)))).map
        (fun result => (sent result.2, received result.2 ++ freed result.2)) =
          some ([(0, 1), (1, 2)], [some 1, some 2]) := by decide +kernel
  obtain ⟨⟨s, tr⟩, hexec, hevents⟩ := Option.map_eq_some_iff.mp h
  obtain ⟨hsent, hreceived⟩ := Prod.mk.inj hevents
  have hrun := Machine.run_exec hexec
  exact ⟨tr, s, hrun, mpscBounded_faithful hrun, hsent, hreceived⟩

end MpscBounded

end Channel
