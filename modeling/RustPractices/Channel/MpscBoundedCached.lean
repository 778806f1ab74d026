import RustPractices.Allocation.Slices
import RustPractices.Transition.Locking
import RustPractices.Channel.Ring
import RustPractices.Transition.Machine

/-!
# The bounded channel of many producers and one consumer with slices

A producer applies for a slice of positions under the mutex of `tail`, collects values in a buffer
of its own, and copies them into the ring when the slice is full, when it is flushed, or when it is
dropped; what is left of the slice is filled with padding. The filled slices are merged in the order
of their positions, under a mutex of their own, by any producer that has filled one, and by the
consumer when all producers are gone. Each atomic operation, each copy of a slot and each access to
what a mutex protects is a step of the side that makes it; what a side does with its own cells
happens in the step before. The ring buffer is dropped with the last handle.

## Main definitions

* `RingBuffer`, `Producer`, `Recv`, `Merge`: what the sides share, and where they are
* `mpscBoundedCached`: the machine of all interleavings, with producers that are cloned and dropped
* `Faithful`: the channel has delivered what it has taken, in order for each producer
-/

open Transition Allocation

namespace Channel

namespace MpscBoundedCached

universe u

variable {T : Type u}

/-- `APPLY_SIZE`. -/
def applySize : ℕ := 32

/-- A side of the channel, as the holder of a mutex. -/
inductive Side
  | px (x : ℕ)
  | cx
deriving DecidableEq

/-- `RingBuffer`, where `capacity` is the number of slots in `inner`. -/
structure RingBuffer (T : Type u) where
  inner : Slots (Option T)
  capacity : ℕ
  head : ℕ
  tail : Mutex ℕ ℕ
  readableTill : ℕ
  len : ℕ
  reserved : ℕ
  free : ℕ
  filledSlices : Mutex (Finset Slice) Side
  pxCount : ℕ
  cxCount : Bool

/-- `RingBuffer::new`. -/
def RingBuffer.new (cap : ℕ) : RingBuffer T where
  inner := fun _ => none
  capacity := cap.nextPowerOfTwo
  head := 0
  tail := { data := 0, holder := none, poisoned := false }
  readableTill := 0
  len := 0
  reserved := 0
  free := cap.nextPowerOfTwo
  filledSlices := { data := ∅, holder := none, poisoned := false }
  pxCount := 1
  cxCount := true

/-- The slot of a position. -/
def RingBuffer.slot (buf : RingBuffer T) (pos : ℕ) : ℕ := slotOf buf.capacity pos

/-- The slot to which `store_vals(pos, vals)` copies the value `i` of `vals`: what does not fit
before the end of the ring goes to its start. -/
def RingBuffer.storeSlot (buf : RingBuffer T) (pos i : ℕ) : ℕ :=
  let left := buf.capacity - buf.slot pos
  if i < left then buf.slot pos + i else i - left

/-- The first slice of a set. -/
def first (slices : Finset Slice) : Option Slice :=
  if h : slices.Nonempty then some (slices.min' h) else none

/-- Where a side is in `merge_with_filled_slices(filled_slice)`. -/
inductive Merge
  /-- `self.filled_slices.lock()`. -/
  | lock (filled : Option Slice)
  /-- `slices.insert(applied)`. -/
  | insert (applied : Slice)
  /-- `slices.iter().next()`. -/
  | first
  /-- `self.readable_till.compare_exchange(start, start + len)`. -/
  | exchange (slice : Slice)
  /-- `slices.remove(&(start, len))`. -/
  | remove (slice : Slice)
  /-- `self.len.fetch_add(len)`. -/
  | addLen (len : ℕ)
  /-- `self.reserved.fetch_sub(len)`. -/
  | subReserved (len : ℕ)
  /-- The lock goes with `continue`. -/
  | again
  /-- The lock goes with `break`. -/
  | leave

/-- What a step of `merge_with_filled_slices` comes to. -/
inductive Merged
  | next (merge : Merge)
  | done
  | panicked

/-- The next step of `merge_with_filled_slices` of a side. -/
def RingBuffer.merge (buf : RingBuffer T) (side : Side) : Merge → Option (RingBuffer T × Merged)
  | .lock filled =>
    match buf.filledSlices.holder with
    | some _ => none
    | none =>
      -- `lock` fails after a panic of a holder, and `expect` panics in turn
      if buf.filledSlices.poisoned then some (buf, .panicked)
      else
        some ({ buf with filledSlices := { buf.filledSlices with holder := some side } },
          .next (filled.elim .first .insert))
  | .insert applied =>
    some ({ buf with
      filledSlices := { buf.filledSlices with data := insert applied buf.filledSlices.data } },
      .next .first)
  | .first =>
    match first buf.filledSlices.data with
    | none => some (buf, .next .leave)
    | some slice => some (buf, .next (.exchange slice))
  | .exchange slice =>
    match checkedAdd slice.start slice.len with
    | none =>
      some ({ buf with filledSlices := { buf.filledSlices with holder := none, poisoned := true } },
        .panicked)
    | some readableTill =>
      if buf.readableTill = slice.start then
        some ({ buf with readableTill }, .next (.remove slice))
      else some (buf, .next .leave)
  | .remove slice =>
    some ({ buf with
      filledSlices := { buf.filledSlices with data := buf.filledSlices.data.erase slice } },
      .next (.addLen slice.len))
  | .addLen len => some ({ buf with len := wrappingAdd buf.len len }, .next (.subReserved len))
  | .subReserved len => some ({ buf with reserved := wrappingSub buf.reserved len }, .next .again)
  | .again =>
    some ({ buf with filledSlices := { buf.filledSlices with holder := none } }, .next (.lock none))
  | .leave =>
    some ({ buf with filledSlices := { buf.filledSlices with holder := none } }, .done)

/-- What follows a call of `flush`. -/
inductive After (T : Type u)
  /-- `send(val)` returns `Ok(())`. -/
  | sent (val : T)
  /-- Nothing. -/
  | flushed
  /-- `drop` lowers `px_count`. -/
  | dropped

/-- Where a producer is in `send(val)`, `flush()`, `clone()` or `drop()`. -/
inductive Send (T : Type u)
  | idle
  /-- `self.tail.lock()` in `apply`. -/
  | lock (val : T)
  /-- `self.free()` in `apply`. -/
  | free (val : T)
  /-- `*tail += size`. -/
  | advance (val : T) (size : ℕ)
  /-- `self.reserved.fetch_add(size)`. -/
  | addReserved (val : T) (slice : Slice)
  /-- `self.free.fetch_sub(size)`. -/
  | subFree (val : T) (slice : Slice)
  /-- The lock goes with `Some((start, size))`. -/
  | applied (val : T) (slice : Slice)
  /-- The lock goes with `None`. -/
  | full (val : T)
  /-- `self.buf.cx_exists()`. -/
  | cxExists (val : T)
  /-- The slots are copied in `store_vals`; those before `copied` have been, and `vals` are left. -/
  | store (slice : Slice) (copied : ℕ) (vals : List (Option T)) (after : After T)
  /-- `self.buf.merge_with_filled_slices(slice)`. -/
  | merge (merge : Merge) (after : After T)
  /-- `self.buf.clone()` in `clone`, after `px_count` has been raised. -/
  | clone
  /-- `px_count.fetch_sub(1)` in `drop`. -/
  | subPxCount
  | panicked
  /-- `px_count` has been lowered by `drop`, and the reference to the buffer is still held. -/
  | released
  | dropped

/-- `Producer`. -/
structure Producer (T : Type u) where
  pc : Send T
  bufLocal : List (Option T)
  allocatedSlice : Option Slice

/-- `Producer::new`. -/
def Producer.new : Producer T where
  pc := .idle
  bufLocal := []
  allocatedSlice := none

/-- Where the consumer is in `recv()`. -/
inductive Recv (T : Type u)
  | idle
  /-- `self.is_empty()` in the head of the loop. -/
  | isEmpty
  /-- `self.px_exist()`. -/
  | pxExist
  /-- `self.is_empty()` in the body of the loop. -/
  | again (pxExist : Bool)
  /-- `self.reserved()`. -/
  | reserved
  /-- `self.merge_with_filled_slices(None)`. -/
  | merge (merge : Merge)
  /-- `self.head.fetch_add(1)`. -/
  | head
  /-- The slot is read. -/
  | load (head : ℕ)
  /-- `self.len.fetch_sub(1)`. -/
  | subLen (head : ℕ) (res : Option (Option T))
  /-- `self.free.fetch_add(1)`. -/
  | addFree (head : ℕ) (res : Option (Option T))
  | panicked
  /-- `cx_count` has been stored by `drop`, and the reference to the buffer is still held. -/
  | released
  | dropped

/-- The shared buffer with the number of references to it, the producers and the consumer. -/
structure State (T : Type u) where
  buf : RingBuffer T
  references : ℕ
  px : List (Producer T)
  cx : Recv T

/-- How the calls of `send` and `recv` start and return, the copies of the slots, what `pop_front`
returns, and what `RingBuffer::drop` drops. A producer is known by its index, and a slot that was
never written gives nothing. `recv` returns the value of the first result of `pop_front` that is not
padding. -/
inductive Event (T : Type u)
  | called (x : ℕ) (val : T)
  | stored (x pos : ℕ) (val : Option T)
  | sent (x : ℕ) (val : T)
  | refused (x : ℕ) (val : T)
  | popped (pos : ℕ) (res : Option (Option T))
  | disconnected
  | freed (pos : ℕ) (res : Option (Option T))

/-- What can happen next: a call starts, a side makes its next step, a producer is cloned, or a
handle is dropped: its `drop` runs, and then its reference to the buffer goes. -/
inductive Action (T : Type u)
  | send (x : ℕ) (val : T)
  | flush (x : ℕ)
  | push (x : ℕ)
  | clone (x : ℕ)
  | cloneBuf (x : ℕ)
  | dropProducer (x : ℕ)
  | releaseProducer (x : ℕ)
  | recv
  | pop
  | dropConsumer
  | releaseConsumer

/-! ## The steps of a producer -/

/-- What follows the call of `flush` begins. -/
def Producer.finish (px : Producer T) (x : ℕ) : After T → Producer T × List (Event T)
  | .sent val => ({ px with pc := .idle }, [.sent x val])
  | .flushed => ({ px with pc := .idle }, [])
  | .dropped => ({ px with pc := .subPxCount }, [])

/-- A call of `flush` panics. After a panic of `drop` only the reference is left to go. -/
def Producer.panic (px : Producer T) : After T → Producer T
  | .sent _ | .flushed => { px with pc := .panicked }
  | .dropped => { px with pc := .released }

/-- `flush`, up to its first access to the buffer. -/
def Producer.flush (px : Producer T) (x : ℕ) (after : After T) : Producer T × List (Event T) :=
  match px.allocatedSlice with
  | none => px.finish x after
  | some slice =>
    -- `swap_with_slice` panics when the lengths differ
    if px.bufLocal.length ≤ slice.len then
      ({ px with
        pc := .store slice 0
          (px.bufLocal ++ List.replicate (slice.len - px.bufLocal.length) none) after
        bufLocal := [] }, [])
    else (px.panic after, [])

/-- `send`, up to its first access to the buffer. -/
def Producer.send (px : Producer T) (x : ℕ) (val : T) : Producer T × List (Event T) :=
  match px.allocatedSlice with
  | none => ({ px with pc := .lock val }, [])
  | some slice =>
    if px.bufLocal.length + 1 = slice.len then
      Producer.flush { px with bufLocal := px.bufLocal ++ [some val] } x (.sent val)
    else ({ px with pc := .idle, bufLocal := px.bufLocal ++ [some val] }, [.sent x val])

/-- The producer `x` is replaced by `px`. -/
def State.setPx (s : State T) (x : ℕ) (px : Producer T) : State T :=
  { s with px := s.px.set x px }

/-- The next step of the producer `x`. -/
def push (s : State T) (x : ℕ) : Option (State T × List (Event T)) :=
  match s.px[x]? with
  | none => none
  | some px =>
    match px.pc with
    | .lock val =>
      match s.buf.tail.holder with
      | some _ => none
      | none =>
        -- `lock` fails after a panic of a holder, and `expect` panics in turn
        if s.buf.tail.poisoned then some (s.setPx x { px with pc := .panicked }, [])
        else
          some (State.setPx
            { s with buf := { s.buf with tail := { s.buf.tail with holder := some x } } } x
            { px with pc := .free val }, [])
    | .free val =>
      if s.buf.free ≥ applySize then some (s.setPx x { px with pc := .advance val applySize }, [])
      else if s.buf.free > 0 then some (s.setPx x { px with pc := .advance val s.buf.free }, [])
      else some (s.setPx x { px with pc := .full val }, [])
    | .advance val size =>
      match checkedAdd s.buf.tail.data size with
      | none =>
        some (State.setPx
          { s with buf := { s.buf with
            tail := { s.buf.tail with holder := none, poisoned := true } } } x
          { px with pc := .panicked }, [])
      | some data =>
        some (State.setPx { s with buf := { s.buf with tail := { s.buf.tail with data } } } x
          { px with pc := .addReserved val ⟨s.buf.tail.data, size⟩ }, [])
    | .addReserved val slice =>
      some (State.setPx
        { s with buf := { s.buf with reserved := wrappingAdd s.buf.reserved slice.len } } x
        { px with pc := .subFree val slice }, [])
    | .subFree val slice =>
      some (State.setPx
        { s with buf := { s.buf with free := wrappingSub s.buf.free slice.len } } x
        { px with pc := .applied val slice }, [])
    | .applied val slice =>
      -- `send` calls itself with the slice in its cell
      let (px, out) := Producer.send { px with allocatedSlice := some slice } x val
      some (State.setPx
        { s with buf := { s.buf with tail := { s.buf.tail with holder := none } } } x px, out)
    | .full val =>
      some (State.setPx
        { s with buf := { s.buf with tail := { s.buf.tail with holder := none } } } x
        { px with pc := .cxExists val }, [])
    | .cxExists val =>
      if s.buf.cxCount then some (s.setPx x { px with pc := .lock val }, [])
      else some (s.setPx x { px with pc := .idle }, [.refused x val])
    | .store slice copied (val :: vals) after =>
      some (State.setPx
        { s with buf := { s.buf with
          inner := Function.update s.buf.inner (s.buf.storeSlot slice.start copied) (some val) } } x
        { px with pc := .store slice (copied + 1) vals after },
        [.stored x (slice.start + copied) val])
    | .store slice _ [] after =>
      some (s.setPx x
        { px with pc := .merge (.lock (some slice)) after, allocatedSlice := none }, [])
    | .merge merge after =>
      match s.buf.merge (.px x) merge with
      | none => none
      | some (buf, .next merge) =>
        some (State.setPx { s with buf } x { px with pc := .merge merge after }, [])
      | some (buf, .done) =>
        let (px, out) := px.finish x after
        some (State.setPx { s with buf } x px, out)
      | some (buf, .panicked) => some (State.setPx { s with buf } x (px.panic after), [])
    | .subPxCount =>
      some (State.setPx { s with buf := { s.buf with pxCount := s.buf.pxCount - 1 } } x
        { px with pc := .released }, [])
    | .idle | .clone | .panicked | .released | .dropped => none

/-! ## The steps of the consumer -/

/-- The next step of the consumer. -/
def pop (s : State T) : Option (State T × List (Event T)) :=
  match s.cx with
  | .isEmpty =>
    if s.buf.len = 0 then some ({ s with cx := .pxExist }, [])
    else some ({ s with cx := .head }, [])
  | .pxExist => some ({ s with cx := .again (decide (s.buf.pxCount > 0)) }, [])
  | .again pxExist =>
    if s.buf.len = 0 then
      if pxExist then some ({ s with cx := .isEmpty }, [])
      else some ({ s with cx := .reserved }, [])
    else some ({ s with cx := .head }, [])
  | .reserved =>
    if s.buf.reserved > 0 then some ({ s with cx := .merge (.lock none) }, [])
    else some ({ s with cx := .idle }, [.disconnected])
  | .merge merge =>
    match s.buf.merge .cx merge with
    | none => none
    | some (buf, .next merge) => some ({ s with buf, cx := .merge merge }, [])
    | some (buf, .done) => some ({ s with buf, cx := .isEmpty }, [])
    | some (buf, .panicked) => some ({ s with buf, cx := .panicked }, [])
  | .head =>
    some ({ s with
      buf := { s.buf with head := wrappingAdd s.buf.head 1 }
      cx := .load s.buf.head }, [])
  | .load head => some ({ s with cx := .subLen head (s.buf.inner (s.buf.slot head)) }, [])
  | .subLen head res =>
    some ({ s with
      buf := { s.buf with len := wrappingSub s.buf.len 1 }
      cx := .addFree head res }, [])
  | .addFree head res =>
    -- `recv` pops again after padding
    some ({ s with
      buf := { s.buf with free := wrappingAdd s.buf.free 1 }
      cx := match res with
        | some none => .isEmpty
        | _ => .idle }, [.popped head res])
  | .idle | .panicked | .released | .dropped => none

/-! ## The machine -/

/-- `RingBuffer::drop`. -/
def RingBuffer.drop (buf : RingBuffer T) : List (Event T) :=
  (List.range' buf.head (buf.readableTill - buf.head)).map fun pos =>
    .freed pos (buf.inner (buf.slot pos))

/-- A reference to the buffer goes, and with the last one the buffer. -/
def State.release (s : State T) : State T × List (Event T) :=
  ({ s with references := s.references - 1 }, if s.references = 1 then s.buf.drop else [])

/-- One step of one side. A call starts when its side is in no other call, a producer is cloned
when it is in no call, and a handle is dropped when its side is in no call or has panicked. -/
def step (s : State T) : Action T → Option (State T × List (Event T))
  | .send x val =>
    match s.px[x]? with
    | none => none
    | some px =>
      match px.pc with
      | .idle =>
        let (px, out) := px.send x val
        some (s.setPx x px, .called x val :: out)
      | _ => none
  | .flush x =>
    match s.px[x]? with
    | none => none
    | some px =>
      match px.pc with
      | .idle =>
        let (px, out) := px.flush x .flushed
        some (s.setPx x px, out)
      | _ => none
  | .push x => push s x
  | .clone x =>
    match s.px[x]? with
    | none => none
    | some px =>
      match px.pc with
      | .idle =>
        some (State.setPx { s with buf := { s.buf with pxCount := s.buf.pxCount + 1 } } x
          { px with pc := .clone }, [])
      | _ => none
  | .cloneBuf x =>
    match s.px[x]? with
    | none => none
    | some px =>
      match px.pc with
      | .clone =>
        some ({ s with
          references := s.references + 1
          px := s.px.set x { px with pc := .idle } ++ [.new] }, [])
      | _ => none
  | .dropProducer x =>
    match s.px[x]? with
    | none => none
    | some px =>
      match px.pc with
      | .idle | .panicked =>
        let (px, out) := px.flush x .dropped
        some (s.setPx x px, out)
      | _ => none
  | .releaseProducer x =>
    match s.px[x]? with
    | none => none
    | some px =>
      match px.pc with
      | .released => some (State.release (s.setPx x { px with pc := .dropped }))
      | _ => none
  | .recv =>
    match s.cx with
    | .idle => some ({ s with cx := .isEmpty }, [])
    | _ => none
  | .pop => pop s
  | .dropConsumer =>
    match s.cx with
    | .idle | .panicked =>
      some ({ s with buf := { s.buf with cxCount := false }, cx := .released }, [])
    | _ => none
  | .releaseConsumer =>
    match s.cx with
    | .released => some (State.release { s with cx := .dropped })
    | _ => none

/-- **The channel**: all interleavings of its sides, which begin with one producer. -/
def mpscBoundedCached (T : Type u) (cap : ℕ) : Machine (State T) (Action T) (Event T) where
  init := { buf := .new cap, references := 2, px := [.new], cx := .idle }
  step := step

/-! ## What the calls have returned -/

/-- The values with which the producer `x` has called `send`, in order. -/
def called (x : ℕ) (tr : List (Event T)) : List T :=
  tr.filterMap fun
    | .called y val => if y = x then some val else none
    | _ => none

/-- The values that `send` of the producer `x` has taken or handed back, in order. -/
def answered (x : ℕ) (tr : List (Event T)) : List T :=
  tr.filterMap fun
    | .sent y val | .refused y val => if y = x then some val else none
    | _ => none

/-- The values for which `send` of the producer `x` has returned `Ok`, in order. -/
def sent (x : ℕ) (tr : List (Event T)) : List T :=
  tr.filterMap fun
    | .sent y val => if y = x then some val else none
    | _ => none

/-- The copies to the slots: the position, the producer and the value, in order. -/
def stored (tr : List (Event T)) : List (ℕ × ℕ × Option T) :=
  tr.filterMap fun
    | .stored x pos val => some (pos, x, val)
    | _ => none

/-- The producer that has written a position, and what it has written. -/
def written (tr : List (Event T)) (pos : ℕ) : Option (ℕ × Option T) := (stored tr).lookup pos

/-- The positions that `pop_front` has read and what it has returned, in order. -/
def popped (tr : List (Event T)) : List (ℕ × Option (Option T)) :=
  tr.filterMap fun
    | .popped pos res => some (pos, res)
    | _ => none

/-- The positions that `RingBuffer::drop` has read and what it has dropped, in order. -/
def freed (tr : List (Event T)) : List (ℕ × Option (Option T)) :=
  tr.filterMap fun
    | .freed pos res => some (pos, res)
    | _ => none

/-- Those of the results that are values of the producer `x`. -/
def valuesOf (x : ℕ) (tr : List (Event T)) (results : List (ℕ × Option (Option T))) : List T :=
  results.filterMap fun result =>
    (written tr result.1).bind fun write => if write.1 = x then result.2.join else none

/-- The values of the producer `x` that `recv` has returned, in order. -/
def received (x : ℕ) (tr : List (Event T)) : List T := valuesOf x tr (popped tr)

/-- The values of the producer `x` that `RingBuffer::drop` has dropped, in order. -/
def dropped (x : ℕ) (tr : List (Event T)) : List T := valuesOf x tr (freed tr)

section Append

variable (x : ℕ) (tr tr' : List (Event T))

@[simp] theorem called_append : called x (tr ++ tr') = called x tr ++ called x tr' :=
  List.filterMap_append

@[simp] theorem answered_append : answered x (tr ++ tr') = answered x tr ++ answered x tr' :=
  List.filterMap_append

@[simp] theorem sent_append : sent x (tr ++ tr') = sent x tr ++ sent x tr' := List.filterMap_append

@[simp] theorem stored_append : stored (tr ++ tr') = stored tr ++ stored tr' :=
  List.filterMap_append

@[simp] theorem popped_append : popped (tr ++ tr') = popped tr ++ popped tr' :=
  List.filterMap_append

@[simp] theorem freed_append : freed (tr ++ tr') = freed tr ++ freed tr' := List.filterMap_append

end Append

/-- The value of a call of `send` that the producer has taken and for which it has not returned
yet. -/
def Producer.sending (px : Producer T) : List T :=
  match px.pc with
  | .store _ _ _ (.sent val) | .merge _ (.sent val) => [val]
  | _ => []

/-- The first position that has not been read. -/
def State.unread (s : State T) : ℕ :=
  match s.cx with
  | .load head => head
  | _ => s.buf.head

/-- **The channel has delivered what it has taken**, so far. -/
structure Faithful (tr : List (Event T)) (s : State T) : Prop where
  /-- No position is written twice. -/
  written_once : ((stored tr).map Prod.fst).Nodup
  /-- The slot that is about to be written holds nothing that has been published and not been
  read. -/
  not_overwritten : ∀ (x : ℕ) (px : Producer T) slice copied val vals after pos,
    s.px[x]? = some px → px.pc = .store slice copied (val :: vals) after → s.unread ≤ pos →
      pos < s.buf.readableTill → s.buf.slot pos ≠ s.buf.storeSlot slice.start copied
  /-- The slot that is about to be read holds what has been written at its position. -/
  read_written : ∀ head, s.cx = .load head → ∃ x val, written tr head = some (x, val) ∧
    s.buf.inner (s.buf.slot head) = some val
  /-- The positions are read one after the other, each of them once. -/
  read_in_order : (popped tr ++ freed tr).map Prod.fst = List.range (popped tr ++ freed tr).length
  /-- What is read is what has been written. -/
  result_written : ∀ result ∈ popped tr ++ freed tr,
    ∃ x val, written tr result.1 = some (x, val) ∧ result.2 = some val
  /-- What is received of one producer is what it has sent, in order. -/
  received_prefix : ∀ x, received x tr <+: sent x tr ++ s.px[x]?.elim [] Producer.sending
  /-- Each call takes its value or hands it back, and those of one producer do so in order. -/
  answered_prefix : ∀ x, answered x tr <+: called x tr
  /-- At the end, each value that has been sent has been received or dropped, exactly once. -/
  dropped : (∀ px ∈ s.px, px.pc = .dropped) → s.cx = .dropped →
    ∀ x, received x tr ++ dropped x tr = sent x tr

end MpscBoundedCached

end Channel
