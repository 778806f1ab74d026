import RustPractices.Channel.MpscBoundedCached.Layout

/-!
# The copy of a slice into the ring

`store_vals` copies a whole slice with one or two calls of `copy_nonoverlapping`, where the second
goes on at the start of the ring. `load` masks the position of a single slot. The two agree, and the
steps in which a producer of the machine copies the slots one after the other come to the same ring.

## Main definitions

* `RingBuffer.load`, `RingBuffer.storeVals`: reading a slot and copying a slice
* `RingBuffer.Stores`: a ring buffer after a slice has been stored

## Main results

* `storeVals_stores`: what has been stored is loaded, and the other slots are unchanged
* `execFrom_store`: the steps of a producer store the slice
-/

open Transition Allocation

namespace Channel

namespace MpscBoundedCached

universe u

variable {T : Type u}

/-- `load`: a slot that was never written gives nothing. -/
def RingBuffer.load (buf : RingBuffer T) (pos : ℕ) : Option (Option T) := buf.inner (buf.slot pos)

/-- `copy_nonoverlapping` of values to the slots from `dst` on, which must lie within the buffer. -/
def RingBuffer.copyNonoverlapping (buf : RingBuffer T) (dst : ℕ) (vals : List (Option T)) :
    Option (RingBuffer T) :=
  if dst + vals.length ≤ buf.capacity then some { buf with inner := copyTo buf.inner dst vals }
  else none

/-- `store_vals`. -/
def RingBuffer.storeVals (buf : RingBuffer T) (pos : ℕ) (vals : List (Option T)) :
    Option (RingBuffer T) :=
  let pos := buf.slot pos
  let left := buf.capacity - pos
  if left < vals.length then
    (buf.copyNonoverlapping pos (vals.take left)).bind fun buf =>
      buf.copyNonoverlapping 0 (vals.drop left)
  else buf.copyNonoverlapping pos vals

/-- **The values have been stored** from a position on, and nothing else has changed. -/
structure RingBuffer.Stores (buf : RingBuffer T) (pos : ℕ) (vals : List (Option T))
    (buf' : RingBuffer T) : Prop where
  load : ∀ j val, vals[j]? = some val → buf'.load (pos + j) = some val
  unchanged : ∀ i, (∀ j < vals.length, i ≠ (pos + j) % buf.capacity) → buf'.inner i = buf.inner i
  frame : buf' = { buf with inner := buf'.inner }

section Stores

variable {buf buf' : RingBuffer T} {pos : ℕ} {vals : List (Option T)}

/-- The values are stored when each is in its slot and the other slots are unchanged. -/
theorem RingBuffer.Stores.of_storeSlot (hcap : ∃ k, buf.capacity = 2 ^ k)
    (hlen : vals.length ≤ buf.capacity) {inner : Slots (Option T)}
    (hstored : ∀ j < vals.length, inner (buf.storeSlot pos j) = vals[j]?)
    (hother : ∀ i, (∀ j < vals.length, i ≠ buf.storeSlot pos j) → inner i = buf.inner i) :
    buf.Stores pos vals { buf with inner } where
  load := by
    intro j val hval
    obtain ⟨hj, -⟩ := List.getElem?_eq_some_iff.mp hval
    have hslot : buf.slot (pos + j) = buf.storeSlot pos j := by
      rw [storeSlot_eq hcap (hj.trans_le hlen)]
      exact slotOf_eq hcap (pos + j)
    show inner (buf.slot (pos + j)) = some val
    rw [hslot, hstored j hj, hval]
  unchanged := by
    intro i hi
    refine hother i fun j hj => ?_
    rw [storeSlot_eq hcap (hj.trans_le hlen)]
    exact hi j hj
  frame := rfl

/-- What fits before the end of the ring goes behind the position. -/
theorem storeSlot_of_lt {j : ℕ} (h : j < buf.capacity - buf.slot pos) :
    buf.storeSlot pos j = buf.slot pos + j := if_pos h

/-- The rest goes to the start of the ring. -/
theorem storeSlot_of_le {j : ℕ} (h : buf.capacity - buf.slot pos ≤ j) :
    buf.storeSlot pos j = j - (buf.capacity - buf.slot pos) := if_neg (not_lt.mpr h)

theorem slot_lt (hcap : ∃ k, buf.capacity = 2 ^ k) (pos : ℕ) : buf.slot pos < buf.capacity := by
  rw [RingBuffer.slot, slotOf_eq hcap]
  obtain ⟨k, hk⟩ := hcap
  exact Nat.mod_lt _ (hk ▸ Nat.two_pow_pos k)

/-- A batch that fits before the end of the ring. -/
theorem storeVals_of_le (hcap : ∃ k, buf.capacity = 2 ^ k) (hlen : vals.length ≤ buf.capacity)
    (hleft : vals.length ≤ buf.capacity - buf.slot pos) :
    ∃ buf', buf.storeVals pos vals = some buf' ∧ buf.Stores pos vals buf' := by
  have hslot := slot_lt hcap pos
  refine ⟨{ buf with inner := copyTo buf.inner (buf.slot pos) vals }, ?_,
    .of_storeSlot hcap hlen ?_ ?_⟩
  · rw [RingBuffer.storeVals, if_neg (not_lt.mpr hleft), RingBuffer.copyNonoverlapping,
      if_pos (by omega)]
  · intro j hj
    rw [storeSlot_of_lt (by omega), copyTo_add hj]
  · intro i hi
    apply copyTo_of_ne
    intro j hj heq
    refine hi j hj ?_
    rw [storeSlot_of_lt (by omega), heq]

/-- A batch that wraps around the end of the ring. -/
theorem storeVals_of_lt (hcap : ∃ k, buf.capacity = 2 ^ k) (hlen : vals.length ≤ buf.capacity)
    (hleft : buf.capacity - buf.slot pos < vals.length) :
    ∃ buf', buf.storeVals pos vals = some buf' ∧ buf.Stores pos vals buf' := by
  have hslot := slot_lt hcap pos
  obtain ⟨left, hleft_eq⟩ : ∃ left, left = buf.capacity - buf.slot pos := ⟨_, rfl⟩
  have htake : (vals.take left).length = left := List.length_take_of_le (by omega)
  have hdrop : (vals.drop left).length = vals.length - left := List.length_drop
  refine ⟨{ buf with
      inner := copyTo (copyTo buf.inner (buf.slot pos) (vals.take left)) 0 (vals.drop left) }, ?_,
    .of_storeSlot hcap hlen ?_ ?_⟩
  · rw [RingBuffer.storeVals, if_pos hleft, ← hleft_eq, RingBuffer.copyNonoverlapping,
      if_pos (by omega), Option.bind_some, RingBuffer.copyNonoverlapping,
      if_pos (by rw [hdrop]; dsimp only; omega)]
  · intro j hj
    rcases lt_or_ge j left with hfirst | hrest
    · rw [storeSlot_of_lt (by omega), copyTo_of_ne (by rw [hdrop]; omega), copyTo_add (by omega),
        List.getElem?_take_of_lt hfirst]
    · have hcopied : copyTo (copyTo buf.inner (buf.slot pos) (vals.take left)) 0 (vals.drop left)
          (0 + (j - left)) = (vals.drop left)[j - left]? := copyTo_add (by omega)
      rw [Nat.zero_add, List.getElem?_drop, Nat.add_sub_cancel' hrest] at hcopied
      rw [storeSlot_of_le (by omega), ← hleft_eq, hcopied]
  · intro i hi
    rw [copyTo_of_ne, copyTo_of_ne]
    · intro j hj heq
      refine hi j (by omega) ?_
      rw [storeSlot_of_lt (by omega), heq]
    · intro j hj heq
      refine hi (j + left) (by omega) ?_
      rw [storeSlot_of_le (by omega), heq]
      omega

/-- **A batch agrees with single loads** around the ring: `store_vals` stays within the buffer, what
it has stored is loaded from its position, and the other slots are unchanged. -/
theorem storeVals_stores (hcap : ∃ k, buf.capacity = 2 ^ k) (hlen : vals.length ≤ buf.capacity) :
    ∃ buf', buf.storeVals pos vals = some buf' ∧ buf.Stores pos vals buf' := by
  rcases lt_or_ge (buf.capacity - buf.slot pos) vals.length with hleft | hleft
  · exact storeVals_of_lt hcap hlen hleft
  · exact storeVals_of_le hcap hlen hleft

/-- A batch of two that wraps around the end of a ring of four slots. -/
theorem storeVals_stores_wrapping : ∃ buf' : RingBuffer ℕ,
    (RingBuffer.new 4).storeVals 7 [some 1, none] = some buf' ∧
      (RingBuffer.new 4).Stores 7 [some 1, none] buf' :=
  storeVals_stores ⟨2, by decide +kernel⟩ (by decide +kernel)

end Stores

/-! ## The steps of a producer -/

/-- The slots are copied one after the other, from the value `i` on. -/
def RingBuffer.storeFrom (buf : RingBuffer T) (pos : ℕ) : ℕ → List (Option T) → RingBuffer T
  | _, [] => buf
  | i, val :: vals =>
    RingBuffer.storeFrom
      { buf with inner := Function.update buf.inner (buf.storeSlot pos i) (some val) } pos (i + 1) vals

section StoreFrom

variable {buf buf' : RingBuffer T} {pos : ℕ} {vals : List (Option T)}

/-- The values go to different slots. -/
theorem storeSlot_injective (hcap : ∃ k, buf.capacity = 2 ^ k) {i j : ℕ} (hi : i < buf.capacity)
    (hj : j < buf.capacity) (h : buf.storeSlot pos i = buf.storeSlot pos j) : i = j := by
  rw [storeSlot_eq hcap hi, storeSlot_eq hcap hj] at h
  rcases le_total i j with hle | hle
  · have := eq_of_slot_eq h (Nat.add_le_add_left hle pos) (by omega)
    omega
  · have := eq_of_slot_eq h.symm (Nat.add_le_add_left hle pos) (by omega)
    omega

/-- What is stored is determined. -/
theorem RingBuffer.Stores.unique (hcap : ∃ k, buf.capacity = 2 ^ k) {buf'' : RingBuffer T}
    (h : buf.Stores pos vals buf') (h' : buf.Stores pos vals buf'') : buf' = buf'' := by
  have hload : ∀ {b : RingBuffer T}, buf.Stores pos vals b → ∀ p,
      b.load p = b.inner (p % buf.capacity) := by
    intro b hb p
    rw [hb.frame]
    exact congrArg b.inner (slotOf_eq hcap p)
  rw [h.frame, h'.frame]
  congr 1
  ext1 i
  by_cases hi : ∀ j < vals.length, i ≠ (pos + j) % buf.capacity
  · rw [h.unchanged i hi, h'.unchanged i hi]
  · push Not at hi
    obtain ⟨j, hj, rfl⟩ := hi
    have hval := List.getElem?_eq_getElem hj
    rw [← hload h, ← hload h', h.load j _ hval, h'.load j _ hval]

/-- Copying slot by slot. -/
theorem storeFrom_inner (hcap : ∃ k, buf.capacity = 2 ^ k) {i : ℕ}
    (hlen : i + vals.length ≤ buf.capacity) :
    ∃ inner, buf.storeFrom pos i vals = { buf with inner } ∧
      (∀ j < vals.length, inner (buf.storeSlot pos (i + j)) = vals[j]?) ∧
      ∀ k, (∀ j < vals.length, k ≠ buf.storeSlot pos (i + j)) → inner k = buf.inner k := by
  induction vals generalizing buf i with
  | nil => exact ⟨buf.inner, rfl, by simp, fun _ _ => rfl⟩
  | cons val vals ih =>
    rw [List.length_cons] at hlen
    obtain ⟨inner, heq, hstored, hother⟩ := @ih
      { buf with inner := Function.update buf.inner (buf.storeSlot pos i) (some val) } hcap (i + 1)
      (by dsimp only; omega)
    refine ⟨inner, heq, ?_, ?_⟩
    · intro j hj
      cases j with
      | zero =>
        rw [hother, Nat.add_zero]
        · exact Function.update_self _ _ _
        · intro j hj hslot
          have := storeSlot_injective hcap (by omega) (by omega) hslot
          omega
      | succ j =>
        rw [List.getElem?_cons_succ, ← hstored j (by simpa using hj), Nat.add_assoc, Nat.add_comm 1 j]
        rfl
    · intro k hk
      rw [hother k]
      · refine Function.update_of_ne ?_ _ _
        exact hk 0 (by simp)
      · intro j hj
        rw [Nat.add_assoc, Nat.add_comm 1 j]
        exact hk (j + 1) (by simpa using hj)

/-- **The batch is the copy of its slots**, one after the other. -/
theorem storeVals_eq_storeFrom (hcap : ∃ k, buf.capacity = 2 ^ k)
    (hlen : vals.length ≤ buf.capacity) :
    buf.storeVals pos vals = some (buf.storeFrom pos 0 vals) := by
  obtain ⟨buf', hbuf', hstores⟩ : ∃ buf', buf.storeVals pos vals = some buf' ∧
      buf.Stores pos vals buf' := by
    rcases lt_or_ge (buf.capacity - buf.slot pos) vals.length with hleft | hleft
    · exact storeVals_of_lt hcap hlen hleft
    · exact storeVals_of_le hcap hlen hleft
  have hfrom : 0 + vals.length ≤ buf.capacity := by rwa [Nat.zero_add]
  obtain ⟨inner, heq, hstored, hother⟩ := @storeFrom_inner T buf pos vals hcap 0 hfrom
  simp only [Nat.zero_add] at hstored hother
  have hstores' := RingBuffer.Stores.of_storeSlot hcap hlen hstored hother
  rw [hbuf', heq, hstores.unique hcap hstores']

end StoreFrom

/-- **A producer stores its slice**: the steps that copy the slots, without those of other sides
between them, come to what `store_vals` comes to. -/
theorem execFrom_store {cap : ℕ} {s : State T} {tr : List (Event T)} {x : ℕ} {px : Producer T}
    {slice : Slice} {copied : ℕ} {vals : List (Option T)} {after : After T}
    (hx : s.px[x]? = some px) (hpc : px.pc = .store slice copied vals after) :
    ∃ out, (mpscBoundedCached T cap).execFrom s tr (List.replicate vals.length (.push x)) =
      some (State.setPx { s with buf := s.buf.storeFrom slice.start copied vals } x
        { px with pc := .store slice (copied + vals.length) [] after }, out) := by
  induction vals generalizing s tr px copied with
  | nil =>
    -- no step at all: the producer is put back as it is
    refine ⟨tr, ?_⟩
    have hset : s.px.set x px = s.px := by
      obtain ⟨hlt, rfl⟩ := List.getElem?_eq_some_iff.mp hx
      exact List.set_getElem_self hlt
    have hpx : ({ px with pc := .store slice copied [] after } : Producer T) = px := by
      rw [← hpc]
    simp only [List.length_nil, Nat.add_zero, hpx, State.setPx, hset]
    rfl
  | cons val vals ih =>
    have hlt := (List.getElem?_eq_some_iff.mp hx).1
    have hstep : (mpscBoundedCached T cap).step s (.push x) = some (State.setPx
        { s with buf := { s.buf with
          inner := Function.update s.buf.inner (s.buf.storeSlot slice.start copied) (some val) } } x
        { px with pc := .store slice (copied + 1) vals after },
        [.stored x (slice.start + copied) val]) := by
      simp only [mpscBoundedCached, step, push, hx, hpc]
    have hx' : (State.setPx { s with buf := { s.buf with
        inner := Function.update s.buf.inner (s.buf.storeSlot slice.start copied) (some val) } } x
        { px with pc := .store slice (copied + 1) vals after }).px[x]? =
          some { px with pc := .store slice (copied + 1) vals after } := by
      simp [State.setPx, hlt]
    obtain ⟨out, hrest⟩ := @ih _ (tr ++ [.stored x (slice.start + copied) val]) _ _ hx' rfl
    refine ⟨out, ?_⟩
    rw [List.length_cons, List.replicate_succ, Machine.execFrom, hstep]
    refine hrest.trans ?_
    simp only [State.setPx, List.set_set]
    rw [show copied + 1 + vals.length = copied + (vals.length + 1) by omega]
    rfl

end MpscBoundedCached

end Channel
