import Mathlib

/-!
# Ring buffers

A ring of slots holds a window of a history. Positions of the history grow without bound and are
taken modulo the number of slots, so that a window that is not wider than the ring has a slot of
its own for each of its positions. A slot that nobody has written holds nothing.

## Main definitions

* `Slots`: the slots of a ring
* `Holds`: the slots hold a history from a position on
* `copyTo`: values are copied to consecutive slots
* `checkedAdd`, `checkedSub`: arithmetic on positions
* `wrappingAdd`, `wrappingSub`: what the atomic counters do instead

## Main results

* `Holds.write`: writing behind a window that leaves a slot free does not touch the window
* `Holds.append`: what has been written behind the window extends it
* `Holds.map_range'`: reading the window gives the rest of the history
-/

namespace Channel

universe u

variable {T : Type u}

/-- The slots of a ring. -/
abbrev Slots (T : Type u) := ℕ → Option T

/-- Positions that share a slot are equal or a whole round apart. -/
theorem eq_of_slot_eq {cap p q : ℕ} (h : p % cap = q % cap) (hpq : p ≤ q) (hlt : q < p + cap) :
    p = q := by
  have hdvd : cap ∣ q - p := (Nat.modEq_iff_dvd' hpq).mp h
  have := Nat.eq_zero_of_dvd_of_lt hdvd (by omega)
  omega

/-- The slots hold the history `hist` from the position `head` on. -/
def Holds (cap : ℕ) (slots : Slots T) (hist : List T) (head : ℕ) : Prop :=
  ∀ p, head ≤ p → p < hist.length → slots (p % cap) = hist[p]?

namespace Holds

variable {cap head : ℕ} {slots : Slots T} {hist : List T}

theorem nil : Holds cap slots ([] : List T) head := by
  intro p _ hp
  exact absurd hp (Nat.not_lt_zero p)

/-- A smaller window. -/
theorem mono (h : Holds cap slots hist head) {head' : ℕ} (hle : head ≤ head') :
    Holds cap slots hist head' :=
  fun p hp => h p (hle.trans hp)

/-- Writing behind a window that leaves a slot free does not touch the window. -/
theorem write (h : Holds cap slots hist head) (hfree : hist.length < head + cap)
    (val : Option T) :
    Holds cap (Function.update slots (hist.length % cap) val) hist head := by
  intro p hp hlt
  rw [Function.update_of_ne, h p hp hlt]
  intro hslot
  have := eq_of_slot_eq hslot hlt.le (by omega)
  omega

/-- What has been written behind the window extends it. -/
theorem append (h : Holds cap slots hist head) {val : T}
    (hslot : slots (hist.length % cap) = some val) : Holds cap slots (hist ++ [val]) head := by
  intro p hp hlt
  rw [List.length_append, List.length_singleton] at hlt
  rcases (Nat.lt_succ_iff.mp hlt).lt_or_eq with hlt | rfl
  · rw [List.getElem?_append_left hlt, h p hp hlt]
  · rw [List.getElem?_concat_length, hslot]

/-- Reading the window slot by slot gives the rest of the history. -/
theorem map_range' (h : Holds cap slots hist head) :
    (List.range' head (hist.length - head)).map (fun p => slots (p % cap)) =
      (hist.drop head).map some := by
  apply List.ext_getElem?
  intro i
  rcases lt_or_ge i (hist.length - head) with hi | hi
  · have hslot := h (head + i) (Nat.le_add_right _ _) (by omega)
    rw [List.getElem?_map, List.getElem?_range' hi, List.getElem?_map, List.getElem?_drop,
      List.getElem?_eq_getElem (by omega)]
    simp only [Option.map_some, one_mul]
    rw [hslot, List.getElem?_eq_getElem (by omega)]
  · rw [List.getElem?_eq_none (by simpa using hi), List.getElem?_eq_none (by simp; omega)]

/-- The positions of a window have slots of their own, and so has the position behind it. -/
theorem slot_ne {p : ℕ} {tail : ℕ} (hp : head ≤ p) (hlt : p < tail) (hfree : tail < head + cap) :
    p % cap ≠ tail % cap := by
  intro hslot
  have := eq_of_slot_eq hslot hlt.le (by omega)
  omega

end Holds

/-! ## Copies -/

/-- The values are copied to the slots from `dst` on. -/
def copyTo (slots : Slots T) (dst : ℕ) (vals : List T) : Slots T :=
  fun i => if dst ≤ i ∧ i < dst + vals.length then vals[i - dst]? else slots i

section Copies

variable {slots : Slots T} {dst i j : ℕ} {vals : List T}

/-- A slot holds the value that has been copied to it. -/
theorem copyTo_add (hj : j < vals.length) : copyTo slots dst vals (dst + j) = vals[j]? := by
  rw [copyTo, if_pos (by omega), Nat.add_sub_cancel_left]

/-- The other slots are left as they are. -/
theorem copyTo_of_ne (h : ∀ j < vals.length, i ≠ dst + j) : copyTo slots dst vals i = slots i := by
  rw [copyTo, if_neg]
  rintro ⟨hle, hlt⟩
  exact h (i - dst) (by omega) (by omega)

end Copies

/-! ## Positions

Positions and numbers of slots are `usize`. -/

/-- The slot of a position in a ring of `len` slots, as the code masks it. -/
def slotOf (len pos : ℕ) : ℕ := pos &&& (len - 1)

theorem slotOf_eq {len : ℕ} (hlen : ∃ k, len = 2 ^ k) (pos : ℕ) : slotOf len pos = pos % len := by
  obtain ⟨k, rfl⟩ := hlen
  exact Nat.and_two_pow_sub_one_eq_mod pos k

/-- An addition that panics on overflow. -/
def checkedAdd (a b : ℕ) : Option ℕ := if a + b < 2 ^ 64 then some (a + b) else none

/-- A subtraction that panics below zero. -/
def checkedSub (a b : ℕ) : Option ℕ := if b ≤ a then some (a - b) else none

theorem checkedAdd_eq_some {a b c : ℕ} (h : checkedAdd a b = some c) : c = a + b := by
  unfold checkedAdd at h
  split_ifs at h
  exact (Option.some.inj h).symm

theorem checkedAdd_lt {a b c : ℕ} (h : checkedAdd a b = some c) : c < 2 ^ 64 := by
  unfold checkedAdd at h
  split_ifs at h with hlt
  exact Option.some.inj h ▸ hlt

theorem checkedAdd_of_lt {a b : ℕ} (h : a + b < 2 ^ 64) : checkedAdd a b = some (a + b) := if_pos h

theorem checkedSub_of_le {a b : ℕ} (h : b ≤ a) : checkedSub a b = some (a - b) := if_pos h

/-- `fetch_add`, which wraps around on overflow. -/
def wrappingAdd (a b : ℕ) : ℕ := (a + b) % 2 ^ 64

/-- `fetch_sub`, which wraps around below zero. -/
def wrappingSub (a b : ℕ) : ℕ := (a + 2 ^ 64 - b) % 2 ^ 64

theorem wrappingAdd_of_lt {a b : ℕ} (h : a + b < 2 ^ 64) : wrappingAdd a b = a + b :=
  Nat.mod_eq_of_lt h

theorem wrappingSub_of_le {a b : ℕ} (hle : b ≤ a) (hlt : a < 2 ^ 64) :
    wrappingSub a b = a - b := by
  unfold wrappingSub
  rw [Nat.sub_add_comm hle, Nat.add_mod_right]
  exact Nat.mod_eq_of_lt (by omega)

end Channel
