import RustPractices.Channel.MpscBoundedCached

/-!
# The positions of the channel with slices

The positions from `readable_till` up to `tail` are tiled by the slices that producers own and by
the filled slices that have not been merged. A position has been written when it lies before
`readable_till`, in a filled slice, or in the part of a slice that its owner has copied; and the
slots hold what has been written from the first position on that has not been read.

## Main definitions

* `claim`: the owners of the slices
* `Layout`: the positions, given what each of them has been written with

## Main results

* `Layout.apply`, `Layout.store`, `Layout.insert`, `Layout.exchange`, `Layout.remove`,
  `Layout.load`: the steps that change the positions
-/

open Allocation

namespace Channel

namespace MpscBoundedCached

universe u

variable {α : Type u}

/-- A value is copied to the slot of its position. -/
theorem storeSlot_eq {T : Type u} {buf : RingBuffer T} (hcap : ∃ k, buf.capacity = 2 ^ k)
    {pos i : ℕ} (hi : i < buf.capacity) : buf.storeSlot pos i = (pos + i) % buf.capacity := by
  have hslot : buf.slot pos = pos % buf.capacity := slotOf_eq hcap pos
  have hlt : pos % buf.capacity < buf.capacity := Nat.mod_lt _ (by omega)
  rw [RingBuffer.storeSlot, hslot, Nat.add_mod, Nat.mod_eq_of_lt hi]
  generalize pos % buf.capacity = m at hlt
  split_ifs with hleft
  · exact (Nat.mod_eq_of_lt (by omega)).symm
  · rw [Nat.mod_eq_sub_mod (show buf.capacity ≤ m + i by omega),
      Nat.mod_eq_of_lt (show m + i - buf.capacity < buf.capacity by omega)]
    omega

/-- The owners of the slices: a producer, or nobody when the slice is filled and has not been
merged. -/
def claim (filled : Finset Slice) (till : ℕ) (own : ℕ → Option (Slice × ℕ)) :
    Option ℕ → Slice → Prop
  | none, slice => slice ∈ filled ∧ till ≤ slice.start
  | some x, slice => ∃ copied, own x = some (slice, copied)

/-- **The positions**, given the slice that each producer owns with the number of its positions that
have been copied, the first position `loaded` that has not been read, and what has been written. -/
structure Layout (cap : ℕ) (inner : Slots α) (loaded till tail : ℕ) (filled : Finset Slice)
    (own : ℕ → Option (Slice × ℕ)) (written : ℕ → Option (ℕ × α)) : Prop where
  tiles : Tiles (claim filled till own) till tail
  loaded_le : loaded ≤ till
  fresh : ∀ pos, tail ≤ pos → written pos = none
  published : ∀ pos < till, ∃ write, written pos = some write
  filled_written : ∀ slice ∈ filled, ∀ pos, slice.Contains pos → ∃ write, written pos = some write
  copied_le : ∀ {x slice copied}, own x = some (slice, copied) → copied ≤ slice.len
  copied_written : ∀ {x slice copied}, own x = some (slice, copied) → ∀ pos, slice.start ≤ pos →
    pos < slice.start + copied → ∃ write, written pos = some write
  uncopied : ∀ {x slice copied}, own x = some (slice, copied) → ∀ pos, slice.start + copied ≤ pos →
    pos < slice.start + slice.len → written pos = none
  /-- A producer writes behind all that it has written. -/
  ahead : ∀ {x slice copied}, own x = some (slice, copied) → ∀ pos val,
    written pos = some (x, val) → pos < slice.start + copied
  holds : ∀ pos y val, loaded ≤ pos → written pos = some (y, val) → inner (pos % cap) = some val

namespace Layout

variable {cap loaded till tail : ℕ} {inner : Slots α} {filled : Finset Slice}
  {own : ℕ → Option (Slice × ℕ)} {written : ℕ → Option (ℕ × α)} {x : ℕ} {slice : Slice}
  {copied : ℕ}

/-- What a producer owns lies between `readable_till` and `tail`. -/
theorem own_bounds (h : Layout cap inner loaded till tail filled own written)
    (hown : own x = some (slice, copied)) :
    till ≤ slice.start ∧ slice.start + slice.len ≤ tail ∧ 0 < slice.len := by
  have hclaim : claim filled till own (some x) slice := ⟨copied, hown⟩
  exact ⟨h.tiles.start_le hclaim, h.tiles.stop_le hclaim, h.tiles.pos hclaim⟩

theorem till_le (h : Layout cap inner loaded till tail filled own written) : till ≤ tail :=
  h.tiles.le

/-- A producer gets the slice behind the others. -/
theorem apply (h : Layout cap inner loaded till tail filled own written) (hx : own x = none)
    {size : ℕ} (hsize : 0 < size) :
    Layout cap inner loaded till (tail + size) filled
      (Function.update own x (some (⟨tail, size⟩, 0))) written where
  tiles := by
    refine h.tiles.extend hsize (k := some x) ?_
    rintro (_ | y) s
    · simp [claim]
    · by_cases hy : y = x
      · subst hy
        simp [claim, hx, eq_comm]
      · simp [claim, hy]
  loaded_le := h.loaded_le
  fresh := fun pos hpos => h.fresh pos (by omega)
  published := h.published
  filled_written := h.filled_written
  copied_le := by
    intro y s c hown
    by_cases hy : y = x
    · subst hy
      obtain ⟨-, rfl⟩ := by simpa using hown
      exact Nat.zero_le _
    · rw [Function.update_of_ne hy] at hown
      exact h.copied_le hown
  copied_written := by
    intro y s c hown pos hle hlt
    by_cases hy : y = x
    · subst hy
      obtain ⟨rfl, rfl⟩ := by simpa using hown
      exact absurd hlt (by simpa using hle)
    · rw [Function.update_of_ne hy] at hown
      exact h.copied_written hown pos hle hlt
  uncopied := by
    intro y s c hown pos hle hlt
    by_cases hy : y = x
    · subst hy
      obtain ⟨rfl, rfl⟩ := by simpa using hown
      exact h.fresh pos hle
    · rw [Function.update_of_ne hy] at hown
      exact h.uncopied hown pos hle hlt
  ahead := by
    intro y s c hown pos val hwritten
    by_cases hy : y = x
    · subst hy
      obtain ⟨rfl, rfl⟩ := by simpa using hown
      by_contra hle
      exact absurd (hwritten.symm.trans (h.fresh pos (not_lt.mp hle))) (by simp)
    · rw [Function.update_of_ne hy] at hown
      exact h.ahead hown pos val hwritten
  holds := h.holds

/-- A producer copies the next value of its slice. -/
theorem store (h : Layout cap inner loaded till tail filled own written)
    (hx : own x = some (slice, copied)) (hcopied : copied < slice.len) (hcap : tail ≤ loaded + cap)
    (val : α) :
    Layout cap (Function.update inner ((slice.start + copied) % cap) (some val)) loaded till tail
      filled (Function.update own x (some (slice, copied + 1)))
      (Function.update written (slice.start + copied) (some (x, val))) := by
  obtain ⟨htill, htail, -⟩ := h.own_bounds hx
  have hloaded := h.loaded_le
  have hnone : written (slice.start + copied) = none := h.uncopied hx _ le_rfl (by omega)
  have hkeep : ∀ pos, (∃ write, written pos = some write) →
      ∃ write, Function.update written (slice.start + copied) (some (x, val)) pos = some write := by
    intro pos hwritten
    by_cases hpos : pos = slice.start + copied
    · exact ⟨(x, val), by rw [hpos, Function.update_self]⟩
    · rwa [Function.update_of_ne hpos]
  constructor
  case tiles =>
    refine h.tiles.congr ?_
    rintro (_ | y) s
    · rfl
    · by_cases hy : y = x
      · subst hy
        simp [claim, hx]
      · simp [claim, hy]
  case loaded_le => exact h.loaded_le
  case fresh =>
    intro pos hpos
    rw [Function.update_of_ne (by omega)]
    exact h.fresh pos hpos
  case published =>
    intro pos hpos
    exact hkeep pos (h.published pos hpos)
  case filled_written =>
    intro s hs pos hpos
    exact hkeep pos (h.filled_written s hs pos hpos)
  case copied_le =>
    intro y s c hown
    by_cases hy : y = x
    · subst hy
      obtain ⟨rfl, rfl⟩ := by simpa using hown
      exact hcopied
    · rw [Function.update_of_ne hy] at hown
      exact h.copied_le hown
  case copied_written =>
    intro y s c hown pos hle hlt
    by_cases hy : y = x
    · subst hy
      obtain ⟨rfl, rfl⟩ := by simpa using hown
      rcases Nat.lt_succ_iff_lt_or_eq.mp (show pos < (slice.start + copied) + 1 by omega) with
        hlt | rfl
      · exact hkeep pos (h.copied_written hx pos hle hlt)
      · exact ⟨(y, val), Function.update_self ..⟩
    · rw [Function.update_of_ne hy] at hown
      exact hkeep pos (h.copied_written hown pos hle hlt)
  case uncopied =>
    intro y s c hown pos hle hlt
    by_cases hy : y = x
    · subst hy
      obtain ⟨rfl, rfl⟩ := by simpa using hown
      rw [Function.update_of_ne (by omega)]
      exact h.uncopied hx pos (by omega) hlt
    · rw [Function.update_of_ne hy] at hown
      rw [Function.update_of_ne, h.uncopied hown pos hle hlt]
      rintro rfl
      -- the position would lie in two slices
      have hdisjoint := h.tiles.disjoint (i := some y) (j := some x) (slice.start + copied)
        ⟨c, hown⟩ ⟨copied, hx⟩ ⟨by omega, hlt⟩ ⟨by omega, by omega⟩
      exact hy (Option.some.inj hdisjoint.1)
  case ahead =>
    intro y s c hown pos v hwritten
    by_cases hpos : pos = slice.start + copied
    · subst hpos
      obtain ⟨rfl, rfl⟩ : x = y ∧ val = v := by simpa using hwritten
      obtain ⟨rfl, rfl⟩ := by simpa using hown
      omega
    · rw [Function.update_of_ne hpos] at hwritten
      by_cases hy : y = x
      · subst hy
        obtain ⟨rfl, rfl⟩ := by simpa using hown
        have := h.ahead hx pos v hwritten
        omega
      · rw [Function.update_of_ne hy] at hown
        exact h.ahead hown pos v hwritten
  case holds =>
    intro pos y v hle hwritten
    by_cases hpos : pos = slice.start + copied
    · subst hpos
      obtain ⟨-, rfl⟩ : x = y ∧ val = v := by simpa using hwritten
      exact Function.update_self ..
    · rw [Function.update_of_ne hpos] at hwritten
      have hlt : pos < tail := by
        by_contra hge
        exact absurd (hwritten.symm.trans (h.fresh pos (not_lt.mp hge))) (by simp)
      rw [Function.update_of_ne, h.holds pos y v hle hwritten]
      intro hslot
      rcases le_total pos (slice.start + copied) with hle' | hle'
      · exact hpos (eq_of_slot_eq hslot hle' (by omega))
      · exact hpos (eq_of_slot_eq hslot.symm hle' (by omega)).symm

/-- A filled slice is handed over. -/
theorem insert (h : Layout cap inner loaded till tail filled own written)
    (hx : own x = some (slice, slice.len)) :
    Layout cap inner loaded till tail (insert slice filled) (Function.update own x none)
      written := by
  obtain ⟨htill, -, -⟩ := h.own_bounds hx
  have hother : ∀ {y s c}, Function.update own x none y = some (s, c) → own y = some (s, c) := by
    intro y s c hown
    by_cases hy : y = x
    · subst hy
      simp at hown
    · rwa [Function.update_of_ne hy] at hown
  refine ⟨?_, h.loaded_le, h.fresh, h.published, ?_, fun hown => h.copied_le (hother hown),
    fun hown => h.copied_written (hother hown), fun hown => h.uncopied (hother hown),
    fun hown => h.ahead (hother hown), h.holds⟩
  · refine h.tiles.transfer (j := some x) (k := none) (s := slice) ⟨slice.len, hx⟩ ?_
    rintro (_ | y) s
    · constructor
      · rintro ⟨hs, hle⟩
        rcases Finset.mem_insert.mp hs with rfl | hs
        · exact .inr ⟨rfl, rfl⟩
        · exact .inl ⟨⟨hs, hle⟩, by simp⟩
      · rintro (⟨⟨hs, hle⟩, -⟩ | ⟨-, rfl⟩)
        · exact ⟨Finset.mem_insert_of_mem hs, hle⟩
        · exact ⟨Finset.mem_insert_self _ _, htill⟩
    · by_cases hy : y = x
      · subst hy
        simp [claim, hx, eq_comm]
      · simp [claim, hy]
  · intro s hs pos hpos
    rcases Finset.mem_insert.mp hs with rfl | hs
    · exact h.copied_written hx pos hpos.1 hpos.2
    · exact h.filled_written s hs pos hpos

/-- The slices behind the one at `readable_till` start behind it. -/
theorem stop_le_start (h : Layout cap inner loaded till tail filled own written)
    (hmem : slice ∈ filled) (hstart : till = slice.start) {s : Slice} (hs : s ∈ filled)
    (hle : till ≤ s.start) (hne : s ≠ slice) : till + slice.len ≤ s.start := by
  by_contra hlt
  have hclaim : claim filled till own none slice := ⟨hmem, hstart.le⟩
  have hclaim' : claim filled till own none s := ⟨hs, hle⟩
  have hpos := h.tiles.pos hclaim'
  exact hne (h.tiles.disjoint s.start hclaim' hclaim ⟨le_rfl, by omega⟩
    ⟨by omega, by omega⟩).2

/-- The filled slice at `readable_till` is published. -/
theorem exchange (h : Layout cap inner loaded till tail filled own written) (hmem : slice ∈ filled)
    (hstart : till = slice.start) :
    Layout cap inner loaded (till + slice.len) tail filled own written := by
  have hclaim : claim filled till own none slice := ⟨hmem, hstart.le⟩
  have hpos := h.tiles.pos hclaim
  refine { h with
    tiles := ?_, loaded_le := h.loaded_le.trans (Nat.le_add_right _ _), published := ?_ }
  · refine h.tiles.advance hclaim hstart.symm ?_
    rintro (_ | y) s
    · constructor
      · rintro ⟨hs, hle⟩
        refine ⟨⟨hs, by omega⟩, ?_⟩
        rintro ⟨-, rfl⟩
        omega
      · rintro ⟨⟨hs, hle⟩, hne⟩
        exact ⟨hs, h.stop_le_start hmem hstart hs hle fun heq => hne ⟨rfl, heq⟩⟩
    · simp [claim]
  · intro pos hlt
    rcases lt_or_ge pos till with hpos | hpos
    · exact h.published pos hpos
    · exact h.filled_written slice hmem pos ⟨hstart ▸ hpos, hstart ▸ hlt⟩

/-- A published slice is forgotten. -/
theorem remove (h : Layout cap inner loaded till tail filled own written)
    (hlt : slice.start < till) :
    Layout cap inner loaded till tail (filled.erase slice) own written := by
  refine { h with
    tiles := h.tiles.congr ?_
    filled_written := fun s hs => h.filled_written s (Finset.mem_of_mem_erase hs) }
  rintro (_ | y) s
  · constructor
    · rintro ⟨hs, hle⟩
      exact ⟨Finset.mem_of_mem_erase hs, hle⟩
    · rintro ⟨hs, hle⟩
      refine ⟨Finset.mem_erase.mpr ⟨?_, hs⟩, hle⟩
      rintro rfl
      omega
  · rfl

/-- The consumer reads a position. -/
theorem load (h : Layout cap inner loaded till tail filled own written) (hlt : loaded < till) :
    Layout cap inner (loaded + 1) till tail filled own written :=
  { h with
    loaded_le := hlt
    holds := fun pos y val hle => h.holds pos y val (by omega) }

/-- When nobody owns a slice and no filled slice is left at `readable_till`, everything has been
published. -/
theorem till_eq (h : Layout cap inner loaded till tail filled own written)
    (hown : ∀ x, own x = none) (hfilled : ∀ slice ∈ filled, slice.start ≠ till) : till = tail := by
  refine h.till_le.antisymm (not_lt.mp fun hlt => ?_)
  obtain ⟨(_ | x), slice, hclaim, hstart⟩ := h.tiles.exists_first hlt
  · exact hfilled slice hclaim.1 hstart
  · obtain ⟨copied, hx⟩ := hclaim
    exact absurd (hx.symm.trans (hown x)) (by simp)

end Layout

end MpscBoundedCached

end Channel
