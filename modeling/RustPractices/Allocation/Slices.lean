import Mathlib

/-!
# Slices of a line of positions

Positions are handed out in slices, one behind the other, to claimants that hold them until they
give them up. A slice that is given up at the front shortens the line, and a slice can pass from one
claimant to another.

## Main definitions

* `Slice`: a start and a length
* `Tiles`: the claimed slices are disjoint and cover the line
* `stream`: what one writer has written, in the order of the positions

## Main results

* `Tiles.extend`, `Tiles.transfer`, `Tiles.advance`: a slice comes, passes on, or goes
* `stream_update`: a writer that writes behind all that it has written extends its stream
-/

namespace Allocation

universe u v

/-- A slice: the position at which it starts, and its length. -/
structure Slice where
  start : ℕ
  len : ℕ
deriving DecidableEq, Repr

namespace Slice

/-- Slices are ordered by their starts, and then by their lengths. -/
instance : LinearOrder Slice :=
  LinearOrder.lift' (fun slice => toLex (slice.start, slice.len)) fun s t h => by
    cases s
    cases t
    simpa using h

theorem start_le_of_le {s t : Slice} (h : s ≤ t) : s.start ≤ t.start :=
  Prod.Lex.monotone_fst_ofLex (α := ℕ) (β := ℕ) h

/-- The position lies in the slice. -/
def Contains (slice : Slice) (pos : ℕ) : Prop :=
  slice.start ≤ pos ∧ pos < slice.start + slice.len

end Slice

variable {ι : Type u} {claim claim' : ι → Slice → Prop} {a b : ℕ} {i j k : ι} {s t : Slice}

/-- **The claimed slices tile the line** from `a` up to `b`: each is claimed once, they are
disjoint, and each position lies in one of them. -/
structure Tiles (claim : ι → Slice → Prop) (a b : ℕ) : Prop where
  le : a ≤ b
  pos : ∀ {i s}, claim i s → 0 < s.len
  start_le : ∀ {i s}, claim i s → a ≤ s.start
  stop_le : ∀ {i s}, claim i s → s.start + s.len ≤ b
  disjoint : ∀ {i j s t} (pos : ℕ), claim i s → claim j t → s.Contains pos → t.Contains pos →
    i = j ∧ s = t
  cover : ∀ pos, a ≤ pos → pos < b → ∃ i s, claim i s ∧ s.Contains pos

namespace Tiles

theorem nil (a : ℕ) : Tiles (fun (_ : ι) _ => False) a a where
  le := le_rfl
  pos := False.elim
  start_le := False.elim
  stop_le := False.elim
  disjoint := fun _ h => h.elim
  cover := fun _ hle hlt => absurd hle (by omega)

theorem congr (h : Tiles claim a b) (hclaim : ∀ i s, claim' i s ↔ claim i s) :
    Tiles claim' a b := by
  obtain rfl : claim' = claim := funext fun i => funext fun s => propext (hclaim i s)
  exact h

/-- The first slice of a line that is not empty. -/
theorem exists_first (h : Tiles claim a b) (hlt : a < b) : ∃ i s, claim i s ∧ s.start = a := by
  obtain ⟨i, s, hs, hle, -⟩ := h.cover a le_rfl hlt
  exact ⟨i, s, hs, le_antisymm hle (h.start_le hs)⟩

/-- A slice comes behind the line. -/
theorem extend (h : Tiles claim a b) {n : ℕ} (hn : 0 < n)
    (hclaim : ∀ i s, claim' i s ↔ claim i s ∨ i = k ∧ s = ⟨b, n⟩) : Tiles claim' a (b + n) where
  le := h.le.trans (Nat.le_add_right _ _)
  pos := by
    intro i s hs
    rcases (hclaim i s).mp hs with hs | ⟨-, rfl⟩
    · exact h.pos hs
    · exact hn
  start_le := by
    intro i s hs
    rcases (hclaim i s).mp hs with hs | ⟨-, rfl⟩
    · exact h.start_le hs
    · exact h.le
  stop_le := by
    intro i s hs
    rcases (hclaim i s).mp hs with hs | ⟨-, rfl⟩
    · exact (h.stop_le hs).trans (Nat.le_add_right _ _)
    · exact le_rfl
  disjoint := by
    intro i j s t pos hs ht hspos htpos
    rcases (hclaim i s).mp hs with hs | ⟨rfl, rfl⟩ <;>
      rcases (hclaim j t).mp ht with ht | ⟨rfl, rfl⟩
    · exact h.disjoint pos hs ht hspos htpos
    · exact absurd hspos.2 (not_lt.mpr ((h.stop_le hs).trans htpos.1))
    · exact absurd htpos.2 (not_lt.mpr ((h.stop_le ht).trans hspos.1))
    · exact ⟨rfl, rfl⟩
  cover := by
    intro pos hle hlt
    rcases lt_or_ge pos b with hpos | hpos
    · obtain ⟨i, s, hs, hspos⟩ := h.cover pos hle hpos
      exact ⟨i, s, (hclaim i s).mpr (.inl hs), hspos⟩
    · exact ⟨k, ⟨b, n⟩, (hclaim _ _).mpr (.inr ⟨rfl, rfl⟩), hpos, hlt⟩

/-- A slice passes from one claimant to another. -/
theorem transfer (h : Tiles claim a b) (hs : claim j s)
    (hclaim : ∀ i t, claim' i t ↔ claim i t ∧ ¬(i = j ∧ t = s) ∨ i = k ∧ t = s) :
    Tiles claim' a b := by
  have hbefore : ∀ {i t}, claim' i t → ∃ i', claim i' t := by
    intro i t ht
    rcases (hclaim i t).mp ht with ⟨ht, -⟩ | ⟨-, rfl⟩
    · exact ⟨i, ht⟩
    · exact ⟨j, hs⟩
  refine ⟨h.le, ?_, ?_, ?_, ?_, ?_⟩
  · intro i t ht
    obtain ⟨i', ht⟩ := hbefore ht
    exact h.pos ht
  · intro i t ht
    obtain ⟨i', ht⟩ := hbefore ht
    exact h.start_le ht
  · intro i t ht
    obtain ⟨i', ht⟩ := hbefore ht
    exact h.stop_le ht
  · intro i i' t t' pos ht ht' htpos htpos'
    rcases (hclaim i t).mp ht with ⟨ht, hne⟩ | ⟨rfl, rfl⟩ <;>
      rcases (hclaim i' t').mp ht' with ⟨ht', hne'⟩ | ⟨rfl, rfl⟩
    · exact h.disjoint pos ht ht' htpos htpos'
    · exact absurd (h.disjoint pos ht hs htpos htpos') hne
    · exact absurd (h.disjoint pos ht' hs htpos' htpos) hne'
    · exact ⟨rfl, rfl⟩
  · intro pos hle hlt
    obtain ⟨i, t, ht, htpos⟩ := h.cover pos hle hlt
    by_cases heq : i = j ∧ t = s
    · obtain ⟨rfl, rfl⟩ := heq
      exact ⟨k, t, (hclaim k t).mpr (.inr ⟨rfl, rfl⟩), htpos⟩
    · exact ⟨i, t, (hclaim i t).mpr (.inl ⟨ht, heq⟩), htpos⟩

/-- The first slice goes. -/
theorem advance (h : Tiles claim a b) (hs : claim j s) (hstart : s.start = a)
    (hclaim : ∀ i t, claim' i t ↔ claim i t ∧ ¬(i = j ∧ t = s)) : Tiles claim' (a + s.len) b := by
  subst hstart
  have hsub : ∀ {i t}, claim' i t → claim i t := fun ht => ((hclaim _ _).mp ht).1
  refine ⟨h.stop_le hs, fun ht => h.pos (hsub ht), ?_, fun ht => h.stop_le (hsub ht),
    fun pos ht ht' => h.disjoint pos (hsub ht) (hsub ht'), ?_⟩
  · intro i t ht
    obtain ⟨ht, hne⟩ := (hclaim i t).mp ht
    by_contra hlt
    have hpos := h.pos ht
    exact hne (h.disjoint t.start ht hs ⟨le_rfl, by omega⟩ ⟨h.start_le ht, by omega⟩)
  · intro pos hle hlt
    obtain ⟨i, t, ht, htpos⟩ := h.cover pos (by omega) hlt
    refine ⟨i, t, (hclaim i t).mpr ⟨ht, ?_⟩, htpos⟩
    rintro ⟨-, rfl⟩
    exact absurd htpos.2 (by omega)

end Tiles

/-! ## Streams -/

variable {α : Type v} {written : ℕ → Option (ι × α)} {x y : ι} {m n pos : ℕ}

/-- What the writer `x` has written at the positions before `n`, in their order. -/
def stream [DecidableEq ι] (written : ℕ → Option (ι × α)) (x : ι) (n : ℕ) : List α :=
  (List.range n).filterMap fun pos =>
    (written pos).bind fun w => if w.1 = x then some w.2 else none

section Stream

variable [DecidableEq ι]

theorem stream_succ (written : ℕ → Option (ι × α)) (x : ι) (n : ℕ) :
    stream written x (n + 1) = stream written x n ++
      ((written n).bind fun w => if w.1 = x then some w.2 else none).toList := by
  rw [stream, stream, List.range_succ, List.filterMap_append]
  rfl

/-- Positions at which others have written, or nobody, do not count. -/
theorem stream_eq_of_le (hle : m ≤ n)
    (hnone : ∀ pos, m ≤ pos → pos < n → ∀ val, written pos ≠ some (x, val)) :
    stream written x n = stream written x m := by
  induction n, hle using Nat.le_induction with
  | base => rfl
  | succ n hle ih =>
    rw [stream_succ, ih fun pos hm hn => hnone pos hm (by omega)]
    have hpos := hnone n hle (Nat.lt_succ_self n)
    cases hw : written n with
    | none => simp
    | some w =>
      have hne : w.1 ≠ x := by
        rintro rfl
        exact hpos w.2 hw
      simp [hne]

theorem stream_congr (written : ℕ → Option (ι × α)) {written' : ℕ → Option (ι × α)}
    (h : ∀ pos < n, written' pos = written pos) : stream written' x n = stream written x n := by
  refine List.filterMap_congr fun pos hpos => ?_
  rw [h pos (List.mem_range.mp hpos)]

/-- The stream up to a position is a prefix of the stream up to a later one. -/
theorem stream_mono (written : ℕ → Option (ι × α)) (x : ι) (hle : m ≤ n) :
    stream written x m <+: stream written x n := by
  have hrange : List.range m <+: List.range n := by
    have htake := List.take_prefix m (List.range n)
    rwa [List.take_range, Nat.min_eq_left hle] at htake
  exact hrange.filterMap _

/-- A writer that writes behind all that it has written extends its stream. -/
theorem stream_update (hlt : pos < n)
    (hnone : ∀ q, pos ≤ q → q < n → ∀ val, written q ≠ some (x, val)) (val : α) :
    stream (Function.update written pos (some (x, val))) x n = stream written x n ++ [val] := by
  rw [stream_eq_of_le hlt.le hnone, stream_eq_of_le (m := pos + 1) hlt, stream_succ,
    Function.update_self]
  · rw [stream_congr written fun q hq => Function.update_of_ne hq.ne _ _]
    simp
  · intro q hle hq val'
    rw [Function.update_of_ne (by omega)]
    exact hnone q (by omega) hq val'

/-- A writer that writes where nobody has written does not touch the streams of the others. -/
theorem stream_update_of_ne (hne : x ≠ y) (hfresh : written pos = none) (val : α) (n : ℕ) :
    stream (Function.update written pos (some (x, val))) y n = stream written y n := by
  refine List.filterMap_congr fun q _ => ?_
  by_cases hq : q = pos
  · subst hq
    simp [hfresh, hne]
  · rw [Function.update_of_ne hq]

end Stream

end Allocation
