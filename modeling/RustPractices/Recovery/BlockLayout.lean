import RustPractices.Recovery.Ext2

/-!
# The blocks of a file

The blocks of a file are allocated in the order in which they are reached: the data blocks that the
inode names, then those behind an indirect, a doubly-indirect and a triply-indirect block, each
after the block that names it. The reader tells the blocks that name others from the data blocks by
their position alone.

## Main definitions

* `blockIsIndirect`: the reader's test
* `layout`: the blocks of the largest file, in order

## Main results

* `getElem?_layout`: the kind of a block by its position
* `blockIsIndirect_iff`: the test is right except in the last row of the triply-indirect block
-/

open Io

namespace Recovery

/-- `block_is_indirect`, where a block holds the numbers of `blockDist` blocks. Where one of the
terms of the assertion overflows, their sum does. -/
def blockIsIndirect (blockDist block : ℕ) : Outcome Bool :=
  let maxBlocks := 12 + blockDist + blockDist ^ 2 + blockDist ^ 3
  let addrBlocks := 1 + 1 + blockDist + 1 + blockDist + blockDist * blockDist
  if 2 ^ 64 ≤ maxBlocks + addrBlocks then panicked
  else if ¬ block < maxBlocks + addrBlocks then panicked
  else if block < 12 then .ok false
  else if block = 12 then .ok true
  else
    let dIndirect := 13 + blockDist
    let tIndirect := dIndirect + 1 + (blockDist + 1) * blockDist
    if block = dIndirect then .ok true
    -- `block_dist - 1`
    else if block > dIndirect ∧ blockDist = 0 then panicked
    else if block > dIndirect ∧ block ≤ (dIndirect + 1) + (blockDist + 1) * (blockDist - 1) then
      .ok ((block - (dIndirect + 1)) % (blockDist + 1) == 0)
    else if block = tIndirect then .ok true
    else if block > tIndirect ∧
        block ≤ (tIndirect + 1) + (1 + blockDist * (blockDist + 1)) * (blockDist - 1) then
      let blc := block - (tIndirect + 1)
      let rSize := 1 + blockDist * (blockDist + 1)
      let row := blc / rSize
      let col := blc - row * rSize
      .ok (col == 0 || col == 1 || (col - 1) % (blockDist + 1) == 0)
    else .ok false

/-- `block_is_indirect`. -/
def Ext2FS.blockIsIndirect (fs : Ext2FS) (block : ℕ) : Outcome Bool := do
  let blockSize ← fs.superblock.blockSize
  Recovery.blockIsIndirect (blockSize / 4) block

/-! ## The layout -/

section Layout

variable (n : ℕ)

/-- An indirect block and the data blocks that it names. -/
def indirect : List Bool := true :: List.replicate n false

/-- A doubly-indirect block and what is reached from it. -/
def doublyIndirect : List Bool := true :: (List.replicate n (indirect n)).flatten

/-- A triply-indirect block and what is reached from it. -/
def triplyIndirect : List Bool := true :: (List.replicate n (doublyIndirect n)).flatten

/-- **The blocks of the largest file** in the order of their allocation, where those that name other
blocks are `true`. -/
def layout : List Bool :=
  List.replicate 12 false ++ indirect n ++ doublyIndirect n ++ triplyIndirect n

end Layout

theorem length_flatten_replicate {α : Type*} (k : ℕ) (l : List α) :
    (List.replicate k l).flatten.length = k * l.length := by
  simp

/-- The element of a repeated list. -/
theorem getElem?_flatten_replicate {α : Type*} {k i : ℕ} {l : List α} (h : i < k * l.length) :
    (List.replicate k l).flatten[i]? = l[i % l.length]? := by
  induction k generalizing i with
  | zero => simp at h
  | succ k ih =>
    rw [List.replicate_succ, List.flatten_cons]
    rcases lt_or_ge i l.length with hi | hi
    · rw [List.getElem?_append_left hi, Nat.mod_eq_of_lt hi]
    · rw [List.getElem?_append_right hi, ih (by rw [Nat.succ_mul] at h; omega),
        ← Nat.mod_eq_sub_mod hi]

section Lengths

variable {n i : ℕ}

theorem length_indirect : (indirect n).length = n + 1 := by simp [indirect]

theorem length_doublyIndirect : (doublyIndirect n).length = 1 + n * (n + 1) := by
  rw [doublyIndirect, List.length_cons, length_flatten_replicate, length_indirect, Nat.add_comm]

theorem length_triplyIndirect : (triplyIndirect n).length = 1 + n * (1 + n * (n + 1)) := by
  rw [triplyIndirect, List.length_cons, length_flatten_replicate, length_doublyIndirect,
    Nat.add_comm]

theorem length_layout : (layout n).length =
    12 + n + n ^ 2 + n ^ 3 + (1 + 1 + n + 1 + n + n * n) := by
  simp only [layout, List.length_append, List.length_replicate, length_indirect,
    length_doublyIndirect, length_triplyIndirect]
  ring

/-- In an indirect block and its data blocks, the first one names the others. -/
theorem getElem?_indirect (h : i < n + 1) : (indirect n)[i]? = some (i == 0) := by
  cases i with
  | zero => rfl
  | succ i =>
    rw [indirect, List.getElem?_cons_succ, List.getElem?_replicate, if_pos (by omega)]
    rfl

/-- Behind a doubly-indirect block, every `n + 1`-th block is indirect. -/
theorem getElem?_doublyIndirect (h : i < 1 + n * (n + 1)) :
    (doublyIndirect n)[i]? = some (i == 0 || (i - 1) % (n + 1) == 0) := by
  cases i with
  | zero => rfl
  | succ i =>
    rw [doublyIndirect, List.getElem?_cons_succ,
      getElem?_flatten_replicate (by rw [length_indirect]; omega), length_indirect,
      getElem?_indirect (Nat.mod_lt _ (Nat.succ_pos n))]
    rfl

/-- Behind a triply-indirect block come rows, each of which is a doubly-indirect block and what is
reached from it. -/
theorem getElem?_triplyIndirect (h : i < 1 + n * (1 + n * (n + 1))) :
    (triplyIndirect n)[i]? = some (i == 0 || ((i - 1) % (1 + n * (n + 1)) == 0 ||
      ((i - 1) % (1 + n * (n + 1)) - 1) % (n + 1) == 0)) := by
  cases i with
  | zero => rfl
  | succ i =>
    rw [triplyIndirect, List.getElem?_cons_succ,
      getElem?_flatten_replicate (by rw [length_doublyIndirect]; omega), length_doublyIndirect,
      getElem?_doublyIndirect (Nat.mod_lt _ (by omega))]
    rfl

end Lengths

/-- The position of the triply-indirect block. -/
def tripleStart (n : ℕ) : ℕ := 14 + n + n * (n + 1)

/-- The position at which the last row behind the triply-indirect block starts. -/
def lastRow (n : ℕ) : ℕ := tripleStart n + 1 + (1 + n * (n + 1)) * (n - 1)

/-- The kind of a block by its position. -/
def kindAt (n pos : ℕ) : Bool :=
  if pos < 12 then false
  else if pos < 13 + n then pos == 12
  else if pos < tripleStart n then pos == 13 + n || (pos - (14 + n)) % (n + 1) == 0
  else pos == tripleStart n ||
    ((pos - (tripleStart n + 1)) % (1 + n * (n + 1)) == 0 ||
      ((pos - (tripleStart n + 1)) % (1 + n * (n + 1)) - 1) % (n + 1) == 0)

/-- **The kind of a block** of the largest file. -/
theorem getElem?_layout {n pos : ℕ} (h : pos < (layout n).length) :
    (layout n)[pos]? = some (kindAt n pos) := by
  have hlength : (layout n).length = tripleStart n + (1 + n * (1 + n * (n + 1))) := by
    rw [length_layout, tripleStart]
    ring
  have hfirst : (List.replicate 12 false ++ indirect n).length = 13 + n := by
    simp only [List.length_append, List.length_replicate, length_indirect]
    omega
  have hsecond : (List.replicate 12 false ++ indirect n ++ doublyIndirect n).length =
      tripleStart n := by
    rw [List.length_append, hfirst, length_doublyIndirect, tripleStart]
    omega
  have hstart : 13 + n < tripleStart n := by
    rw [tripleStart]
    omega
  unfold kindAt layout
  split_ifs with hdata hsingle hdouble
  · rw [List.getElem?_append_left (by omega), List.getElem?_append_left (by omega),
      List.getElem?_append_left (by simpa using hdata), List.getElem?_replicate, if_pos hdata]
  · rw [List.getElem?_append_left (by omega), List.getElem?_append_left (by omega),
      List.getElem?_append_right (by simp; omega), List.length_replicate,
      getElem?_indirect (by omega)]
    congr 1
    rw [Bool.eq_iff_iff, beq_iff_eq, beq_iff_eq]
    omega
  · rw [List.getElem?_append_left (by omega), List.getElem?_append_right (by omega), hfirst,
      getElem?_doublyIndirect (by rw [tripleStart] at hdouble; omega)]
    congr 2
    · rw [Bool.eq_iff_iff, beq_iff_eq, beq_iff_eq]
      omega
    · rw [show pos - (13 + n) - 1 = pos - (14 + n) by omega]
  · rw [List.getElem?_append_right (by omega), hsecond,
      getElem?_triplyIndirect (by rw [hlength] at h; omega)]
    congr 2
    · rw [Bool.eq_iff_iff, beq_iff_eq, beq_iff_eq]
      omega

/-! ## The test -/

section Test

variable {n pos : ℕ}

/-- The columns of the rows behind the triply-indirect block. -/
theorem col_eq (n blc : ℕ) :
    blc - blc / (1 + n * (n + 1)) * (1 + n * (n + 1)) = blc % (1 + n * (n + 1)) := by
  have := Nat.div_add_mod' blc (1 + n * (n + 1))
  omega

/-- In the last row, the test finds no indirect block behind the first one. -/
theorem kindAt_lastRow (hn : 1 ≤ n) (hlt : lastRow n < pos) (hpos : pos < (layout n).length) :
    kindAt n pos = decide ((pos - lastRow n - 1) % (n + 1) = 0) := by
  have hrows : (1 + n * (n + 1)) * (n - 1) + (1 + n * (n + 1)) = n * (1 + n * (n + 1)) := by
    obtain ⟨m, rfl⟩ : ∃ m, n = m + 1 := ⟨n - 1, by omega⟩
    rw [Nat.add_sub_cancel]
    ring
  have hlength : (layout n).length = tripleStart n + (1 + n * (1 + n * (n + 1))) := by
    rw [length_layout, tripleStart]
    ring
  have hlast : lastRow n = tripleStart n + 1 + (1 + n * (n + 1)) * (n - 1) := rfl
  have hstart : tripleStart n = 14 + n + n * (n + 1) := rfl
  have hcol : (pos - (tripleStart n + 1)) % (1 + n * (n + 1)) = pos - lastRow n := by
    rw [show pos - (tripleStart n + 1) = (1 + n * (n + 1)) * (n - 1) + (pos - lastRow n) by omega,
      Nat.mul_add_mod, Nat.mod_eq_of_lt (by omega)]
  rw [kindAt, if_neg (by omega), if_neg (by omega), if_neg (by omega), hcol]
  rw [Bool.eq_iff_iff]
  simp only [Bool.or_eq_true, beq_iff_eq, decide_eq_true_eq]
  omega

/-- The test in a file that is not too long: the last row behind the triply-indirect block counts as
data from its second block on. -/
theorem blockIsIndirect_eq (hn : 1 ≤ n) (hpos : pos < (layout n).length)
    (hfits : (layout n).length < 2 ^ 64) :
    blockIsIndirect n pos = .ok (kindAt n pos && decide (pos ≤ lastRow n)) := by
  have htriple : 13 + n + 1 + (n + 1) * n = tripleStart n := by
    rw [tripleStart]
    ring
  have hrows : (n + 1) * (n - 1) + (n + 1) = n * (n + 1) := by
    obtain ⟨m, rfl⟩ : ∃ m, n = m + 1 := ⟨n - 1, by omega⟩
    rw [Nat.add_sub_cancel]
    ring
  have hstart : tripleStart n = 14 + n + n * (n + 1) := rfl
  have hlast : tripleStart n < lastRow n := by
    rw [lastRow]
    omega
  unfold blockIsIndirect
  dsimp only
  rw [← length_layout, if_neg (not_le.mpr hfits), if_neg (not_not.mpr hpos), htriple, ← lastRow]
  rcases lt_trichotomy pos 12 with hdata | rfl | hdata
  · rw [if_pos hdata, kindAt, if_pos hdata]
    rfl
  · rw [if_neg (by omega), if_pos rfl, kindAt, if_neg (by omega), if_pos (by omega),
      decide_eq_true (by omega)]
    rfl
  rw [if_neg (by omega), if_neg (by omega)]
  rcases lt_trichotomy pos (13 + n) with hsingle | rfl | hsingle
  · rw [if_neg (by omega), if_neg (by omega), if_neg (by omega), if_neg (by omega),
      if_neg (by omega), kindAt, if_neg (by omega), if_pos hsingle, beq_eq_false_iff_ne.mpr (by omega)]
    rfl
  · rw [if_pos rfl, kindAt, if_neg (by omega), if_neg (by omega), if_pos (by omega), beq_self_eq_true,
      decide_eq_true (by omega)]
    rfl
  rw [if_neg (by omega), if_neg (by omega)]
  rcases lt_trichotomy pos (tripleStart n) with hdouble | rfl | htriply
  · have hkind : kindAt n pos = ((pos - (14 + n)) % (n + 1) == 0) := by
      rw [kindAt, if_neg (by omega), if_neg (by omega), if_pos hdouble,
        beq_eq_false_iff_ne.mpr (show pos ≠ 13 + n by omega), Bool.false_or]
    rw [hkind, decide_eq_true (show pos ≤ lastRow n by omega), Bool.and_true]
    by_cases hbound : pos ≤ 13 + n + 1 + (n + 1) * (n - 1)
    · rw [if_pos ⟨hsingle, hbound⟩, show 13 + n + 1 = 14 + n by omega]
    · rw [if_neg (by omega), if_neg (by omega), if_neg (by omega),
        show pos - (14 + n) = (n + 1) * (n - 1) + (pos - (13 + n + 1 + (n + 1) * (n - 1))) by omega,
        Nat.mul_add_mod, Nat.mod_eq_of_lt (by omega), beq_eq_false_iff_ne.mpr (by omega)]
  · rw [if_neg (by omega), if_pos rfl, kindAt, if_neg (by omega), if_neg (by omega),
      if_neg (lt_irrefl _), beq_self_eq_true, decide_eq_true (by omega)]
    rfl
  rw [if_neg (by omega), if_neg (by omega)]
  by_cases hbound : pos ≤ lastRow n
  · rw [if_pos ⟨htriply, hbound⟩, decide_eq_true hbound, Bool.and_true, col_eq, kindAt,
      if_neg (by omega), if_neg (by omega), if_neg (by omega),
      beq_eq_false_iff_ne.mpr (show pos ≠ tripleStart n by omega), Bool.false_or]
    generalize (pos - (tripleStart n + 1)) % (1 + n * (n + 1)) = col
    rcases Nat.lt_or_ge 1 col with hcol | hcol
    · rw [beq_eq_false_iff_ne.mpr (show col ≠ 1 by omega), Bool.or_false]
    · interval_cases col <;> simp
  · rw [if_neg (by omega), decide_eq_false hbound, Bool.and_false]

/-- **The test agrees with the layout** of every file that is short enough for its assertion, except
at the indirect blocks behind the first block of the last row. -/
theorem blockIsIndirect_iff {b : Bool} (hn : 1 ≤ n) (hpos : (layout n)[pos]? = some b) :
    blockIsIndirect n pos = .ok b ↔ (layout n).length < 2 ^ 64 ∧
      (pos ≤ lastRow n ∨ (pos - lastRow n - 1) % (n + 1) ≠ 0) := by
  obtain ⟨hlt, -⟩ := List.getElem?_eq_some_iff.mp hpos
  have hkind : kindAt n pos = b := by
    rw [getElem?_layout hlt] at hpos
    exact Option.some.inj hpos
  by_cases hfits : (layout n).length < 2 ^ 64
  · rw [blockIsIndirect_eq hn hlt hfits, hkind, and_iff_right hfits]
    by_cases hbound : pos ≤ lastRow n
    · simp [hbound]
    · rw [kindAt_lastRow hn (not_le.mp hbound) hlt] at hkind
      subst hkind
      simp [hbound]
  · -- the assertion itself overflows
    have hpanic : blockIsIndirect n pos = panicked := by
      unfold blockIsIndirect
      dsimp only
      rw [← length_layout, if_pos (not_lt.mp hfits)]
    rw [hpanic]
    exact iff_of_false (by simp [panicked]) fun h => hfits h.1

/-- In blocks of 1024 bytes, the last row starts with a doubly-indirect block. -/
theorem blockIsIndirect_iff_lastRow :
    blockIsIndirect 256 16843278 = .ok true ↔ (layout 256).length < 2 ^ 64 ∧
      (16843278 ≤ lastRow 256 ∨ (16843278 - lastRow 256 - 1) % (256 + 1) ≠ 0) := by
  have hlt : 16843278 < (layout 256).length := by
    rw [length_layout]
    norm_num
  have hpos : (layout 256)[16843278]? = some true := by
    rw [getElem?_layout hlt]
    rfl
  exact blockIsIndirect_iff (by decide) hpos

/-- Behind it, the first indirect block of the last row counts as a data block. -/
theorem blockIsIndirect_last_row :
    (layout 256)[16843279]? = some true ∧ blockIsIndirect 256 16843279 = .ok false := by
  have hlt : 16843279 < (layout 256).length := by
    rw [length_layout]
    norm_num
  constructor
  · rw [getElem?_layout hlt]
    rfl
  · rw [blockIsIndirect_eq (by decide) hlt (by rw [length_layout]; norm_num)]
    rfl

end Test

end Recovery
