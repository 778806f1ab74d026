import RustPractices.Recovery.Ext2

/-!
# The scan over the block bitmaps

Block groups are consecutive, so a block is a position: its group is the quotient of the position
by the size of a group, and its bit in the bitmap of the group the remainder. The iterator walks
over the positions, although it holds one bitmap at a time and looks at one byte after the other.

## Main definitions

* `marksFree`: a bit of a bitmap is zero
* `freeFrom`: the free positions from a position on
* `Readable`: the bitmaps of the groups that follow a group can be read

## Main results

* `nextLoop_eq`: the loop in `next` finds the first free position
* `Scanning.answer`, `Scanning.yields`: an iterator yields the free positions that follow its own,
  and stays at the end
-/

open Io

namespace Recovery

/-- Bit `i` of a bitmap is zero. -/
def marksFree (bitmap : List UInt8) (i : ℕ) : Bool := !(bitmap.getD (i / 8) 0).toNat.testBit (i % 8)

/-- The position `p` is free, in groups of `bpg` blocks with these bitmaps. -/
def isFree (bitmap : ℕ → List UInt8) (bpg p : ℕ) : Bool := marksFree (bitmap (p / bpg)) (p % bpg)

/-- The positions from `p` on and below `N` that are free. -/
def freeFrom (free : ℕ → Bool) (N p : ℕ) : List ℕ := (List.range' p (N - p)).filter free

section FreeFrom

variable {free : ℕ → Bool} {M N p q : ℕ} {ps : List ℕ}

theorem freeFrom_eq_nil (h : N ≤ p) : freeFrom free N p = [] := by
  simp [freeFrom, Nat.sub_eq_zero_of_le h]

theorem freeFrom_step (h : p < N) :
    freeFrom free N p =
      if free p then p :: freeFrom free N (p + 1) else freeFrom free N (p + 1) := by
  obtain ⟨n, hn⟩ : ∃ n, N - p = n + 1 := ⟨N - p - 1, by omega⟩
  rw [freeFrom, hn, List.range'_succ, List.filter_cons, freeFrom, show N - (p + 1) = n by omega]

/-- Positions in use can be skipped. -/
theorem freeFrom_skip (hpq : p ≤ q) (hqN : q ≤ N)
    (hused : ∀ r, p ≤ r → r < q → free r = false) : freeFrom free N p = freeFrom free N q := by
  induction q, hpq using Nat.le_induction with
  | base => rfl
  | succ q hq ih =>
    rw [ih (by omega) fun r hr hrq => hused r hr (by omega), freeFrom_step (by omega),
      if_neg (by simp [hused q hq (by omega)])]

theorem mem_freeFrom : q ∈ freeFrom free N p ↔ p ≤ q ∧ q < N ∧ free q := by
  simp only [freeFrom, List.mem_filter, List.mem_range'_1]
  constructor
  · rintro ⟨⟨hp, hN⟩, hq⟩
    exact ⟨hp, by omega, hq⟩
  · rintro ⟨hp, hN, hq⟩
    exact ⟨⟨hp, by omega⟩, hq⟩

theorem freeFrom_pairwise (free : ℕ → Bool) (N p : ℕ) : (freeFrom free N p).Pairwise (· < ·) :=
  (List.pairwise_lt_range' (s := p) (n := N - p)).filter _

/-- Below a smaller end, there are fewer free positions. -/
theorem freeFrom_filter (free : ℕ → Bool) (p : ℕ) (hMN : M ≤ N) :
    (freeFrom free N p).filter (fun r => decide (r < M)) = freeFrom free M p := by
  by_cases hp : p ≤ M
  · have hsplit : List.range' p (N - p) = List.range' p (M - p) ++ List.range' M (N - M) := by
      rw [show N - p = (M - p) + (N - M) by omega, ← List.range'_append_1,
        show p + (M - p) = M by omega]
    have hlow : (List.range' p (M - p)).filter (fun r => decide (r < M) && free r) =
        (List.range' p (M - p)).filter free := by
      apply List.filter_congr
      intro r hr
      have := List.mem_range'_1.mp hr
      simp [show r < M by omega]
    have hhigh : (List.range' M (N - M)).filter (fun r => decide (r < M) && free r) = [] := by
      apply List.filter_eq_nil_iff.mpr
      intro r hr
      have := List.mem_range'_1.mp hr
      simp [show ¬ r < M by omega]
    rw [freeFrom, List.filter_filter, hsplit, List.filter_append, hlow, hhigh, List.append_nil,
      freeFrom]
  · rw [freeFrom_eq_nil (by omega : M ≤ p)]
    refine List.filter_eq_nil_iff.mpr fun r hr => ?_
    have := (mem_freeFrom.mp hr).1
    simp
    omega

/-- The free positions after the first of them. -/
theorem freeFrom_cons (h : freeFrom free N p = q :: ps) :
    p ≤ q ∧ q < N ∧ ps = freeFrom free N (q + 1) := by
  obtain ⟨hpq, hqN, hq⟩ := mem_freeFrom.mp (h ▸ List.mem_cons_self : q ∈ freeFrom free N p)
  have hused : ∀ r, p ≤ r → r < q → free r = false := by
    intro r hr hrq
    by_contra hfree
    have hmem : r ∈ freeFrom free N p := mem_freeFrom.mpr ⟨hr, by omega, by simpa using hfree⟩
    have hsorted := freeFrom_pairwise free N p
    rw [h] at hmem hsorted
    rcases List.mem_cons.mp hmem with rfl | hmem
    · omega
    · have := (List.pairwise_cons.mp hsorted).1 r hmem
      omega
  rw [freeFrom_skip hpq hqN.le hused, freeFrom_step hqN, if_pos hq] at h
  exact ⟨hpq, hqN, (List.cons.inj h).2.symm⟩

end FreeFrom

namespace BlockIter

/-! ## A byte of a bitmap -/

/-- The bits of a byte from a bit on, with free blocks as ones. -/
theorem testBit_free (b : UInt8) {bit : ℕ} (hbit : bit < 8) (i : ℕ) :
    ((~~~ b) >>> (UInt8.ofNat bit)).toNat.testBit i =
      (decide (bit + i < 8) && !b.toNat.testBit (bit + i)) := by
  have hshift : (UInt8.ofNat bit).toNat % 8 = bit := by
    rw [UInt8.toNat_ofNat', Nat.mod_eq_of_lt (by omega : bit % 2 ^ 8 < 8)]
    exact Nat.mod_eq_of_lt (by omega)
  have hnot : UInt8.size - 1 - b.toNat = 2 ^ 8 - (b.toNat + 1) := by
    rw [Nat.sub_sub, Nat.add_comm]
    rfl
  rw [UInt8.toNat_shiftRight, hshift, UInt8.toNat_not, hnot, Nat.testBit_shiftRight,
    Nat.testBit_two_pow_sub_succ b.toNat_lt]

/-- A byte without a free block from a bit on. -/
theorem bits_eq_zero (b : UInt8) (bit : ℕ) (hbit : bit < 8)
    (h : (~~~ b) >>> (UInt8.ofNat bit) = 0) (i : ℕ) (hi : bit ≤ i) (hi' : i < 8) :
    b.toNat.testBit i = true := by
  have hfree := testBit_free b hbit (i - bit)
  rw [h, Nat.add_sub_cancel' hi] at hfree
  simpa [hi'] using hfree

/-- The number of trailing zeros is the index of the first one. -/
theorem trailingZeros_spec {b : UInt8} (h : b ≠ 0) : b.toNat.testBit (trailingZeros b) = true ∧
    ∀ i, i < trailingZeros b → b.toNat.testBit i = false := by
  have hne : b.toNat ≠ 0 := fun hzero => h (UInt8.toNat_inj.mp hzero)
  obtain ⟨k, hk⟩ := Nat.exists_testBit_of_ne_zero hne
  have hk8 : k < 8 := by
    by_contra hle
    have hlt : b.toNat < 2 ^ k := b.toNat_lt.trans_le (Nat.pow_le_pow_right (by omega) (by omega))
    rw [Nat.testBit_lt_two_pow hlt] at hk
    cases hk
  unfold trailingZeros
  cases hfind : (List.range 8).find? fun i => b.toNat.testBit i with
  | none =>
    have := List.find?_eq_none.mp hfind k (List.mem_range.mpr hk8)
    exact absurd hk this
  | some j =>
    obtain ⟨hj, -, hbefore⟩ := List.find?_range_eq_some.mp hfind
    exact ⟨hj, fun i hi => by simpa using hbefore i hi⟩

/-- The first free block of a byte from a bit on. -/
theorem trailingZeros_bits (b : UInt8) (bit : ℕ) (hbit : bit < 8)
    (h : (~~~ b) >>> (UInt8.ofNat bit) ≠ 0) :
    bit + trailingZeros ((~~~ b) >>> (UInt8.ofNat bit)) < 8 ∧
      b.toNat.testBit (bit + trailingZeros ((~~~ b) >>> (UInt8.ofNat bit))) = false ∧
      ∀ i, bit ≤ i → i < bit + trailingZeros ((~~~ b) >>> (UInt8.ofNat bit)) →
        b.toNat.testBit i = true := by
  obtain ⟨hone, hzeros⟩ := trailingZeros_spec h
  rw [testBit_free b hbit, Bool.and_eq_true, decide_eq_true_eq, Bool.not_eq_true'] at hone
  refine ⟨hone.1, hone.2, ?_⟩
  intro i hi hlt
  have hzero := hzeros (i - bit) (by omega)
  rw [testBit_free b hbit, Nat.add_sub_cancel' hi] at hzero
  simpa [hlt.trans hone.1] using hzero

/-! ## The loop -/

/-- Groups of `8 * m` blocks, `count` of them, where the bitmaps of the groups that follow
`group` can be read. -/
structure Readable (fs : Ext2FS) (m count : ℕ) (bitmap : ℕ → List UInt8) (group : ℕ) : Prop where
  pos : 0 < m
  blocksPerGroup : fs.superblock.blocksPerGroup = 8 * m
  blockGroupCount : fs.superblock.blockGroupCount = .ok count
  length : ∀ g, (bitmap g).length = m
  readBitmap : ∀ g, group < g → g < count → ∀ buf, fs.readBitmap g buf = (.ok (), bitmap g)

namespace Readable

variable {fs : Ext2FS} {m count : ℕ} {bitmap : ℕ → List UInt8} {group : ℕ}

theorem mono (h : Readable fs m count bitmap group) {group' : ℕ} (hle : group ≤ group') :
    Readable fs m count bitmap group' :=
  { h with readBitmap := fun g hg => h.readBitmap g (by omega) }

/-- A bit of a byte of a bitmap, as a position. -/
theorem isFree_byte (h : Readable fs m count bitmap group) {byte i : ℕ} (hbyte : byte < m)
    (hi : i < 8) : isFree bitmap (8 * m) (group * (8 * m) + byte * 8 + i) =
      !((bitmap group).getD byte 0).toNat.testBit i := by
  have hpos := h.pos
  have hlt : byte * 8 + i < 8 * m := by omega
  have hdiv : (group * (8 * m) + byte * 8 + i) / (8 * m) = group := by
    rw [add_assoc, mul_comm, Nat.mul_add_div (by omega), Nat.div_eq_of_lt hlt, add_zero]
  have hmod : (group * (8 * m) + byte * 8 + i) % (8 * m) = byte * 8 + i := by
    rw [add_assoc, mul_comm, Nat.mul_add_mod, Nat.mod_eq_of_lt hlt]
  rw [isFree, hdiv, hmod, marksFree, show (byte * 8 + i) / 8 = byte by omega,
    show (byte * 8 + i) % 8 = i by omega]

/-- Behind the last byte of a bitmap, the loop goes on with the next group. -/
theorem nextLoop_next (h : Readable fs m count bitmap group) (hgroup : group + 1 < count)
    {buf : List UInt8} (hbuf : buf.length = m) :
    nextLoop fs group buf m 0 = nextLoop fs (group + 1) (bitmap (group + 1)) 0 0 := by
  obtain ⟨b, hb⟩ : ∃ b, (bitmap (group + 1))[0]? = some b :=
    ⟨_, List.getElem?_eq_getElem (by rw [h.length]; exact h.pos)⟩
  have hend : advance fs group buf m 0 = .ok (.at (group + 1) (bitmap (group + 1)) 0 0) := by
    rw [advance, if_pos hbuf.le, h.blockGroupCount]
    simp only
    rw [if_neg (by omega), h.readBitmap _ (by omega) hgroup]
  have hstart : advance fs (group + 1) (bitmap (group + 1)) 0 0 =
      .ok (.at (group + 1) (bitmap (group + 1)) 0 0) := by
    rw [advance, if_neg (by rw [h.length]; have := h.pos; omega)]
  rw [nextLoop_at hend hb, nextLoop_at hstart hb]

/-- Behind the last byte of the last bitmap, the loop ends. -/
theorem nextLoop_last (h : Readable fs m count bitmap group) (hgroup : count ≤ group + 1) :
    nextLoop fs group (bitmap group) m 0 = .ok (none, bitmap group) := by
  have hend : advance fs group (bitmap group) m 0 = .ok (.stop (bitmap group)) := by
    rw [advance, if_pos (h.length group).le, h.blockGroupCount]
    simp only
    rw [if_pos hgroup]
  exact nextLoop_stop hend

/-- Within a bitmap, the loop looks at one byte. -/
theorem nextLoop_byte (h : Readable fs m count bitmap group) {byte bit : ℕ} (hbyte : byte < m) :
    nextLoop fs group (bitmap group) byte bit =
      if (~~~ (bitmap group).getD byte 0) >>> (UInt8.ofNat bit) ≠ 0 then
        .ok (some (group * (8 * m) + byte * 8 +
          (bit + trailingZeros ((~~~ (bitmap group).getD byte 0) >>> (UInt8.ofNat bit)))),
          bitmap group)
      else nextLoop fs group (bitmap group) (byte + 1) 0 := by
  have hat : advance fs group (bitmap group) byte bit = .ok (.at group (bitmap group) byte bit) := by
    rw [advance, if_neg (by rw [h.length]; omega)]
  have hget : (bitmap group)[byte]? = some ((bitmap group).getD byte 0) := by
    rw [List.getD_eq_getElem?_getD, List.getElem?_eq_getElem (by rw [h.length]; exact hbyte)]
    rfl
  rw [nextLoop_at hat hget, h.blocksPerGroup]

/-- The loop in `next` finds the first free position. -/
theorem nextLoop_eq {group : ℕ} (h : Readable fs m count bitmap group) {byte bit : ℕ}
    (hgroup : group < count) (hbyte : byte ≤ m) (hbit : bit < 8) (hend : byte = m → bit = 0) :
    ∃ group', (group ≤ group' ∧ group' < count) ∧ nextLoop fs group (bitmap group) byte bit =
      .ok ((freeFrom (isFree bitmap (8 * m)) (count * (8 * m))
        (group * (8 * m) + byte * 8 + bit)).head?, bitmap group') ∧
      ∀ p, (freeFrom (isFree bitmap (8 * m)) (count * (8 * m))
        (group * (8 * m) + byte * 8 + bit)).head? = some p → p / (8 * m) = group' := by
  have hpos := h.pos
  have hnext : (group + 1) * (8 * m) = group * (8 * m) + 8 * m := by ring
  have hcount : (group + 1) * (8 * m) ≤ count * (8 * m) := Nat.mul_le_mul_right _ hgroup
  rcases hbyte.eq_or_lt with hlast | hbyte
  · rw [hlast, hend hlast, show group * (8 * m) + m * 8 + 0 = (group + 1) * (8 * m) by omega]
    by_cases hgroup' : group + 1 < count
    · have ih := nextLoop_eq (h.mono group.le_succ) hgroup' m.zero_le (show 0 < 8 by omega) (fun _ => rfl)
      simp only [zero_mul, add_zero] at ih
      obtain ⟨group', hle, heq, hbuf⟩ := ih
      rw [h.nextLoop_next hgroup' (h.length group)]
      exact ⟨group', by omega, heq, hbuf⟩
    · rw [h.nextLoop_last (by omega), freeFrom_eq_nil (Nat.mul_le_mul_right _ (by omega))]
      exact ⟨group, ⟨le_rfl, hgroup⟩, rfl, by simp⟩
  · have hbound : group * (8 * m) + byte * 8 + 8 ≤ count * (8 * m) := by omega
    set b := (bitmap group).getD byte 0 with hb
    have hfree : ∀ i, i < 8 → isFree bitmap (8 * m) (group * (8 * m) + byte * 8 + i) =
        !b.toNat.testBit i := fun i hi => h.isFree_byte hbyte hi
    rw [h.nextLoop_byte hbyte, ← hb]
    split_ifs with hbits
    · obtain ⟨hlt, hzero, hones⟩ := trailingZeros_bits b bit hbit hbits
      set i := bit + trailingZeros ((~~~ b) >>> (UInt8.ofNat bit)) with hi
      have hfirst : freeFrom (isFree bitmap (8 * m)) (count * (8 * m))
          (group * (8 * m) + byte * 8 + bit) = (group * (8 * m) + byte * 8 + i) ::
            freeFrom (isFree bitmap (8 * m)) (count * (8 * m))
              (group * (8 * m) + byte * 8 + i + 1) := by
        rw [freeFrom_skip (q := group * (8 * m) + byte * 8 + i) (by omega) (by omega),
          freeFrom_step (by omega), if_pos (by rw [hfree i hlt, hzero]; rfl)]
        intro r hr hri
        obtain ⟨j, rfl⟩ : ∃ j, r = group * (8 * m) + byte * 8 + j :=
          ⟨r - (group * (8 * m) + byte * 8), by omega⟩
        rw [hfree j (by omega), hones j (by omega) (by omega)]
        rfl
      refine ⟨group, ⟨le_rfl, hgroup⟩, by rw [hfirst]; rfl, ?_⟩
      intro p hp
      obtain rfl : group * (8 * m) + byte * 8 + i = p := by simpa [hfirst] using hp
      rw [add_assoc, mul_comm, Nat.mul_add_div (by omega), Nat.div_eq_of_lt (by omega), add_zero]
    · have hskip : freeFrom (isFree bitmap (8 * m)) (count * (8 * m))
          (group * (8 * m) + byte * 8 + bit) = freeFrom (isFree bitmap (8 * m)) (count * (8 * m))
            (group * (8 * m) + (byte + 1) * 8 + 0) := by
        apply freeFrom_skip (by omega) (by omega)
        intro r hr hrb
        obtain ⟨j, rfl⟩ : ∃ j, r = group * (8 * m) + byte * 8 + j :=
          ⟨r - (group * (8 * m) + byte * 8), by omega⟩
        rw [hfree j (by omega), bits_eq_zero b bit hbit (not_not.mp hbits) j (by omega) (by omega)]
        rfl
      rw [hskip]
      exact nextLoop_eq h hgroup hbyte (by omega) (fun _ => rfl)
termination_by (count - group, m - byte)

/-- The group of the block that an iterator is at, and the bitmap that it holds. -/
theorem next_eq {it : BlockIter} (h : Readable it.fs m count bitmap (it.blockId / (8 * m)))
    (hgroup : it.blockId / (8 * m) < count)
    (hbitmap : it.blockBitmap = bitmap (it.blockId / (8 * m))) :
    ∃ group', (it.blockId / (8 * m) ≤ group' ∧ group' < count) ∧ it.next = .ok
      (match (freeFrom (isFree bitmap (8 * m)) (count * (8 * m)) (it.blockId + 1)).head? with
      | none => (none, { it with blockBitmap := bitmap group' })
      | some p => (if it.fs.superblock.blockCount ≤ p + it.fs.superblock.firstDataBlock then none
          else some (p + it.fs.superblock.firstDataBlock),
          { it with blockId := p, blockBitmap := bitmap group' })) ∧
      ∀ p, (freeFrom (isFree bitmap (8 * m)) (count * (8 * m)) (it.blockId + 1)).head? = some p →
        p / (8 * m) = group' := by
  have hpos := h.pos
  have hmod : it.blockId % (8 * m) < 8 * m := Nat.mod_lt _ (by omega)
  have hstart : it.blockId / (8 * m) * (8 * m) + (it.blockId % (8 * m) + 1) / 8 * 8 +
      (it.blockId % (8 * m) + 1) % 8 = it.blockId + 1 := by
    have := Nat.div_add_mod' it.blockId (8 * m)
    omega
  obtain ⟨group', hle, heq, hbuf⟩ := h.nextLoop_eq hgroup
    (show (it.blockId % (8 * m) + 1) / 8 ≤ m by omega)
    (show (it.blockId % (8 * m) + 1) % 8 < 8 by omega) (by omega)
  rw [hstart] at heq hbuf
  refine ⟨group', hle, ?_, hbuf⟩
  rw [next]
  simp only [h.blocksPerGroup, checkedRem, checkedDiv, if_neg (show ¬ 8 * m = 0 by omega), hbitmap,
    heq, bind, Except.bind, pure, Except.pure]
  cases (freeFrom (isFree bitmap (8 * m)) (count * (8 * m)) (it.blockId + 1)).head? <;> rfl

end Readable

/-! ## The answers -/

/-- **Everything behind the position of the iterator is used**, whatever bitmap it holds from its own
group on. -/
structure Exhausted (it : BlockIter) (m count : ℕ) (bitmap : ℕ → List UInt8) : Prop where
  readable : Readable it.fs m count bitmap (it.blockId / (8 * m))
  group_lt : it.blockId / (8 * m) < count
  holds : ∃ g, it.blockId / (8 * m) ≤ g ∧ g < count ∧ it.blockBitmap = bitmap g
  used : freeFrom (isFree bitmap (8 * m)) (count * (8 * m)) (it.blockId + 1) = []

/-- Through used blocks, the loop comes to the end of the bitmap. -/
theorem nextLoop_used {fs : Ext2FS} {m group : ℕ} {buf : List UInt8} (hbuf : buf.length = m)
    {byte bit : ℕ} (hbyte : byte ≤ m) (hbit : bit < 8) (hend : byte = m → bit = 0)
    (hused : ∀ i, byte * 8 + bit ≤ i → i < 8 * m → marksFree buf i = false) :
    nextLoop fs group buf byte bit = nextLoop fs group buf m 0 := by
  induction hn : m - byte generalizing byte bit with
  | zero =>
    obtain rfl : byte = m := by omega
    rw [hend rfl]
  | succ n ih =>
    obtain ⟨b, hb⟩ : ∃ b, buf[byte]? = some b := ⟨_, List.getElem?_eq_getElem (by omega)⟩
    have hat : advance fs group buf byte bit = .ok (.at group buf byte bit) := by
      rw [advance, if_neg (by omega)]
    have hbits : (~~~ b) >>> (UInt8.ofNat bit) = 0 := by
      by_contra hne
      obtain ⟨hlt, hzero, -⟩ := trailingZeros_bits b bit hbit hne
      set i := bit + trailingZeros ((~~~ b) >>> (UInt8.ofNat bit)) with hi
      have hfree := hused (byte * 8 + i) (by omega) (by omega)
      rw [marksFree, show (byte * 8 + i) / 8 = byte by omega, show (byte * 8 + i) % 8 = i by omega,
        List.getD_eq_getElem?_getD, hb, Option.getD_some, hzero] at hfree
      exact absurd hfree (by decide)
    rw [nextLoop_at hat hb, if_neg (not_not.mpr hbits)]
    exact ih (by omega) (by omega) (fun _ => rfl) (fun i hi => hused i (by omega)) (by omega)

/-- What the call number `n` of `next` answers. -/
def answer (it : BlockIter) : ℕ → Outcome (Option ℕ)
  | 0 => do
    let (id, _) ← it.next
    return id
  | n + 1 => do
    let (_, it) ← it.next
    it.answer n

/-- When everything behind its position is used, an iterator answers `None` and stays so. -/
theorem Exhausted.next {it : BlockIter} {m count : ℕ} {bitmap : ℕ → List UInt8}
    (h : it.Exhausted m count bitmap) :
    ∃ it', it.next = .ok (none, it') ∧ it'.Exhausted m count bitmap := by
  have hpos := h.readable.pos
  obtain ⟨g, hle, hlt, hheld⟩ := h.holds
  rcases hle.eq_or_lt with heq | hgroup
  · obtain ⟨group', hgroup', hnext, -⟩ := h.readable.next_eq h.group_lt (heq ▸ hheld)
    rw [h.used] at hnext
    exact ⟨_, hnext, h.readable, h.group_lt, ⟨group', hgroup'.1, hgroup'.2, rfl⟩, h.used⟩
  · -- the bitmap belongs to a group behind, which is used as a whole
    obtain ⟨group, hdiv⟩ : ∃ group, it.blockId / (8 * m) = group := ⟨_, rfl⟩
    have hreadable : Readable it.fs m count bitmap group := hdiv ▸ h.readable
    have hmod := Nat.div_add_mod' it.blockId (8 * m)
    rw [hdiv] at hgroup hmod
    have hrem : it.blockId % (8 * m) < 8 * m := Nat.mod_lt _ (by omega)
    have hbehind : it.blockId + 1 ≤ (group + 1) * (8 * m) := by
      rw [add_mul, one_mul]
      omega
    have hused : ∀ i, i < 8 * m → marksFree it.blockBitmap i = false := by
      intro i hi
      have hposition : (group + 1) * (8 * m) ≤ g * (8 * m) := Nat.mul_le_mul_right _ hgroup
      have hend : (g + 1) * (8 * m) ≤ count * (8 * m) := Nat.mul_le_mul_right _ hlt
      rw [add_mul g, one_mul] at hend
      by_contra hfree
      have hmem : g * (8 * m) + i ∈ freeFrom (isFree bitmap (8 * m)) (count * (8 * m))
          (it.blockId + 1) := by
        refine mem_freeFrom.mpr ⟨by omega, by omega, ?_⟩
        rw [isFree, mul_comm g, Nat.mul_add_div (by omega), Nat.div_eq_of_lt hi, Nat.mul_add_mod,
          Nat.mod_eq_of_lt hi, add_zero, ← hheld]
        simpa using hfree
      rw [h.used] at hmem
      exact absurd hmem List.not_mem_nil
    have hnone : freeFrom (isFree bitmap (8 * m)) (count * (8 * m)) ((group + 1) * (8 * m)) = [] := by
      refine List.eq_nil_iff_forall_not_mem.mpr fun p hp => ?_
      obtain ⟨hle', hlt', hfree⟩ := mem_freeFrom.mp hp
      have hmem : p ∈ freeFrom (isFree bitmap (8 * m)) (count * (8 * m)) (it.blockId + 1) :=
        mem_freeFrom.mpr ⟨by omega, hlt', hfree⟩
      rw [h.used] at hmem
      exact absurd hmem List.not_mem_nil
    have hlength : it.blockBitmap.length = m := by rw [hheld, h.readable.length]
    obtain ⟨group', hgroup', hloop, -⟩ := (hreadable.mono group.le_succ).nextLoop_eq
      (show group + 1 < count by omega) m.zero_le (show 0 < 8 by omega) (fun _ => rfl)
    simp only [zero_mul, add_zero, hnone, List.head?_nil] at hloop
    refine ⟨{ it with blockBitmap := bitmap group' }, ?_, h.readable, h.group_lt,
      ⟨group', hdiv.le.trans (by omega), hgroup'.2, rfl⟩, h.used⟩
    rw [BlockIter.next]
    simp only [hreadable.blocksPerGroup, checkedRem, checkedDiv,
      if_neg (show ¬ 8 * m = 0 by omega), bind, Except.bind, pure, Except.pure, hdiv]
    rw [nextLoop_used hlength (by omega) (by omega) (by omega) (fun i _ hi => hused i hi),
      hreadable.nextLoop_next (by omega) hlength, hloop]

/-- An iterator with nothing left answers `None` to every call. -/
theorem Exhausted.answer {it : BlockIter} {m count : ℕ} {bitmap : ℕ → List UInt8}
    (h : it.Exhausted m count bitmap) (n : ℕ) : it.answer n = .ok none := by
  induction n generalizing it with
  | zero =>
    obtain ⟨it', hnext, -⟩ := h.next
    rw [BlockIter.answer, hnext]
    rfl
  | succ n ih =>
    obtain ⟨it', hnext, h'⟩ := h.next
    rw [BlockIter.answer, hnext]
    exact ih h'

/-- **The iterator holds the bitmap of its own group.** -/
structure Scanning (it : BlockIter) (m count : ℕ) (bitmap : ℕ → List UInt8) : Prop where
  readable : Readable it.fs m count bitmap (it.blockId / (8 * m))
  group_lt : it.blockId / (8 * m) < count
  holds : it.blockBitmap = bitmap (it.blockId / (8 * m))
  blockCount_le : it.fs.superblock.blockCount ≤ count * (8 * m)

/-- The free positions of the volume that follow the position of an iterator. -/
def left (it : BlockIter) (m : ℕ) (bitmap : ℕ → List UInt8) : List ℕ :=
  freeFrom (isFree bitmap (8 * m))
    (it.fs.superblock.blockCount - it.fs.superblock.firstDataBlock) (it.blockId + 1)

/-- A call of `next` takes the first position that is left. When none is left, none will be. -/
theorem Scanning.next {it : BlockIter} {m count : ℕ} {bitmap : ℕ → List UInt8}
    (h : it.Scanning m count bitmap) :
    ∃ it', it.next = .ok ((it.left m bitmap).head?.map (· + it.fs.superblock.firstDataBlock), it') ∧
      (it'.Scanning m count bitmap ∧ it'.left m bitmap = (it.left m bitmap).tail ∧
        it'.fs = it.fs ∨ it'.Exhausted m count bitmap ∧ it.left m bitmap = []) := by
  have hpos := h.readable.pos
  have hcount := h.blockCount_le
  obtain ⟨group', hgroup', hnext, hfirst⟩ := h.readable.next_eq h.group_lt h.holds
  have hfilter := freeFrom_filter (isFree bitmap (8 * m)) (it.blockId + 1)
    (show it.fs.superblock.blockCount - it.fs.superblock.firstDataBlock ≤ count * (8 * m) by omega)
  cases hfree : freeFrom (isFree bitmap (8 * m)) (count * (8 * m)) (it.blockId + 1) with
  | nil =>
    rw [hfree] at hnext hfilter
    have hleft : it.left m bitmap = [] := hfilter.symm
    rw [hleft]
    exact ⟨_, hnext, .inr
      ⟨⟨h.readable, h.group_lt, ⟨group', hgroup'.1, hgroup'.2, rfl⟩, hfree⟩, rfl⟩⟩
  | cons p ps =>
    obtain ⟨hp, hpN, rfl⟩ := freeFrom_cons hfree
    rw [hfree] at hnext hfilter hfirst
    obtain rfl := hfirst p rfl
    simp only [List.head?_cons] at hnext
    have hscan : Scanning { it with blockId := p, blockBitmap := bitmap (p / (8 * m)) } m count
        bitmap := ⟨h.readable.mono hgroup'.1, hgroup'.2, rfl, hcount⟩
    split_ifs at hnext with hend
    · -- the first free position is behind the end of the volume, and so are the later ones
      have hleft : it.left m bitmap = [] := by
        refine hfilter.symm.trans (List.filter_eq_nil_iff.mpr fun r hr => ?_)
        have hpr : p ≤ r := by
          rcases List.mem_cons.mp hr with rfl | hr
          · exact le_rfl
          · exact (Nat.le_succ p).trans (mem_freeFrom.mp hr).1
        simp only [decide_eq_true_eq]
        omega
      rw [hleft]
      exact ⟨_, hnext, .inl ⟨hscan, freeFrom_eq_nil (by simp only; omega), rfl⟩⟩
    · have hleft : it.left m bitmap = p :: freeFrom (isFree bitmap (8 * m))
          (it.fs.superblock.blockCount - it.fs.superblock.firstDataBlock) (p + 1) := by
        rw [List.filter_cons, if_pos (by simp only [decide_eq_true_eq]; omega),
          freeFrom_filter _ _ (by omega)] at hfilter
        exact hfilter.symm
      rw [hleft]
      exact ⟨_, hnext, .inl ⟨hscan, rfl, rfl⟩⟩

/-- An iterator answers with the positions that are left, and then with `None`. -/
theorem Scanning.answer {it : BlockIter} {m count : ℕ} {bitmap : ℕ → List UInt8}
    (h : it.Scanning m count bitmap) (n : ℕ) :
    it.answer n = .ok ((it.left m bitmap).map (· + it.fs.superblock.firstDataBlock))[n]? := by
  induction n generalizing it with
  | zero =>
    obtain ⟨it', hnext, -⟩ := h.next
    rw [BlockIter.answer, hnext, ← List.head?_eq_getElem?, List.head?_map]
    rfl
  | succ n ih =>
    obtain ⟨it', hnext, h' | ⟨h', hleft⟩⟩ := h.next
    · obtain ⟨hscan, hleft, hfs⟩ := h'
      rw [BlockIter.answer, hnext]
      refine (ih hscan).trans ?_
      rw [hleft, hfs, List.getElem?_map, List.getElem?_map, List.getElem?_tail]
    · rw [BlockIter.answer, hnext, hleft]
      exact h'.answer n

/-- An iterator that answers with a sequence and then with `None` yields the sequence. -/
theorem yields_of_answer {ids : List ℕ} {it : BlockIter} (h : ∀ n, it.answer n = .ok ids[n]?) :
    Yields it ids := by
  induction ids generalizing it with
  | nil =>
    have hzero := h 0
    rw [answer] at hzero
    cases hnext : it.next with
    | error e => simp [hnext, bind, Except.bind] at hzero
    | ok result =>
      obtain ⟨id, it'⟩ := result
      obtain rfl : id = none := by simpa [hnext, bind, Except.bind, pure, Except.pure] using hzero
      exact .nil hnext
  | cons id ids ih =>
    have hzero := h 0
    rw [answer] at hzero
    cases hnext : it.next with
    | error e => simp [hnext, bind, Except.bind] at hzero
    | ok result =>
      obtain ⟨id', it'⟩ := result
      obtain rfl : id' = some id := by
        simpa [hnext, bind, Except.bind, pure, Except.pure] using hzero
      refine .cons hnext (ih fun n => ?_)
      have hsucc := h (n + 1)
      rw [answer, hnext] at hsucc
      exact hsucc

/-- An iterator yields the free positions that follow its own, up to the end of the volume. -/
theorem Scanning.yields {it : BlockIter} {m count : ℕ} {bitmap : ℕ → List UInt8}
    (h : it.Scanning m count bitmap) :
    Yields it ((it.left m bitmap).map (· + it.fs.superblock.firstDataBlock)) :=
  yields_of_answer h.answer

end BlockIter

end Recovery
