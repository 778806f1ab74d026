import RustPractices.Recovery.BitmapScan

/-!
# Volumes with a corrupt superblock

The reader checks the magic of a superblock and no other field. The fields flow through a
subtraction, two divisions, a shift, a multiplication and the sizes of two buffers, and a corrupt
one makes the program panic, makes it ask for a buffer that the allocator refuses, or wraps the size
of a block to zero. The buffers are the descriptors of all groups, which are asked for before the
first one is read, and the block of the iterator. What is left to panic in the iterator does not,
since the descriptors are as many as the groups and a bitmap is never empty. The largest buffer that
the allocator grants is a parameter of all results.

## Main definitions

* `Survives`: reading the volume ends with a value or an I/O error, and so does every call of `next`
* `Sound`: the fields of the superblock and of the descriptor at 2048 that the reader copes with
* `Loaded`: every group has the same bitmap, and it can be read

## Main results

* `Loaded.nextLoop`, `Loaded.next`: the iterator does not panic
* `survives_iff`: `Sound` is exact, for every allocator
-/

open Io

namespace Recovery

/-! ## Volumes -/

/-- The descriptor that is read for every group. -/
def File.descriptor (file : File) : BlockGroupDescriptor := .ofBytes (file.bytes 2048 32)

/-- The iterator after `n` calls of `next`. -/
def BlockIter.after (it : BlockIter) : ℕ → Outcome BlockIter
  | 0 => .ok it
  | n + 1 => do
    let (_, it) ← it.next
    it.after n

/-- **The reader survives the volume**, with buffers of at most `largest` bytes: no call panics or is
refused a buffer, and no size or id leaves its range. -/
structure Survives (largest : ℕ) (file : File) : Prop where
  tryFrom : Ext2FS.tryFromWithin largest file ≠ panicked
  /-- The size of a block is not shifted out. -/
  blockSize : ∀ fs, Ext2FS.tryFromWithin largest file = .ok fs →
    fs.superblock.blockSize = .ok fs.size
  blockIter : ∀ fs, Ext2FS.tryFromWithin largest file = .ok fs →
    fs.blockIterWithin largest ≠ panicked
  next : ∀ fs it, Ext2FS.tryFromWithin largest file = .ok fs → fs.blockIterWithin largest = .ok it →
    ∀ n, ∃ id, it.answer n = .ok id
  /-- Until the iterator has answered `None`, its ids are in the range of `usize`. -/
  inRange : ∀ fs it, Ext2FS.tryFromWithin largest file = .ok fs →
    fs.blockIterWithin largest = .ok it →
    ∀ n, (∀ k < n, ∃ id, it.answer k = .ok (some id)) →
      ∃ it', it.after (n + 1) = .ok it' ∧
        it'.blockId + it'.fs.superblock.firstDataBlock < 2 ^ 64

/-- **The fields that the reader copes with**, with buffers of at most `largest` bytes. Those of the
descriptor and the size of a block only matter when the device has the descriptor. -/
structure Sound (largest : ℕ) (sb : Superblock) (file : File) : Prop where
  blockCount : 0 < sb.blockCount
  blocksPerGroup : 0 < sb.blocksPerGroup
  /-- The descriptors of all groups. -/
  descriptors : 32 * (1 + (sb.blockCount - 1) / sb.blocksPerGroup) ≤ largest
  blockSize : 2048 + 32 ≤ file.len → sb.s_log_block_size.toNat ≤ 52
  /-- The buffer of the iterator. -/
  buffer : 2048 + 32 ≤ file.len → 1024 * 2 ^ sb.s_log_block_size.toNat ≤ largest
  blockBitmap : 2048 + 32 ≤ file.len →
    file.descriptor.blockBitmap * (1024 * 2 ^ sb.s_log_block_size.toNat) < 2 ^ 64

/-! ## Sizes -/

namespace Superblock

variable {sb : Superblock}

theorem blockGroupCount_of_pos (hblocks : 0 < sb.blockCount) (hbpg : 0 < sb.blocksPerGroup) :
    sb.blockGroupCount = .ok (1 + (sb.blockCount - 1) / sb.blocksPerGroup) :=
  blockGroupCount_eq_ok_iff.mpr ⟨⟨hblocks, hbpg⟩, rfl⟩

/-- Without blocks or groups of no size, the number of groups is not defined. -/
theorem blockGroupCount_eq_panicked (h : ¬ (0 < sb.blockCount ∧ 0 < sb.blocksPerGroup)) :
    sb.blockGroupCount = panicked := by
  unfold blockGroupCount checkedSub checkedDiv
  by_cases hblocks : 1 ≤ sb.blockCount
  · have hbpg : sb.blocksPerGroup = 0 := by omega
    simp [hblocks, hbpg, bind, Except.bind, panicked]
  · simp [hblocks, bind, Except.bind, panicked]

theorem bitmapSize_of_pos (hbpg : 0 < sb.blocksPerGroup) :
    sb.bitmapSize = .ok (1 + (sb.blocksPerGroup - 1) / 8) := by
  simp [bitmapSize, checkedSub, Nat.succ_le_iff, hbpg, bind, Except.bind, pure, Except.pure]

/-- A buffer for a block can be allocated up to a shift by 52. -/
theorem blockSize_lt (sb : Superblock) (hshift : sb.s_log_block_size.toNat ≤ 52) :
    1024 * 2 ^ sb.s_log_block_size.toNat < 2 ^ 63 := by
  have hpow := Nat.pow_le_pow_right two_pos hshift
  omega

/-- The size of a block fits into `usize` up to a shift by 53. -/
theorem blockSize_eq_ok_iff :
    sb.blockSize = .ok (1024 * 2 ^ sb.s_log_block_size.toNat) ↔ sb.s_log_block_size.toNat ≤ 53 := by
  have hpow : (1024 : ℕ) = 2 ^ 10 := rfl
  have hlt : 1024 * 2 ^ sb.s_log_block_size.toNat < 2 ^ 64 ↔ sb.s_log_block_size.toNat ≤ 53 := by
    rw [hpow, ← pow_add, Nat.pow_lt_pow_iff_right (by norm_num)]
    omega
  rw [← hlt, blockSize, checkedShl]
  constructor
  · intro h
    split_ifs at h
    · have hmod := Except.ok.inj h
      rw [← hmod]
      exact Nat.mod_lt _ (by norm_num)
    · simp [panicked] at h
  · intro h
    rw [if_pos (by have := hlt.mp h; omega), Nat.mod_eq_of_lt h]

end Superblock

/-! ## Loading a volume -/

section Load

variable {file : File} {sb : Superblock} {largest : ℕ}

/-- What is loaded from a device with this superblock. -/
def File.volume (file : File) (sb : Superblock) : Ext2FS where
  device := file
  superblock := sb
  blockGroupDescriptorTables :=
    List.replicate (1 + (sb.blockCount - 1) / sb.blocksPerGroup) file.descriptor

theorem tryFromWithin_panicked (hsb : Superblock.fromFile file = .ok sb) (hmagic : sb.isExt2 = true)
    (h : ¬ (0 < sb.blockCount ∧ 0 < sb.blocksPerGroup)) :
    Ext2FS.tryFromWithin largest file = panicked := by
  simp only [Ext2FS.tryFromWithin, hsb, bind, Except.bind, hmagic, if_true,
    Superblock.blockGroupCount_eq_panicked h, panicked]

/-- With too many descriptors, the buffer for them is refused before one is read. -/
theorem tryFromWithin_refused (hsb : Superblock.fromFile file = .ok sb) (hmagic : sb.isExt2 = true)
    (hblocks : 0 < sb.blockCount) (hbpg : 0 < sb.blocksPerGroup)
    (hlarge : largest < 32 * (1 + (sb.blockCount - 1) / sb.blocksPerGroup)) :
    Ext2FS.tryFromWithin largest file = panicked := by
  simp only [Ext2FS.tryFromWithin, hsb, bind, Except.bind, hmagic, if_true,
    Superblock.blockGroupCount_of_pos hblocks hbpg, withCapacity_of_lt hlarge, panicked]

/-- The descriptors of all groups fit into the address space. -/
theorem withCapacity_descriptors (hblocks : 0 < sb.blockCount) (hbpg : 0 < sb.blocksPerGroup)
    (hgranted : 32 * (1 + (sb.blockCount - 1) / sb.blocksPerGroup) ≤ largest) :
    withCapacity largest (32 * (1 + (sb.blockCount - 1) / sb.blocksPerGroup)) = .ok () := by
  have hle := Superblock.blockGroupCount_le (Superblock.blockGroupCount_of_pos hblocks hbpg)
  exact withCapacity_of_le hgranted (by omega)

/-- Reading beyond the end of the file. -/
theorem File.readExact_of_lt {offset : ℕ} {buf : List UInt8} (hoffset : offset < 2 ^ 63)
    (hpos : 0 < buf.length) (h : file.len < offset + buf.length) :
    ∃ buf', file.readExact offset buf = (err .unexpectedEof, buf') := by
  rw [readExact, if_neg (not_le.mpr hoffset)]
  dsimp only
  rw [if_neg (by omega)]
  exact ⟨_, rfl⟩

theorem BlockGroupDescriptor.fromFile_of_lt (h : file.len < 2048 + 32) :
    BlockGroupDescriptor.fromFile file = err .unexpectedEof := by
  have hlength : (List.replicate 32 (0 : UInt8)).length = 32 := List.length_replicate
  obtain ⟨buf, hread⟩ : ∃ buf, file.readExact 2048 (List.replicate 32 0) =
      (err .unexpectedEof, buf) :=
    File.readExact_of_lt (by norm_num) (by rw [hlength]; norm_num) (by rwa [hlength])
  unfold fromFile
  simp only [hread, err]

/-- A device that ends before the descriptor is refused. -/
theorem tryFromWithin_of_lt (hsb : Superblock.fromFile file = .ok sb) (hmagic : sb.isExt2 = true)
    (hblocks : 0 < sb.blockCount) (hbpg : 0 < sb.blocksPerGroup)
    (hgranted : 32 * (1 + (sb.blockCount - 1) / sb.blocksPerGroup) ≤ largest)
    (h : file.len < 2048 + 32) : Ext2FS.tryFromWithin largest file = err .unexpectedEof := by
  have hgdt := BlockGroupDescriptor.fromFile_of_lt h
  simp only [Ext2FS.tryFromWithin, hsb, bind, Except.bind, hmagic, if_true,
    Superblock.blockGroupCount_of_pos hblocks hbpg, withCapacity_descriptors hblocks hbpg hgranted]
  simp only [Nat.add_comm 1, List.replicate_succ, List.mapM_cons, hgdt, bind, Except.bind, err]

/-- A device with a descriptor is read. -/
theorem tryFromWithin_of_le (hsb : Superblock.fromFile file = .ok sb) (hmagic : sb.isExt2 = true)
    (hblocks : 0 < sb.blockCount) (hbpg : 0 < sb.blocksPerGroup)
    (hgranted : 32 * (1 + (sb.blockCount - 1) / sb.blocksPerGroup) ≤ largest)
    (h : 2048 + 32 ≤ file.len) : Ext2FS.tryFromWithin largest file = .ok (file.volume sb) := by
  have hgdt : BlockGroupDescriptor.fromFile file = .ok file.descriptor :=
    BlockGroupDescriptor.fromFile_of_le h
  simp only [Ext2FS.tryFromWithin, hsb, bind, Except.bind, hmagic, if_true,
    Superblock.blockGroupCount_of_pos hblocks hbpg, withCapacity_descriptors hblocks hbpg hgranted,
    hgdt, mapM_replicate_ok, pure, Except.pure, File.volume]

end Load

/-! ## The iterator -/

/-- **Every group has the same bitmap**, which is not empty, has less than a byte behind the last
block of its group, and can be read. -/
structure Loaded (fs : Ext2FS) (count : ℕ) (bitmap : List UInt8) : Prop where
  blockGroupCount : fs.superblock.blockGroupCount = .ok count
  blocksPerGroup_pos : 0 < fs.superblock.blocksPerGroup
  bitmap_pos : 0 < bitmap.length
  bitmap_le : 8 * bitmap.length ≤ fs.superblock.blocksPerGroup + 7
  readBitmap : ∀ group < count, ∀ buf, fs.readBitmap group buf = (.ok (), bitmap)

namespace Loaded

variable {fs : Ext2FS} {count : ℕ} {bitmap : List UInt8}

/-- Behind the last byte of the bitmap, the loop goes on with the same bitmap in the next group. -/
theorem nextLoop_next (h : Loaded fs count bitmap) {group byte bit : ℕ}
    (hgroup : group + 1 < count) (hbyte : bitmap.length ≤ byte) :
    BlockIter.nextLoop fs group bitmap byte bit =
      BlockIter.nextLoop fs (group + 1) bitmap 0 0 := by
  have hb := List.getElem?_eq_getElem h.bitmap_pos
  have hend : BlockIter.advance fs group bitmap byte bit = .ok (.at (group + 1) bitmap 0 0) := by
    rw [BlockIter.advance, if_pos hbyte, h.blockGroupCount]
    dsimp only
    rw [if_neg (by omega), h.readBitmap _ hgroup]
  have hstart : BlockIter.advance fs (group + 1) bitmap 0 0 =
      .ok (.at (group + 1) bitmap 0 0) := by
    rw [BlockIter.advance, if_neg (by have := h.bitmap_pos; omega)]
  rw [BlockIter.nextLoop_at hend hb, BlockIter.nextLoop_at hstart hb]

/-- **The loop in `next` does not panic**, and finds a position in the group that it starts with or in
a group of the volume. -/
theorem nextLoop (h : Loaded fs count bitmap) (group byte : ℕ) {bit : ℕ} (hbit : bit < 8) :
    ∃ found, BlockIter.nextLoop fs group bitmap byte bit = .ok (found, bitmap) ∧
      ∀ p, found = some p → p < max group count * fs.superblock.blocksPerGroup +
        fs.superblock.blocksPerGroup + 7 := by
  rcases lt_or_ge byte bitmap.length with hbyte | hbyte
  · have hb := List.getElem?_eq_getElem hbyte
    have hat : BlockIter.advance fs group bitmap byte bit = .ok (.at group bitmap byte bit) := by
      rw [BlockIter.advance, if_neg (by omega)]
    rw [BlockIter.nextLoop_at hat hb]
    split_ifs with hbits
    · obtain ⟨hlt, -⟩ := BlockIter.trailingZeros_bits bitmap[byte] bit hbit hbits
      refine ⟨_, rfl, fun p hp => ?_⟩
      have hle := Nat.mul_le_mul_right fs.superblock.blocksPerGroup (le_max_left group count)
      have hbitmap := h.bitmap_le
      rw [← Option.some.inj hp]
      omega
    · exact nextLoop h group (byte + 1) (by omega)
  · rcases lt_or_ge (group + 1) count with hgroup | hgroup
    · obtain ⟨found, hfound, hlt⟩ := nextLoop h (group + 1) 0 (show 0 < 8 by omega)
      refine ⟨found, by rw [h.nextLoop_next hgroup hbyte, hfound], fun p hp => ?_⟩
      have := hlt p hp
      rwa [max_eq_right hgroup.le, ← max_eq_right (show group ≤ count by omega)] at this
    · have hstop : BlockIter.advance fs group bitmap byte bit = .ok (.stop bitmap) := by
        rw [BlockIter.advance, if_pos hbyte, h.blockGroupCount]
        dsimp only
        rw [if_pos hgroup]
      exact ⟨none, BlockIter.nextLoop_stop hstop, by simp⟩
termination_by (count - group, bitmap.length - byte)

/-- The groups end less than a group behind the last block. -/
theorem count_mul_le (h : Loaded fs count bitmap) :
    count * fs.superblock.blocksPerGroup ≤
      fs.superblock.blockCount + fs.superblock.blocksPerGroup := by
  have hpos := (Superblock.blockGroupCount_eq_ok h.blockGroupCount).1
  have hcount := h.blockGroupCount
  rw [Superblock.blockGroupCount_of_pos hpos h.blocksPerGroup_pos] at hcount
  obtain rfl := Except.ok.inj hcount
  have := Nat.div_mul_le_self (fs.superblock.blockCount - 1) fs.superblock.blocksPerGroup
  rw [add_mul, one_mul]
  omega

/-- **A call of `next` does not panic**, and what it answers with lies in the volume. -/
theorem next (h : Loaded fs count bitmap) {it : BlockIter} (hfs : it.fs = fs)
    (hbitmap : it.blockBitmap = bitmap) :
    ∃ id it', it.next = .ok (id, it') ∧ it'.fs = fs ∧ it'.blockBitmap = bitmap ∧
      (∀ i, id = some i → it'.blockId < fs.superblock.blockCount) ∧
      it'.blockId < max it.blockId (2 ^ 33) + 2 ^ 32 + 7 := by
  have hbpg := h.blocksPerGroup_pos
  have hbpg_lt : fs.superblock.blocksPerGroup < 2 ^ 32 :=
    fs.superblock.s_blocks_per_group.toNat_lt
  have hcount_lt : fs.superblock.blockCount < 2 ^ 32 := fs.superblock.s_blocks_count.toNat_lt
  obtain ⟨fs, blockId, bitmap⟩ := it
  obtain rfl : fs = _ := hfs
  obtain rfl : bitmap = _ := hbitmap
  obtain ⟨found, hloop, hfound⟩ := h.nextLoop (blockId / fs.superblock.blocksPerGroup)
    ((blockId % fs.superblock.blocksPerGroup + 1) / 8)
    (Nat.mod_lt (blockId % fs.superblock.blocksPerGroup + 1) (show 0 < 8 by norm_num))
  rw [BlockIter.next]
  simp only [checkedRem, checkedDiv, if_neg hbpg.ne', hloop, bind, Except.bind, pure, Except.pure]
  cases found with
  | none => exact ⟨none, _, rfl, rfl, rfl, by simp, by dsimp only; omega⟩
  | some p =>
    refine ⟨_, _, rfl, rfl, rfl, ?_, ?_⟩
    · intro i hi
      split_ifs at hi with hle
      dsimp only
      omega
    · have hlt := hfound p rfl
      have hgroup : max (blockId / fs.superblock.blocksPerGroup) count *
          fs.superblock.blocksPerGroup ≤ max blockId (2 ^ 33) := by
        rw [max_mul_of_nonneg _ _ (Nat.zero_le _)]
        refine max_le_max (Nat.div_mul_le_self _ _) ?_
        have := h.count_mul_le
        omega
      dsimp only
      omega

/-- Every call of `next` answers. -/
theorem answer (h : Loaded fs count bitmap) (n : ℕ) {it : BlockIter} (hfs : it.fs = fs)
    (hbitmap : it.blockBitmap = bitmap) : ∃ id, it.answer n = .ok id := by
  induction n generalizing it with
  | zero =>
    obtain ⟨id, it', hnext, -⟩ := h.next hfs hbitmap
    exact ⟨id, by rw [BlockIter.answer, hnext]; rfl⟩
  | succ n ih =>
    obtain ⟨id, it', hnext, hfs', hbitmap', -⟩ := h.next hfs hbitmap
    obtain ⟨id', hid'⟩ := ih hfs' hbitmap'
    exact ⟨id', by rw [BlockIter.answer, hnext]; exact hid'⟩

/-- Until the iterator has answered `None`, its ids are in range. -/
theorem after (h : Loaded fs count bitmap) (n : ℕ) {it : BlockIter} (hfs : it.fs = fs)
    (hbitmap : it.blockBitmap = bitmap) (hid : it.blockId < 2 ^ 32)
    (hsome : ∀ k < n, ∃ id, it.answer k = .ok (some id)) :
    ∃ it', it.after (n + 1) = .ok it' ∧
      it'.blockId + it'.fs.superblock.firstDataBlock < 2 ^ 64 := by
  obtain ⟨id, it', hnext, hfs', hbitmap', hlt, hle⟩ := h.next hfs hbitmap
  have hafter : ∀ m, it.after (m + 1) = it'.after m := by
    intro m
    rw [BlockIter.after, hnext]
    rfl
  induction n generalizing it it' id with
  | zero =>
    have hfirst : fs.superblock.firstDataBlock < 2 ^ 32 :=
      fs.superblock.s_first_data_block.toNat_lt
    refine ⟨it', hafter 0, ?_⟩
    rw [hfs']
    omega
  | succ n ih =>
    obtain ⟨i, hi⟩ := hsome 0 (Nat.succ_pos n)
    rw [BlockIter.answer, hnext] at hi
    have hcount : fs.superblock.blockCount < 2 ^ 32 := fs.superblock.s_blocks_count.toNat_lt
    have hid' := hlt i (Except.ok.inj hi)
    obtain ⟨id'', it'', hnext', hfs'', hbitmap'', hlt', hle'⟩ := h.next hfs' hbitmap'
    have hrest : ∀ k < n, ∃ id, it'.answer k = .ok (some id) := by
      intro k hk
      obtain ⟨i', hi'⟩ := hsome (k + 1) (Nat.succ_lt_succ hk)
      rw [BlockIter.answer, hnext] at hi'
      exact ⟨i', hi'⟩
    rw [hafter]
    refine ih hfs' hbitmap' (by omega) hrest id'' it'' hnext' hfs'' hbitmap'' hlt' hle' ?_
    intro m
    rw [BlockIter.after, hnext']
    rfl

end Loaded

section Volume

variable {file : File} {sb : Superblock}

/-- All groups have the same descriptor. -/
theorem readBitmap_volume (hbpg : 0 < sb.blocksPerGroup) {group : ℕ}
    (hgroup : group < 1 + (sb.blockCount - 1) / sb.blocksPerGroup) (buf : List UInt8) :
    (file.volume sb).readBitmap group buf =
      match (file.volume sb).readBlock file.descriptor.blockBitmap buf with
      | (.error e, buf) => (.error e, buf)
      | (.ok (), buf) => (.ok (), buf.take (1 + (sb.blocksPerGroup - 1) / 8)) := by
  have hsize : (file.volume sb).superblock.bitmapSize = .ok (1 + (sb.blocksPerGroup - 1) / 8) :=
    Superblock.bitmapSize_of_pos hbpg
  have hgdt : (file.volume sb).blockGroupDescriptorTables[group]? = some file.descriptor := by
    rw [File.volume, List.getElem?_replicate, if_pos hgroup]
  rcases hblock : (file.volume sb).readBlock file.descriptor.blockBitmap buf with ⟨e | _, bytes⟩
  · simp only [Ext2FS.readBitmap, hsize, hgdt, hblock]
  · simp only [Ext2FS.readBitmap, hsize, hgdt, hblock]

/-- The iterator starts with the bitmap of the first group. -/
theorem blockIterWithin_volume (hbpg : 0 < sb.blocksPerGroup) {size : ℕ}
    (hsize : sb.blockSize = .ok size) (largest : ℕ) : (file.volume sb).blockIterWithin largest =
      if size ≤ min largest isizeMax then
        match (file.volume sb).readBlock file.descriptor.blockBitmap [] with
        | (.error e, _) => .error e
        | (.ok (), buf) => .ok {
            fs := file.volume sb
            blockId := 0
            blockBitmap := buf.take (1 + (sb.blocksPerGroup - 1) / 8) }
      else panicked := by
  have hbitmap : (file.volume sb).superblock.bitmapSize = .ok (1 + (sb.blocksPerGroup - 1) / 8) :=
    Superblock.bitmapSize_of_pos hbpg
  have hblock : (file.volume sb).superblock.blockSize = .ok size := hsize
  rw [Ext2FS.blockIterWithin, hbitmap, hblock, readBitmap_volume hbpg (Nat.add_pos_left one_pos _)]
  simp only [bind, Except.bind, pure, Except.pure, withCapacity]
  split_ifs with hgranted
  · rcases (file.volume sb).readBlock file.descriptor.blockBitmap [] with ⟨_ | _, buf⟩
    · rfl
    · simp only [List.take_take, min_self]
  · rfl

/-- A block is read, or the device does not have it, unless its offset overflows. -/
theorem readBlock_ne_panicked {fs : Ext2FS} {size id : ℕ} (hsize : fs.superblock.blockSize = .ok size)
    (hlarge : size < 2 ^ 63) (buf : List UInt8) :
    (fs.readBlock id buf).1 ≠ panicked ↔ id * size < 2 ^ 64 := by
  rw [Ext2FS.readBlock, hsize]
  simp only [checkedMul]
  constructor
  · intro h
    by_contra hmul
    rw [if_neg hmul] at h
    exact h rfl
  · intro hmul
    rw [if_pos hmul]
    simp only [if_neg (not_le.mpr hlarge), File.readExact]
    split_ifs <;> simp [err, panicked]

/-- The iterator starts with a bitmap that every group has. -/
theorem loaded_of_blockIter (hblocks : 0 < sb.blockCount) (hbpg : 0 < sb.blocksPerGroup)
    (hshift : sb.s_log_block_size.toNat ≤ 52) {largest : ℕ} {it : BlockIter}
    (h : (file.volume sb).blockIterWithin largest = .ok it) :
    Loaded (file.volume sb) (1 + (sb.blockCount - 1) / sb.blocksPerGroup) it.blockBitmap ∧
      it.fs = file.volume sb ∧ it.blockId = 0 := by
  have hsize : (file.volume sb).superblock.blockSize =
      .ok (1024 * 2 ^ sb.s_log_block_size.toNat) :=
    Superblock.blockSize_eq_ok_iff.mpr (hshift.trans (by norm_num))
  have hpos : 0 < 1024 * 2 ^ sb.s_log_block_size.toNat :=
    Nat.mul_pos (by norm_num) (Nat.two_pow_pos _)
  rw [blockIterWithin_volume hbpg hsize] at h
  split_ifs at h
  swap
  · simp [panicked] at h
  split at h
  · simp at h
  · next buf hread =>
    obtain rfl := Except.ok.inj h
    have hlength : buf.length = 1024 * 2 ^ sb.s_log_block_size.toNat := by
      rw [((Ext2FS.readBlock_eq_ok hsize hpos).mp hread).2, File.length_bytes]
    have hcongr := (file.volume sb).readBlock_congr file.descriptor.blockBitmap []
    refine ⟨?_, rfl, rfl⟩
    refine {
      blockGroupCount := Superblock.blockGroupCount_of_pos hblocks hbpg
      blocksPerGroup_pos := hbpg
      bitmap_pos := ?_
      bitmap_le := ?_
      readBitmap := fun group hgroup buf' => ?_ }
    · rw [List.length_take, hlength]
      omega
    · have hle := List.length_take_le (1 + (sb.blocksPerGroup - 1) / 8) buf
      show 8 * (buf.take (1 + (sb.blocksPerGroup - 1) / 8)).length ≤ sb.blocksPerGroup + 7
      omega
    · rw [readBitmap_volume hbpg hgroup, ← (hcongr buf').2 (by rw [hread]), hread]

end Volume

/-! ## The condition -/

section Condition

variable {file : File} {sb : Superblock} {largest : ℕ}

/-- What the reader copes with before it has an iterator. -/
theorem Survives.sound (h : Survives largest file) (hsb : Superblock.fromFile file = .ok sb)
    (hmagic : sb.isExt2 = true) : Sound largest sb file := by
  have hpos : 0 < sb.blockCount ∧ 0 < sb.blocksPerGroup := by
    by_contra hnot
    exact h.tryFrom (tryFromWithin_panicked hsb hmagic hnot)
  obtain ⟨hblocks, hbpg⟩ := hpos
  have hgranted : 32 * (1 + (sb.blockCount - 1) / sb.blocksPerGroup) ≤ largest := by
    by_contra hlarge
    exact h.tryFrom (tryFromWithin_refused hsb hmagic hblocks hbpg (not_le.mp hlarge))
  have hfields : 2048 + 32 ≤ file.len → sb.s_log_block_size.toNat ≤ 52 ∧
      1024 * 2 ^ sb.s_log_block_size.toNat ≤ largest ∧
      file.descriptor.blockBitmap * (1024 * 2 ^ sb.s_log_block_size.toNat) < 2 ^ 64 := by
    intro hdescriptor
    have htry := tryFromWithin_of_le hsb hmagic hblocks hbpg hgranted hdescriptor
    have hsize : sb.blockSize = .ok (1024 * 2 ^ sb.s_log_block_size.toNat) := h.blockSize _ htry
    have hshift := Superblock.blockSize_eq_ok_iff.mp hsize
    have hiter := h.blockIter _ htry
    rw [blockIterWithin_volume hbpg hsize] at hiter
    have hbuffer : 1024 * 2 ^ sb.s_log_block_size.toNat ≤ min largest isizeMax := by
      by_contra hrefused
      rw [if_neg hrefused] at hiter
      exact hiter rfl
    rw [if_pos hbuffer] at hiter
    obtain ⟨hbuffer, hmax⟩ := le_min_iff.mp hbuffer
    have hlarge : 1024 * 2 ^ sb.s_log_block_size.toNat < 2 ^ 63 := by
      unfold isizeMax at hmax
      omega
    have hne : sb.s_log_block_size.toNat ≠ 53 := by
      intro heq
      rw [heq] at hlarge
      norm_num at hlarge
    have hread : ((file.volume sb).readBlock file.descriptor.blockBitmap []).1 ≠ panicked := by
      intro hpanic
      obtain ⟨buf, hbuf⟩ : ∃ buf, (file.volume sb).readBlock file.descriptor.blockBitmap [] =
          (.error .panic, buf) := ⟨_, Prod.ext hpanic rfl⟩
      rw [hbuf] at hiter
      exact hiter rfl
    exact ⟨by omega, hbuffer, (readBlock_ne_panicked hsize hlarge []).mp hread⟩
  exact ⟨hblocks, hbpg, hgranted, fun hdescriptor => (hfields hdescriptor).1,
    fun hdescriptor => (hfields hdescriptor).2.1, fun hdescriptor => (hfields hdescriptor).2.2⟩

/-- A device without a descriptor is refused. -/
theorem Sound.survives_of_lt (h : Sound largest sb file) (hsb : Superblock.fromFile file = .ok sb)
    (hmagic : sb.isExt2 = true) (hdescriptor : file.len < 2048 + 32) : Survives largest file := by
  have htry := tryFromWithin_of_lt hsb hmagic h.blockCount h.blocksPerGroup h.descriptors hdescriptor
  have hnot : ∀ fs, Ext2FS.tryFromWithin largest file ≠ .ok fs := by
    intro fs hfs
    rw [htry] at hfs
    simp [err] at hfs
  exact {
    tryFrom := by rw [htry]; simp [err, panicked]
    blockSize := fun fs hfs => absurd hfs (hnot fs)
    blockIter := fun fs hfs => absurd hfs (hnot fs)
    next := fun fs it hfs => absurd hfs (hnot fs)
    inRange := fun fs it hfs => absurd hfs (hnot fs) }

/-- A device with a descriptor is read, and its iterator does not panic. -/
theorem Sound.survives_of_le (h : Sound largest sb file) (hsb : Superblock.fromFile file = .ok sb)
    (hmagic : sb.isExt2 = true) (hdescriptor : 2048 + 32 ≤ file.len) : Survives largest file := by
  have htry := tryFromWithin_of_le hsb hmagic h.blockCount h.blocksPerGroup h.descriptors hdescriptor
  have hshift := h.blockSize hdescriptor
  have hsize : sb.blockSize = .ok (1024 * 2 ^ sb.s_log_block_size.toNat) :=
    Superblock.blockSize_eq_ok_iff.mpr (hshift.trans (by norm_num))
  have hlarge := sb.blockSize_lt hshift
  have hbuffer : 1024 * 2 ^ sb.s_log_block_size.toNat ≤ min largest isizeMax :=
    le_min (h.buffer hdescriptor) (by unfold isizeMax; omega)
  have hvolume : ∀ fs, Ext2FS.tryFromWithin largest file = .ok fs → fs = file.volume sb := by
    intro fs hfs
    exact (Except.ok.inj (htry.symm.trans hfs)).symm
  constructor
  case tryFrom =>
    rw [htry]
    simp [panicked]
  case blockSize =>
    intro fs hfs
    rw [hvolume fs hfs]
    exact hsize
  case blockIter =>
    intro fs hfs
    have hread : ((file.volume sb).readBlock file.descriptor.blockBitmap []).1 ≠ panicked :=
      (readBlock_ne_panicked hsize hlarge []).mpr (h.blockBitmap hdescriptor)
    rw [hvolume fs hfs, blockIterWithin_volume h.blocksPerGroup hsize, if_pos hbuffer]
    split
    · next e buf hbuf =>
      rw [hbuf] at hread
      intro herror
      obtain rfl : e = .panic := Except.error.inj herror
      exact hread rfl
    · simp [panicked]
  case next =>
    intro fs it hfs hit n
    rw [hvolume fs hfs] at hit
    obtain ⟨hloaded, hitfs, -⟩ := loaded_of_blockIter h.blockCount h.blocksPerGroup hshift hit
    exact hloaded.answer n hitfs rfl
  case inRange =>
    intro fs it hfs hit n hsome
    rw [hvolume fs hfs] at hit
    obtain ⟨hloaded, hitfs, hid⟩ := loaded_of_blockIter h.blockCount h.blocksPerGroup hshift hit
    exact hloaded.after n hitfs rfl (by rw [hid]; norm_num) hsome

/-- **A corrupt superblock is survived** exactly when its fields are sound: there are blocks and the
groups have a size, the allocator grants the buffer for the descriptors and the one for a block,
which has at most `2 ^ 62` bytes, and the offset of the bitmap fits into `usize`. -/
theorem survives_iff (hsb : Superblock.fromFile file = .ok sb) (hmagic : sb.isExt2 = true) :
    Survives largest file ↔ Sound largest sb file := by
  refine ⟨fun h => h.sound hsb hmagic, fun h => ?_⟩
  rcases lt_or_ge file.len (2048 + 32) with hdescriptor | hdescriptor
  · exact h.survives_of_lt hsb hmagic hdescriptor
  · exact h.survives_of_le hsb hmagic hdescriptor

end Condition

/-- A device of eight blocks of 1024 bytes with these fields of the superblock, all of one byte, and
zeros behind it. -/
def plainDevice (blocks blocksPerGroup logBlockSize : UInt8) : File where
  len := 8192
  byteAt i := ([(1028, blocks), (1048, logBlockSize), (1056, blocksPerGroup), (1080, 0x53),
    (1081, 0xEF)].lookup i).getD 0
  len_lt := eightBlocks_lt

theorem fromFile_plainDevice {blocks blocksPerGroup logBlockSize : UInt8} {sb : Superblock}
    (h : Superblock.ofBytes ((plainDevice blocks blocksPerGroup logBlockSize).bytes 1024 84) = sb) :
    Superblock.fromFile (plainDevice blocks blocksPerGroup logBlockSize) = .ok sb := by
  have hlen : (plainDevice blocks blocksPerGroup logBlockSize).len = 8192 := rfl
  rw [Superblock.fromFile_of_le (by rw [hlen]; norm_num), h]

/-- One group of eight blocks of 1024 bytes, with buffers of at most a mebibyte. -/
theorem survives_iff_plain : Survives (2 ^ 20) (plainDevice 8 8 0) := by
  have hsb : Superblock.fromFile (plainDevice 8 8 0) = .ok ⟨8, 0, 0, 8, ext2SuperMagic⟩ :=
    fromFile_plainDevice (by decide +kernel)
  refine (survives_iff hsb rfl).mpr
    ⟨by decide, by decide, by decide, fun _ => by decide, fun _ => by decide, fun _ => ?_⟩
  decide +kernel

/-- **A superblock of no blocks crashes the reader**, whatever the allocator grants. -/
theorem not_survives_empty : ∃ sb, Superblock.fromFile (plainDevice 0 8 0) = .ok sb ∧
    sb.isExt2 = true ∧ Ext2FS.tryFrom (plainDevice 0 8 0) = panicked ∧
    ¬ ∃ largest, Survives largest (plainDevice 0 8 0) := by
  have hsb : Superblock.fromFile (plainDevice 0 8 0) = .ok ⟨0, 0, 0, 8, ext2SuperMagic⟩ :=
    fromFile_plainDevice (by decide +kernel)
  refine ⟨_, hsb, rfl, tryFromWithin_panicked hsb rfl (by decide), ?_⟩
  rintro ⟨largest, h⟩
  exact h.tryFrom (tryFromWithin_panicked hsb rfl (by decide))

end Recovery
