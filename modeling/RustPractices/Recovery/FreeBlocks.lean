import RustPractices.Recovery.BlockIter

/-!
# Free blocks over the whole volume

The descriptor table of an image has one 32-byte entry for each group, and starts in the block
after the one of the superblock. The reader loads one descriptor for each group as well, but all
of them from the bytes at 2048. So the iterator over free blocks reads one bitmap again and again:
the one that the descriptor at 2048 names.

## Main definitions

* `ValidGeometry`: the geometry of a well-formed image
* `Ext2FS.freeBlocks`: the free blocks that the bitmaps on the device mark
* `Ext2FS.loadedBitmap`: the bitmap that the descriptor at 2048 names

## Main results

* `tryFrom_eq_ok`: the descriptors of an image that is accepted
* `blockIter_yields`: the iterator yields the free blocks of the loaded bitmap
* `blockIter_freeBlocks_iff`: the iterator yields the free blocks exactly when the loaded bitmap
  agrees with the bitmap of each group
-/

open Io

namespace Recovery

/-! ## What is on the device -/

/-- The `n` bytes at `offset`, where the file has them. -/
def File.bytes? (file : File) (offset n : ℕ) : Option (List UInt8) :=
  if offset + n ≤ file.len then some (file.bytes offset n) else none

namespace Ext2FS

/-- The size of a block: `1024 << s_log_block_size`. -/
def size (fs : Ext2FS) : ℕ := 1024 * 2 ^ fs.superblock.s_log_block_size.toNat

/-- The entry of a group in the descriptor table on the device. -/
def descriptorOnDisk (fs : Ext2FS) (group : ℕ) : Option BlockGroupDescriptor :=
  (fs.device.bytes? ((fs.superblock.firstDataBlock + 1) * fs.size + 32 * group) 32).map
    BlockGroupDescriptor.ofBytes

/-- The bitmap of a group on the device. -/
def bitmapOnDisk (fs : Ext2FS) (group : ℕ) : Option (List UInt8) := do
  let gdt ← fs.descriptorOnDisk group
  fs.device.bytes? (gdt.blockBitmap * fs.size) fs.size

/-- The bitmap of its own group marks a block free. -/
def isFreeOnDisk (fs : Ext2FS) (id : ℕ) : Bool :=
  let position := id - fs.superblock.firstDataBlock
  (fs.bitmapOnDisk (position / fs.superblock.blocksPerGroup)).any fun bitmap =>
    marksFree bitmap (position % fs.superblock.blocksPerGroup)

/-- The free blocks of the volume, except the first block of group 0. -/
def freeBlocks (fs : Ext2FS) : List ℕ :=
  (List.range fs.superblock.blockCount).filter fun id =>
    decide (fs.superblock.firstDataBlock < id) && fs.isFreeOnDisk id

/-- The bitmap that the descriptor at 2048 names. -/
def loadedBitmap (fs : Ext2FS) : Option (List UInt8) :=
  fs.device.bytes?
    ((BlockGroupDescriptor.ofBytes (fs.device.bytes 2048 32)).blockBitmap * fs.size) fs.size

end Ext2FS

/-- A valid geometry: the bitmap of a group fits in a block, the superblock is in the first data
block, and the device holds the volume. -/
structure ValidGeometry (fs : Ext2FS) : Prop where
  blocksPerGroup_dvd : 8 ∣ fs.superblock.blocksPerGroup
  blocksPerGroup_pos : 0 < fs.superblock.blocksPerGroup
  blocksPerGroup_le : fs.superblock.blocksPerGroup ≤ 8 * fs.size
  firstDataBlock_le : fs.superblock.firstDataBlock * fs.size ≤ 1024
  lt_nextBlock : 1024 < (fs.superblock.firstDataBlock + 1) * fs.size
  volume : fs.superblock.blockCount * fs.size ≤ fs.device.len

/-! ## Loading an image -/

theorem mapM_replicate_ok {α : Type} (n : ℕ) (a : α) :
    (List.replicate n ()).mapM (fun _ => (.ok a : Outcome α)) = .ok (List.replicate n a) := by
  induction n with
  | zero => rfl
  | succ n ih =>
    rw [List.replicate_succ, List.mapM_cons, ih]
    rfl

theorem Superblock.blockGroupCount_eq_ok {sb : Superblock} {count : ℕ}
    (h : sb.blockGroupCount = .ok count) :
    0 < sb.blockCount ∧ 0 < count ∧ sb.blockCount ≤ count * sb.blocksPerGroup := by
  obtain ⟨⟨hblocks, hbpg⟩, rfl⟩ := blockGroupCount_eq_ok_iff.mp h
  have hlt := Nat.lt_div_mul_add (a := sb.blockCount - 1) hbpg
  refine ⟨hblocks, Nat.add_pos_left one_pos _, ?_⟩
  rw [add_mul, one_mul]
  omega

theorem Superblock.fromFile_of_le {file : File} (h : 1024 + 84 ≤ file.len) :
    Superblock.fromFile file = .ok (.ofBytes (file.bytes 1024 84)) := by
  unfold Superblock.fromFile
  rw [File.readExact_of_le (by simp) (by simpa using h), List.length_replicate]

theorem BlockGroupDescriptor.fromFile_of_le {file : File} (h : 2048 + 32 ≤ file.len) :
    BlockGroupDescriptor.fromFile file = .ok (.ofBytes (file.bytes 2048 32)) := by
  unfold BlockGroupDescriptor.fromFile
  rw [File.readExact_of_le (by simp) (by simpa using h), List.length_replicate]

theorem BlockGroupDescriptor.fromFile_eq_ok {file : File} {gdt : BlockGroupDescriptor}
    (h : BlockGroupDescriptor.fromFile file = .ok gdt) : gdt = .ofBytes (file.bytes 2048 32) := by
  unfold BlockGroupDescriptor.fromFile at h
  split at h
  next buf hread =>
    obtain ⟨-, rfl⟩ := File.readExact_eq_ok (by simp) hread
    simpa using h.symm
  next => simp at h

/-- An image that is accepted: one descriptor is loaded for each group, from the bytes at 2048. -/
theorem tryFrom_eq_ok {file : File} {fs : Ext2FS} (h : Ext2FS.tryFrom file = .ok fs) :
    fs.device = file ∧ 0 < fs.superblock.blockCount ∧
      ∃ count, fs.superblock.blockGroupCount = .ok count ∧ 0 < count ∧
        fs.superblock.blockCount ≤ count * fs.superblock.blocksPerGroup ∧
        fs.blockGroupDescriptorTables =
          List.replicate count (.ofBytes (file.bytes 2048 32)) := by
  rw [Ext2FS.tryFrom_eq] at h
  cases hsb : Superblock.fromFile file with
  | error e => simp [hsb, bind, Except.bind] at h
  | ok sb =>
  cases hext : sb.isExt2 with
  | false => simp [hsb, hext, bind, Except.bind, err] at h
  | true =>
  cases hcount : sb.blockGroupCount with
  | error e => simp [hsb, hext, hcount, bind, Except.bind] at h
  | ok count =>
  obtain ⟨hblocks, hpos, hcover⟩ := Superblock.blockGroupCount_eq_ok hcount
  obtain ⟨n, rfl⟩ : ∃ n, count = n + 1 := ⟨count - 1, by omega⟩
  cases hgdt : BlockGroupDescriptor.fromFile file with
  | error e => simp [hsb, hext, hcount, hgdt, List.replicate_succ, bind, Except.bind] at h
  | ok gdt =>
    simp only [hsb, hext, hcount, hgdt, bind, Except.bind, if_true, mapM_replicate_ok, pure,
      Except.pure, Except.ok.injEq] at h
    subst h
    rw [BlockGroupDescriptor.fromFile_eq_ok hgdt]
    exact ⟨rfl, hblocks, n + 1, hcount, hpos, hcover, rfl⟩

/-! ## Reading a bitmap -/

theorem File.bytes?_eq_some {file : File} {offset n : ℕ} {buf : List UInt8} :
    file.bytes? offset n = some buf ↔ offset + n ≤ file.len ∧ file.bytes offset n = buf := by
  simp [File.bytes?]

namespace ValidGeometry

variable {fs : Ext2FS}

theorem size_pos (fs : Ext2FS) : 0 < fs.size := Nat.mul_pos (by omega) (Nat.two_pow_pos _)

theorem size_le (h : ValidGeometry fs) (hblocks : 0 < fs.superblock.blockCount) :
    fs.size ≤ fs.device.len := (Nat.le_mul_of_pos_left _ hblocks).trans h.volume

theorem blockSize_eq (h : ValidGeometry fs) (hblocks : 0 < fs.superblock.blockCount) :
    fs.superblock.blockSize = .ok fs.size := by
  have hsize : fs.size < 2 ^ 63 := (h.size_le hblocks).trans_lt fs.device.len_lt
  have hshift : fs.superblock.s_log_block_size.toNat < 64 := by
    by_contra hge
    have := Nat.pow_le_pow_right two_pos (not_lt.mp hge)
    unfold Ext2FS.size at hsize
    omega
  rw [Superblock.blockSize, checkedShl, if_pos hshift]
  exact congrArg _ (Nat.mod_eq_of_lt (hsize.trans (by norm_num)))

/-- A block is read where the device has it, and only there. -/
theorem readBlock_eq_ok (h : ValidGeometry fs) (hblocks : 0 < fs.superblock.blockCount)
    {id : ℕ} {buf buf' : List UInt8} :
    fs.readBlock id buf = (.ok (), buf') ↔ fs.device.bytes? (id * fs.size) fs.size = some buf' := by
  rw [Ext2FS.readBlock_eq_ok (h.blockSize_eq hblocks) (size_pos fs), File.bytes?_eq_some, eq_comm]

theorem bitmapSize_eq {m : ℕ} (hm : fs.superblock.blocksPerGroup = 8 * m) (hpos : 0 < m) :
    fs.superblock.bitmapSize = .ok m := by
  rw [Superblock.bitmapSize, hm, checkedSub, if_pos (by omega)]
  exact congrArg Except.ok (show 1 + (8 * m - 1) / 8 = m by omega)

/-- The bitmap of a group is the front of the block that its descriptor names. -/
theorem readBitmap_eq_ok {m g : ℕ} {gdt : BlockGroupDescriptor}
    (hm : fs.superblock.blocksPerGroup = 8 * m) (hpos : 0 < m)
    (hgdt : fs.blockGroupDescriptorTables[g]? = some gdt) {buf bitmap : List UInt8} :
    fs.readBitmap g buf = (.ok (), bitmap) ↔
      ∃ buf', fs.readBlock gdt.blockBitmap buf = (.ok (), buf') ∧ buf'.take m = bitmap := by
  rw [Ext2FS.readBitmap, bitmapSize_eq hm hpos]
  simp only [hgdt]
  rcases fs.readBlock gdt.blockBitmap buf with ⟨_ | _, buf'⟩ <;> simp

end ValidGeometry

/-! ## The blocks that the iterator yields -/

/-- The free positions after the first, as block ids. -/
theorem map_freeFrom (free : ℕ → Bool) (n first : ℕ) :
    (freeFrom free (n - first) 1).map (· + first) =
      (List.range n).filter fun id => decide (first < id) && free (id - first) := by
  have hfirst : freeFrom (fun id => decide (first < id) && free (id - first)) n 0 =
      freeFrom (fun id => decide (first < id) && free (id - first)) n (min (first + 1) n) := by
    apply freeFrom_skip (Nat.zero_le _) (min_le_right _ _)
    intro r _ hr
    simp [show ¬ first < r by omega]
  rw [List.range_eq_range', ← Nat.sub_zero n, ← freeFrom, Nat.sub_zero, hfirst]
  by_cases hn : first + 1 ≤ n
  · have hrange : List.range' (first + 1) (n - (first + 1)) =
        (List.range' 1 (n - first - 1)).map (· + first) := by
      have := List.map_add_range' (a := first) 1 (n - first - 1) 1
      simp only [Nat.add_comm first] at this
      rw [this, Nat.add_comm 1 first, show n - first - 1 = n - (first + 1) by omega]
    rw [min_eq_left hn, freeFrom, freeFrom, hrange, List.filter_map]
    congr 1
    apply List.filter_congr
    intro r hr
    have := (List.mem_range'_1.mp hr).1
    simp [show 0 < r by omega]
  · rw [min_eq_right (by omega), freeFrom_eq_nil le_rfl, freeFrom_eq_nil (by omega), List.map_nil]

section Yields

variable {file : File} {fs : Ext2FS}

/-- With a bitmap that can be read, the iterator yields the blocks that this bitmap marks free,
whatever their group. -/
theorem blockIter_yields (h : Ext2FS.tryFrom file = .ok fs) (hgeo : ValidGeometry fs)
    {bitmap : List UInt8} (hbitmap : fs.loadedBitmap = some bitmap) :
    ∃ it, fs.blockIter = .ok it ∧ BlockIter.Yields it
      ((List.range fs.superblock.blockCount).filter fun id =>
        decide (fs.superblock.firstDataBlock < id) &&
          marksFree bitmap ((id - fs.superblock.firstDataBlock) % fs.superblock.blocksPerGroup)) := by
  obtain ⟨rfl, hblocks, count, hcount, hcountpos, hcover, hgdts⟩ := tryFrom_eq_ok h
  obtain ⟨m, hm⟩ := hgeo.blocksPerGroup_dvd
  have hpos : 0 < m := by
    have := hgeo.blocksPerGroup_pos
    omega
  have hmsize : m ≤ fs.size := by
    have := hgeo.blocksPerGroup_le
    omega
  have hlength : (bitmap.take m).length = m := by
    rw [← (File.bytes?_eq_some.mp hbitmap).2, List.length_take, File.length_bytes,
      min_eq_left hmsize]
  -- every group reads the same bitmap
  have hread : ∀ g, g < count → ∀ buf, fs.readBitmap g buf = (.ok (), bitmap.take m) := by
    intro g hg buf
    rw [ValidGeometry.readBitmap_eq_ok hm hpos (by rw [hgdts, List.getElem?_replicate_of_lt hg])]
    exact ⟨bitmap, (hgeo.readBlock_eq_ok hblocks).mpr hbitmap, rfl⟩
  have hiter : fs.blockIter = .ok { fs, blockId := 0, blockBitmap := bitmap.take m } := by
    have hsize := (hgeo.size_le hblocks).trans_lt fs.device.len_lt
    rw [Ext2FS.blockIter_eq, ValidGeometry.bitmapSize_eq hm hpos, hgeo.blockSize_eq hblocks]
    simp only [bind, Except.bind, if_neg (show ¬ 2 ^ 63 ≤ fs.size by omega), hread 0 hcountpos,
      List.take_take, min_self, pure, Except.pure]
  refine ⟨_, hiter, ?_⟩
  have hscan : BlockIter.Scanning { fs, blockId := 0, blockBitmap := bitmap.take m } m count
      (fun _ => bitmap.take m) :=
    ⟨⟨hpos, hm, hcount, fun _ => hlength, fun g _ hg => hread g hg⟩, by simpa using hcountpos, rfl,
      by rw [← hm]; exact hcover⟩
  have hyields := hscan.yields
  simp only [BlockIter.left, zero_add, map_freeFrom] at hyields
  convert hyields using 4 with id
  have hlt : (id - fs.superblock.firstDataBlock) % (8 * m) / 8 < m := by
    have := Nat.mod_lt (id - fs.superblock.firstDataBlock) (by omega : 0 < 8 * m)
    omega
  rw [hm, isFree, marksFree, marksFree, List.getD_eq_getElem?_getD, List.getD_eq_getElem?_getD,
    List.getElem?_take_of_lt hlt]

/-- An iterator over free blocks has read the bitmap that the descriptor at 2048 names. -/
theorem loadedBitmap_of_blockIter (h : Ext2FS.tryFrom file = .ok fs) (hgeo : ValidGeometry fs)
    {it : BlockIter} (hit : fs.blockIter = .ok it) : ∃ bitmap, fs.loadedBitmap = some bitmap := by
  obtain ⟨rfl, hblocks, count, -, hcountpos, -, hgdts⟩ := tryFrom_eq_ok h
  obtain ⟨m, hm⟩ := hgeo.blocksPerGroup_dvd
  have hpos : 0 < m := by
    have := hgeo.blocksPerGroup_pos
    omega
  rw [Ext2FS.blockIter_eq, ValidGeometry.bitmapSize_eq hm hpos, hgeo.blockSize_eq hblocks] at hit
  cases hread : fs.readBitmap 0 [] with
  | mk result buf =>
  cases result with
  | error e =>
    simp only [bind, Except.bind, hread] at hit
    split_ifs at hit
    cases hit
  | ok =>
    obtain ⟨bitmap, hblock, -⟩ := (ValidGeometry.readBitmap_eq_ok hm hpos
      (by rw [hgdts, List.getElem?_replicate_of_lt hcountpos])).mp hread
    exact ⟨bitmap, (hgeo.readBlock_eq_ok hblocks).mp hblock⟩

/-- Where the loaded bitmap agrees with the bitmap of each group, the iterator yields the free
blocks. -/
theorem blockIter_freeBlocks (h : Ext2FS.tryFrom file = .ok fs) (hgeo : ValidGeometry fs)
    {bitmap : List UInt8} (hbitmap : fs.loadedBitmap = some bitmap)
    (hagree : ∀ id, fs.superblock.firstDataBlock < id → id < fs.superblock.blockCount →
      fs.isFreeOnDisk id = marksFree bitmap
        ((id - fs.superblock.firstDataBlock) % fs.superblock.blocksPerGroup)) :
    ∃ it, fs.blockIter = .ok it ∧ BlockIter.Yields it fs.freeBlocks := by
  obtain ⟨it, hit, hyields⟩ := blockIter_yields h hgeo hbitmap
  refine ⟨it, hit, ?_⟩
  convert hyields using 1
  apply List.filter_congr
  intro id hid
  by_cases hfirst : fs.superblock.firstDataBlock < id
  · rw [hagree id hfirst (List.mem_range.mp hid)]
  · simp [hfirst]

/-- With blocks of 1024 or 2048 bytes, the entry of the first group is at 2048. So in an image
with one group, the iterator yields the free blocks. -/
theorem blockIter_freeBlocks_oneGroup (h : Ext2FS.tryFrom file = .ok fs) (hgeo : ValidGeometry fs)
    (hsize : fs.size ≤ 2048)
    (hone : fs.superblock.blockCount ≤ fs.superblock.firstDataBlock + fs.superblock.blocksPerGroup)
    {bitmap : List UInt8} (hbitmap : fs.bitmapOnDisk 0 = some bitmap) :
    ∃ it, fs.blockIter = .ok it ∧ BlockIter.Yields it fs.freeBlocks := by
  have htable : (fs.superblock.firstDataBlock + 1) * fs.size = 2048 := by
    have hle := hgeo.firstDataBlock_le
    have hlt := hgeo.lt_nextBlock
    have hcases : fs.size = 1024 ∨ fs.size = 2048 := by
      have := Nat.two_pow_pos fs.superblock.s_log_block_size.toNat
      unfold Ext2FS.size at hsize ⊢
      omega
    rcases hcases with hcase | hcase <;> rw [hcase] at hle hlt ⊢ <;> omega
  have hloaded : fs.loadedBitmap = some bitmap := by
    obtain ⟨gdt, hgdt, hbytes⟩ := Option.bind_eq_some_iff.mp hbitmap
    obtain ⟨entry, hentry, rfl⟩ := Option.map_eq_some_iff.mp hgdt
    obtain ⟨-, rfl⟩ := File.bytes?_eq_some.mp hentry
    rwa [htable, mul_zero, add_zero] at hbytes
  apply blockIter_freeBlocks h hgeo hloaded
  intro id hfirst hid
  have hpos := hgeo.blocksPerGroup_pos
  rw [Ext2FS.isFreeOnDisk, Nat.div_eq_of_lt (by omega), hbitmap, Option.any_some]

/-- **The iterator yields the free blocks** of the volume exactly when the bitmap that the
descriptor at 2048 names is on the device and agrees with the bitmap of each group. -/
theorem blockIter_freeBlocks_iff (h : Ext2FS.tryFrom file = .ok fs) (hgeo : ValidGeometry fs) :
    (∃ it, fs.blockIter = .ok it ∧ BlockIter.Yields it fs.freeBlocks) ↔
      ∃ bitmap, fs.loadedBitmap = some bitmap ∧
        ∀ id, fs.superblock.firstDataBlock < id → id < fs.superblock.blockCount →
          fs.isFreeOnDisk id = marksFree bitmap
            ((id - fs.superblock.firstDataBlock) % fs.superblock.blocksPerGroup) := by
  constructor
  · rintro ⟨it, hit, hfree⟩
    obtain ⟨bitmap, hbitmap⟩ := loadedBitmap_of_blockIter h hgeo hit
    refine ⟨bitmap, hbitmap, ?_⟩
    intro id hfirst hid
    obtain ⟨it', hit', hyields⟩ := blockIter_yields h hgeo hbitmap
    obtain rfl : it' = it := Except.ok.inj (hit'.symm.trans hit)
    have hmem := Iff.of_eq (congrArg (id ∈ ·) (hfree.unique hyields))
    simp only [Ext2FS.freeBlocks, List.mem_filter, List.mem_range, hid, hfirst, decide_true,
      Bool.true_and, true_and] at hmem
    exact Bool.eq_iff_iff.mpr hmem
  · rintro ⟨bitmap, hbitmap, hagree⟩
    exact blockIter_freeBlocks h hgeo hbitmap hagree

end Yields

/-! ## Two groups -/

/-- An image with 1024-byte blocks and two groups of eight, blocks 1 to 8 and 9 to 15. Their
bitmaps are the first bytes of blocks 3 and 4. -/
def twoGroups (bitmap₀ bitmap₁ : UInt8) : File where
  len := 16 * 1024
  len_lt := by norm_num
  byteAt i := ([
    (1028, 16), -- `s_blocks_count`
    (1044, 1), -- `s_first_data_block`
    (1056, 8), -- `s_blocks_per_group`
    (1080, 0x53), (1081, 0xEF), -- `s_magic`
    (2048, 3), (2080, 4), -- the descriptor table
    (3072, bitmap₀), (4096, bitmap₁)].lookup i).getD 0

/-- The superblock of this image. -/
def twoGroupsSuperblock : Superblock where
  s_blocks_count := 16
  s_first_data_block := 1
  s_log_block_size := 0
  s_blocks_per_group := 8
  s_magic := ext2SuperMagic

/-- The file system that `try_from` finds in this image. -/
def twoGroupsFS (bitmap₀ bitmap₁ : UInt8) : Ext2FS where
  device := twoGroups bitmap₀ bitmap₁
  superblock := twoGroupsSuperblock
  blockGroupDescriptorTables := [⟨3⟩, ⟨3⟩]

theorem tryFrom_twoGroups (bitmap₀ bitmap₁ : UInt8) :
    Ext2FS.tryFrom (twoGroups bitmap₀ bitmap₁) = .ok (twoGroupsFS bitmap₀ bitmap₁) := by
  have hsb : Superblock.fromFile (twoGroups bitmap₀ bitmap₁) = .ok twoGroupsSuperblock := by
    rw [Superblock.fromFile_of_le (by simp [twoGroups])]
    simp [Superblock.ofBytes, u32At_bytes, u16At_bytes, twoGroups, List.lookup,
      twoGroupsSuperblock, ext2SuperMagic]
  have hgdt : BlockGroupDescriptor.fromFile (twoGroups bitmap₀ bitmap₁) = .ok ⟨3⟩ := by
    rw [BlockGroupDescriptor.fromFile_of_le (by simp [twoGroups])]
    simp [BlockGroupDescriptor.ofBytes, u32At_bytes, twoGroups, List.lookup]
  have hext : twoGroupsSuperblock.isExt2 = true := by decide
  have hcount : twoGroupsSuperblock.blockGroupCount = .ok 2 := by decide
  rw [Ext2FS.tryFrom_eq]
  simp only [hsb, hgdt, hext, hcount, bind, Except.bind, if_true, mapM_replicate_ok]
  rfl

theorem validGeometry_twoGroups (bitmap₀ bitmap₁ : UInt8) :
    ValidGeometry (twoGroupsFS bitmap₀ bitmap₁) := by
  have hsize : (twoGroupsFS bitmap₀ bitmap₁).size = 1024 := by
    simp [Ext2FS.size, twoGroupsFS, twoGroupsSuperblock]
  constructor
  · exact ⟨1, rfl⟩
  · show 0 < 8
    norm_num
  · show 8 ≤ 8 * _
    rw [hsize]
    norm_num
  · show 1 * _ ≤ 1024
    rw [hsize]
  · show 1024 < (1 + 1) * _
    rw [hsize]
    norm_num
  · show 16 * _ ≤ 16 * 1024
    rw [hsize]

theorem loadedBitmap_twoGroups (bitmap₀ bitmap₁ : UInt8) :
    (twoGroupsFS bitmap₀ bitmap₁).loadedBitmap =
      some ((twoGroups bitmap₀ bitmap₁).bytes 3072 1024) := by
  have hgdt : BlockGroupDescriptor.ofBytes ((twoGroups bitmap₀ bitmap₁).bytes 2048 32) = ⟨3⟩ := by
    simp [BlockGroupDescriptor.ofBytes, u32At_bytes, twoGroups, List.lookup]
  show (twoGroups bitmap₀ bitmap₁).bytes? ((BlockGroupDescriptor.ofBytes
    ((twoGroups bitmap₀ bitmap₁).bytes 2048 32)).blockBitmap * (1024 * 2 ^ 0)) (1024 * 2 ^ 0) = _
  rw [hgdt]
  exact File.bytes?_eq_some.mpr ⟨show 3 * 1024 + 1024 ≤ 16 * 1024 by norm_num, rfl⟩

/-- Two groups with the same bitmap. -/
theorem blockIter_freeBlocks_twoGroups :
    ∃ it, (twoGroupsFS 0x8F 0x8F).blockIter = .ok it ∧
      BlockIter.Yields it (twoGroupsFS 0x8F 0x8F).freeBlocks := by
  refine (blockIter_freeBlocks_iff (tryFrom_twoGroups _ _) (validGeometry_twoGroups _ _)).mpr
    ⟨_, loadedBitmap_twoGroups _ _, ?_⟩
  have hagree : ∀ id < 16, 1 < id → (twoGroupsFS 0x8F 0x8F).isFreeOnDisk id =
      marksFree ((twoGroups 0x8F 0x8F).bytes 3072 1024) ((id - 1) % 8) := by decide +kernel
  intro id hfirst hid
  exact hagree id hid hfirst

/-- The first group is full, the second one has three free blocks: none of them is found. -/
theorem blockIter_misses_freeBlocks :
    ∃ file fs, Ext2FS.tryFrom file = .ok fs ∧ ValidGeometry fs ∧
      ¬ ∃ it, fs.blockIter = .ok it ∧ BlockIter.Yields it fs.freeBlocks := by
  refine ⟨_, _, tryFrom_twoGroups 0xFF 0x8F, validGeometry_twoGroups _ _, ?_⟩
  rintro ⟨it, hit, hfree⟩
  obtain ⟨it', hit', hyields⟩ := blockIter_yields (tryFrom_twoGroups 0xFF 0x8F)
    (validGeometry_twoGroups _ _) (loadedBitmap_twoGroups _ _)
  obtain rfl : it' = it := Except.ok.inj (hit'.symm.trans hit)
  have hmem : 13 ∈ (twoGroupsFS 0xFF 0x8F).freeBlocks := by decide +kernel
  rw [hfree.unique hyields] at hmem
  revert hmem
  decide +kernel

end Recovery
