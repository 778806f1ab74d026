import RustPractices.Recovery.FreeBlocks

/-!
# The scan over the bitmaps as they are read

Whatever descriptors a reader holds, its iterator over free blocks answers from the bitmaps that
these descriptors name: it yields the blocks whose bits are zero, in increasing order, and stays at
the end when it is called again.

## Main definitions

* `Ext2FS.bitmapRead`: the bitmap that is read for a group
* `Scannable`: the geometry fits the descriptors, and the bitmaps can be read

## Main results

* `Scannable.bitmapRead_eq`: a bitmap is the front of the block that the descriptor names
* `Scannable.scanning`: the iterator starts with the bitmap of the first group
* `blockIter_scan`: the iterator answers with the free blocks, and then with `None`
-/

open Io

namespace Recovery

/-- The bitmap that is read for a group. -/
def Ext2FS.bitmapRead (fs : Ext2FS) (group : ℕ) : List UInt8 := (fs.readBitmap group []).2

/-- There is a descriptor for each of the `count` groups, the bitmap of a group fits in a block, and
the bitmaps can be read. -/
structure Scannable (fs : Ext2FS) (count : ℕ) : Prop where
  blockGroupCount : fs.superblock.blockGroupCount = .ok count
  descriptors : fs.blockGroupDescriptorTables.length = count
  blocksPerGroup_dvd : 8 ∣ fs.superblock.blocksPerGroup
  blocksPerGroup_pos : 0 < fs.superblock.blocksPerGroup
  blocksPerGroup_le : ∃ size, fs.superblock.blockSize = .ok size ∧
    fs.superblock.blocksPerGroup ≤ 8 * size
  readable : ∀ group < count, (fs.readBitmap group []).1 = .ok ()

namespace Scannable

variable {fs : Ext2FS} {count m : ℕ}

/-- **The bitmap that is read for a group** is the front of the block that its descriptor names on the
device. It is read whatever the buffer holds. -/
theorem bitmapRead_eq (h : Scannable fs count) (hm : fs.superblock.blocksPerGroup = 8 * m)
    {group : ℕ} (hgroup : group < count) : ∃ gdt size,
      fs.blockGroupDescriptorTables[group]? = some gdt ∧ fs.superblock.blockSize = .ok size ∧
      m ≤ size ∧ gdt.blockBitmap * size + size ≤ fs.device.len ∧
      fs.bitmapRead group = (fs.device.bytes (gdt.blockBitmap * size) size).take m ∧
      ∀ buf, fs.readBitmap group buf = (.ok (), fs.bitmapRead group) := by
  obtain ⟨size, hsize, hle⟩ := h.blocksPerGroup_le
  have hbpg := h.blocksPerGroup_pos
  have hpos : 0 < m := by omega
  obtain ⟨gdt, hgdt⟩ : ∃ gdt, fs.blockGroupDescriptorTables[group]? = some gdt :=
    ⟨_, List.getElem?_eq_getElem (by rw [h.descriptors]; exact hgroup)⟩
  have hread : fs.readBitmap group [] = (.ok (), fs.bitmapRead group) :=
    Prod.ext (h.readable group hgroup) rfl
  obtain ⟨block, hblock, htake⟩ := (ValidGeometry.readBitmap_eq_ok hm hpos hgdt).mp hread
  obtain ⟨hdevice, rfl⟩ := (Ext2FS.readBlock_eq_ok hsize (by omega)).mp hblock
  refine ⟨gdt, size, hgdt, hsize, by omega, hdevice, htake.symm, fun buf => ?_⟩
  exact (ValidGeometry.readBitmap_eq_ok hm hpos hgdt).mpr
    ⟨_, (Ext2FS.readBlock_eq_ok hsize (by omega)).mpr ⟨hdevice, rfl⟩, htake⟩

/-- A bitmap has a bit for each block of the group. -/
theorem length_bitmapRead (h : Scannable fs count) (hm : fs.superblock.blocksPerGroup = 8 * m)
    {group : ℕ} (hgroup : group < count) : (fs.bitmapRead group).length = m := by
  obtain ⟨gdt, size, -, -, hle, -, hbitmap, -⟩ := h.bitmapRead_eq hm hgroup
  rw [hbitmap, List.length_take, File.length_bytes, min_eq_left hle]

/-- A bitmap has the length it is cut to. -/
theorem resize_bitmapRead (h : Scannable fs count) (hm : fs.superblock.blocksPerGroup = 8 * m)
    {group : ℕ} (hgroup : group < count) : resize (fs.bitmapRead group) m = fs.bitmapRead group := by
  have hlength := h.length_bitmapRead hm hgroup
  rw [resize, List.take_of_length_le hlength.le, hlength, Nat.sub_self, List.replicate_zero,
    List.append_nil]

/-- The iterator starts with the bitmap of the first group. -/
theorem scanning (h : Scannable fs count) (hm : fs.superblock.blocksPerGroup = 8 * m) :
    ∃ it, fs.blockIter = .ok it ∧ it.fs = fs ∧ it.blockId = 0 ∧
      it.Scanning m count fun group => resize (fs.bitmapRead group) m := by
  have hbpg := h.blocksPerGroup_pos
  have hpos : 0 < m := by omega
  obtain ⟨-, hcountpos, hcover⟩ := Superblock.blockGroupCount_eq_ok h.blockGroupCount
  obtain ⟨gdt, size, -, hsize, -, hdevice, -, hread⟩ := h.bitmapRead_eq hm hcountpos
  have hlarge : ¬ 2 ^ 63 ≤ size := by
    have := fs.device.len_lt
    omega
  have hlength := h.length_bitmapRead hm hcountpos
  refine ⟨{ fs, blockId := 0, blockBitmap := fs.bitmapRead 0 }, ?_, rfl, rfl, ?_⟩
  · rw [Ext2FS.blockIter_eq, ValidGeometry.bitmapSize_eq hm hpos, hsize]
    simp only [bind, Except.bind, if_neg hlarge, hread, List.take_of_length_le hlength.le, pure,
      Except.pure]
  · refine ⟨⟨hpos, hm, h.blockGroupCount, fun group => length_resize _ _, ?_⟩, ?_, ?_, ?_⟩
    · intro group _ hgroup buf
      rw [h.resize_bitmapRead hm hgroup]
      obtain ⟨gdt, size, -, -, -, -, -, hread⟩ := h.bitmapRead_eq hm hgroup
      exact hread buf
    · simpa using hcountpos
    · simpa using (h.resize_bitmapRead hm hcountpos).symm
    · exact hm ▸ hcover

end Scannable

/-- **The scan is exact and stays at its end**: the iterator answers with the ids of the blocks whose
bits are zero, in increasing order and without the first block of the first group, and then with
`None`. -/
theorem blockIter_scan {fs : Ext2FS} {count : ℕ} (h : Scannable fs count) :
    ∃ (it : BlockIter) (ids : List ℕ), fs.blockIter = .ok it ∧ ids.Pairwise (· < ·) ∧
      (∀ id, id ∈ ids ↔ ∃ group i, group < count ∧ i < fs.superblock.blocksPerGroup ∧
        (group, i) ≠ (0, 0) ∧
        id = fs.superblock.firstDataBlock + group * fs.superblock.blocksPerGroup + i ∧
        id < fs.superblock.blockCount ∧ marksFree (fs.bitmapRead group) i) ∧
      ∀ n, it.answer n = .ok ids[n]? := by
  obtain ⟨m, hm⟩ := h.blocksPerGroup_dvd
  obtain ⟨it, hit, hfs, hid, hscan⟩ := h.scanning hm
  have hpos := hscan.readable.pos
  have hcover := hscan.blockCount_le
  rw [hfs] at hcover
  refine ⟨it, _, hit, ?_, ?_, hscan.answer⟩
  · rw [List.pairwise_map]
    exact (freeFrom_pairwise _ _ _).imp fun hlt => Nat.add_lt_add_right hlt _
  · intro id
    rw [List.mem_map, hfs, hm]
    constructor
    · rintro ⟨p, hp, rfl⟩
      obtain ⟨hle, hlt, hfree⟩ := mem_freeFrom.mp hp
      rw [hfs] at hlt
      have hdivmod := Nat.div_add_mod' p (8 * m)
      have hgroup : p / (8 * m) < count := Nat.div_lt_of_lt_mul (by rw [mul_comm]; omega)
      refine ⟨p / (8 * m), p % (8 * m), hgroup, Nat.mod_lt _ (by omega), ?_, by omega, by omega, ?_⟩
      · rintro hzero
        obtain ⟨hdiv, hmod⟩ := Prod.mk.inj hzero
        rw [hdiv, hmod] at hdivmod
        omega
      · rw [← h.resize_bitmapRead hm hgroup]
        exact hfree
    · rintro ⟨group, i, hgroup, hi, hne, rfl, hlt, hfree⟩
      refine ⟨group * (8 * m) + i, mem_freeFrom.mpr ⟨?_, ?_, ?_⟩, by omega⟩
      · rw [hid]
        by_contra hzero
        -- only the first block of the first group has this position
        have hi' : i = 0 := by omega
        have hgroup' : group = 0 := by
          by_contra hne'
          have := Nat.mul_pos (Nat.pos_of_ne_zero hne') (show 0 < 8 * m by omega)
          omega
        exact hne (Prod.ext hgroup' hi')
      · rw [hfs]
        omega
      · rw [isFree, mul_comm group, Nat.mul_add_div (by omega), Nat.div_eq_of_lt hi,
          Nat.mul_add_mod, Nat.mod_eq_of_lt hi, add_zero, h.resize_bitmapRead hm hgroup]
        exact hfree

/-- A device of eight blocks of 1024 bytes is not too long. -/
theorem eightBlocks_lt : 8192 < 2 ^ 63 := by norm_num

/-- The device of two groups with a descriptor for each of them, and so a bitmap: blocks 5, 6 and 7
are free, and in the second group blocks 11 and 12. -/
def pairVolume : Ext2FS where
  device := twoGroups 0x8F 0xF3
  superblock := twoGroupsSuperblock
  blockGroupDescriptorTables := [⟨3⟩, ⟨4⟩]

theorem blockIter_scan_pair : ∃ (it : BlockIter) (ids : List ℕ),
    pairVolume.blockIter = .ok it ∧ ids.Pairwise (· < ·) ∧
      (∀ id, id ∈ ids ↔ ∃ group i, group < 2 ∧ i < pairVolume.superblock.blocksPerGroup ∧
        (group, i) ≠ (0, 0) ∧ id = pairVolume.superblock.firstDataBlock +
          group * pairVolume.superblock.blocksPerGroup + i ∧
        id < pairVolume.superblock.blockCount ∧ marksFree (pairVolume.bitmapRead group) i) ∧
      ∀ n, it.answer n = .ok ids[n]? := by
  have hblock : ∀ id < 16, pairVolume.readBlock id [] =
      (.ok (), pairVolume.device.bytes (id * 1024) 1024) := by
    intro id hid
    exact (Ext2FS.readBlock_eq_ok rfl (by norm_num)).mpr
      ⟨show id * 1024 + 1024 ≤ 16 * 1024 by omega, rfl⟩
  have hreadable : ∀ group < 2, (pairVolume.readBitmap group []).1 = .ok () := by
    intro group hgroup
    obtain ⟨gdt, hgdt, hid⟩ : ∃ gdt, pairVolume.blockGroupDescriptorTables[group]? = some gdt ∧
        gdt.blockBitmap < 16 := by
      interval_cases group
      · exact ⟨⟨3⟩, rfl, by decide⟩
      · exact ⟨⟨4⟩, rfl, by decide⟩
    rw [(ValidGeometry.readBitmap_eq_ok (m := 1) rfl one_pos hgdt).mpr ⟨_, hblock _ hid, rfl⟩]
  exact blockIter_scan ⟨rfl, rfl, ⟨1, rfl⟩, by decide, ⟨1024, rfl, by decide⟩, hreadable⟩

end Recovery
