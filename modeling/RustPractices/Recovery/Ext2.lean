import RustPractices.Io.Stream

/-!
# The ext2 reader

An ext2 image is a file of blocks. The superblock gives the geometry of the volume, one
descriptor for each block group names the block that holds the group's bitmap, and the iterator
over free blocks scans the bitmaps for zero bits. Arithmetic on `usize` is checked: where an
operation overflows, divides by zero or indexes out of range, the program panics. Where the
allocator refuses a buffer, the program aborts, which is a crash like a panic.

## Main definitions

* `File`: the device
* `withCapacity`: asking the allocator for a buffer
* `Superblock`, `BlockGroupDescriptor`, `Ext2FS`: what is read from it
* `Ext2FS.tryFromWithin`, `Ext2FS.tryFrom`: reading an image
* `BlockIter`, `BlockIter.next`: the iterator over free blocks
* `BlockIter.Yields`: the block ids that an iterator yields until it ends

## Main results

* `File.readExact_of_le`, `File.readExact_eq_ok`: reading succeeds within the file and only there
* `Ext2FS.readBlock_eq_ok`, `Ext2FS.readBlock_congr`: what is read of a block
* `Ext2FS.tryFrom_eq`, `Ext2FS.blockIter_eq`: with the most generous allocator, only the buffer of a
  block can be too large
* `Yields.unique`: an iterator yields one sequence
-/

open Io

namespace Recovery

/-! ## Checked `usize` arithmetic -/

/-- `a - b`. -/
def checkedSub (a b : ℕ) : Outcome ℕ := if b ≤ a then .ok (a - b) else panicked

/-- `a * b`. -/
def checkedMul (a b : ℕ) : Outcome ℕ := if a * b < 2 ^ 64 then .ok (a * b) else panicked

/-- `a / b`. -/
def checkedDiv (a b : ℕ) : Outcome ℕ := if b = 0 then panicked else .ok (a / b)

/-- `a % b`. -/
def checkedRem (a b : ℕ) : Outcome ℕ := if b = 0 then panicked else .ok (a % b)

/-- `a << k`: the bits that are shifted out are lost, and a shift by the width or more panics. -/
def checkedShl (a k : ℕ) : Outcome ℕ := if k < 64 then .ok (a * 2 ^ k % 2 ^ 64) else panicked

/-! ## Buffers -/

/-- `isize::MAX`: no allocator grants more bytes than this. -/
def isizeMax : ℕ := 2 ^ 63 - 1

/-- `Vec::with_capacity` for a buffer of `size` bytes, where the largest buffer that the allocator
grants has `largest` bytes. -/
def withCapacity (largest size : ℕ) : Outcome Unit :=
  if size ≤ min largest isizeMax then .ok () else panicked

theorem withCapacity_of_le {largest size : ℕ} (h : size ≤ largest) (hlt : size < 2 ^ 63) :
    withCapacity largest size = .ok () :=
  if_pos (le_min h (by unfold isizeMax; omega))

theorem withCapacity_of_lt {largest size : ℕ} (h : largest < size) :
    withCapacity largest size = panicked :=
  if_neg fun hle => by have := hle.trans (min_le_left _ _); omega

/-- The most generous allocator. -/
theorem withCapacity_isizeMax (size : ℕ) :
    withCapacity isizeMax size = if 2 ^ 63 ≤ size then panicked else .ok () := by
  rw [withCapacity, min_self, isizeMax]
  by_cases h : 2 ^ 63 ≤ size
  · rw [if_pos h, if_neg (by omega)]
  · rw [if_neg h, if_pos (by omega)]

/-! ## The device -/

/-- A file: its length and its bytes. The offsets of a file are `i64`. -/
structure File where
  len : ℕ
  byteAt : ℕ → UInt8
  len_lt : len < 2 ^ 63

namespace File

/-- The `n` bytes at `offset`. -/
def bytes (file : File) (offset n : ℕ) : List UInt8 :=
  (List.range n).map fun i => file.byteAt (offset + i)

/-- `seek(SeekFrom::Start(offset))` and then `read_exact(buf)`: a read that meets the end of the
file has filled the front of the buffer. -/
def readExact (file : File) (offset : ℕ) (buf : List UInt8) : Outcome Unit × List UInt8 :=
  if 2 ^ 63 ≤ offset then (err .other, buf)
  else
    let available := file.len - offset
    if buf.length ≤ available then (.ok (), file.bytes offset buf.length)
    else (err .unexpectedEof, file.bytes offset available ++ buf.drop available)

@[simp] theorem length_bytes (file : File) (offset n : ℕ) : (file.bytes offset n).length = n := by
  simp [bytes]

theorem getD_bytes (file : File) (offset : ℕ) {n i : ℕ} (h : i < n) :
    (file.bytes offset n).getD i 0 = file.byteAt (offset + i) := by
  simp [bytes, List.getD_eq_getElem?_getD, List.getElem?_range h]

/-- Reading within the file. -/
theorem readExact_of_le {file : File} {offset : ℕ} {buf : List UInt8}
    (hpos : 0 < buf.length) (h : offset + buf.length ≤ file.len) :
    file.readExact offset buf = (.ok (), file.bytes offset buf.length) := by
  have hlen := file.len_lt
  rw [readExact, if_neg (by omega)]
  simp only
  rw [if_pos (by omega)]

/-- A read that succeeds is a read within the file. -/
theorem readExact_eq_ok {file : File} {offset : ℕ} {buf buf' : List UInt8}
    (hpos : 0 < buf.length) (h : file.readExact offset buf = (.ok (), buf')) :
    offset + buf.length ≤ file.len ∧ buf' = file.bytes offset buf.length := by
  unfold readExact at h
  split_ifs at h with hoff
  · simp [err] at h
  · simp only at h
    split_ifs at h with hle
    · obtain rfl : file.bytes offset buf.length = buf' := by simpa using h
      exact ⟨by omega, rfl⟩
    · simp [err] at h

end File

/-- A little-endian `u32`, as the fields of a packed structure are read. -/
def u32At (buf : List UInt8) (i : ℕ) : UInt32 :=
  UInt32.ofNat ((buf.getD i 0).toNat + (buf.getD (i + 1) 0).toNat * 2 ^ 8 +
    (buf.getD (i + 2) 0).toNat * 2 ^ 16 + (buf.getD (i + 3) 0).toNat * 2 ^ 24)

/-- A little-endian `u16`. -/
def u16At (buf : List UInt8) (i : ℕ) : UInt16 :=
  UInt16.ofNat ((buf.getD i 0).toNat + (buf.getD (i + 1) 0).toNat * 2 ^ 8)

theorem u32At_bytes (file : File) (offset : ℕ) {n i : ℕ} (h : i + 4 ≤ n) :
    u32At (file.bytes offset n) i = UInt32.ofNat ((file.byteAt (offset + i)).toNat +
      (file.byteAt (offset + i + 1)).toNat * 2 ^ 8 +
      (file.byteAt (offset + i + 2)).toNat * 2 ^ 16 +
      (file.byteAt (offset + i + 3)).toNat * 2 ^ 24) := by
  simp (disch := omega) only [u32At, File.getD_bytes, add_assoc]

theorem u16At_bytes (file : File) (offset : ℕ) {n i : ℕ} (h : i + 2 ≤ n) :
    u16At (file.bytes offset n) i = UInt16.ofNat ((file.byteAt (offset + i)).toNat +
      (file.byteAt (offset + i + 1)).toNat * 2 ^ 8) := by
  simp (disch := omega) only [u16At, File.getD_bytes, add_assoc]

/-! ## The superblock -/

/-- `EXT2_SUPER_MAGIC`. -/
def ext2SuperMagic : UInt16 := 0xEF53

/-- The fields of the superblock that the program reads. -/
structure Superblock where
  s_blocks_count : UInt32
  s_first_data_block : UInt32
  s_log_block_size : UInt32
  s_blocks_per_group : UInt32
  s_magic : UInt16
  deriving DecidableEq, Repr

namespace Superblock

/-- The 84 bytes of a packed superblock. -/
def ofBytes (buf : List UInt8) : Superblock where
  s_blocks_count := u32At buf 4
  s_first_data_block := u32At buf 20
  s_log_block_size := u32At buf 24
  s_blocks_per_group := u32At buf 32
  s_magic := u16At buf 56

/-- `Superblock::from_file`. -/
def fromFile (file : File) : Outcome Superblock :=
  match file.readExact 1024 (List.replicate 84 0) with
  | (.ok (), buf) => .ok (ofBytes buf)
  | (.error e, _) => .error e

/-- `is_ext2`. -/
def isExt2 (sb : Superblock) : Bool := sb.s_magic == ext2SuperMagic

/-- `first_data_block`. -/
def firstDataBlock (sb : Superblock) : ℕ := sb.s_first_data_block.toNat

/-- `block_size`. -/
def blockSize (sb : Superblock) : Outcome ℕ := checkedShl 1024 sb.s_log_block_size.toNat

/-- `blocks_per_group`. -/
def blocksPerGroup (sb : Superblock) : ℕ := sb.s_blocks_per_group.toNat

/-- `block_count`. -/
def blockCount (sb : Superblock) : ℕ := sb.s_blocks_count.toNat

/-- `block_group_count`: the number of blocks over the size of a group, rounded up. -/
def blockGroupCount (sb : Superblock) : Outcome ℕ := do
  let last ← checkedSub sb.blockCount 1
  let groups ← checkedDiv last sb.blocksPerGroup
  return 1 + groups

/-- `bitmap_size`. -/
def bitmapSize (sb : Superblock) : Outcome ℕ := do
  let last ← checkedSub sb.blocksPerGroup 1
  return 1 + last / 8

/-- The number of groups is defined when there are blocks and the groups have a size. -/
theorem blockGroupCount_eq_ok_iff {sb : Superblock} {count : ℕ} : sb.blockGroupCount = .ok count ↔
    (0 < sb.blockCount ∧ 0 < sb.blocksPerGroup) ∧
      count = 1 + (sb.blockCount - 1) / sb.blocksPerGroup := by
  unfold blockGroupCount checkedSub checkedDiv
  by_cases hblocks : 1 ≤ sb.blockCount
  · by_cases hbpg : sb.blocksPerGroup = 0
    · simp [hblocks, hbpg, bind, Except.bind, panicked]
    · simp [hblocks, hbpg, Nat.pos_of_ne_zero hbpg, Nat.succ_le_iff.mp hblocks, eq_comm, bind,
        Except.bind, pure, Except.pure]
  · simp [hblocks, show ¬ 0 < sb.blockCount by omega, bind, Except.bind, panicked]

/-- There is at most a group for each block. -/
theorem blockGroupCount_le {sb : Superblock} {count : ℕ} (h : sb.blockGroupCount = .ok count) :
    count ≤ 2 ^ 32 := by
  obtain ⟨-, rfl⟩ := blockGroupCount_eq_ok_iff.mp h
  have hblocks : sb.blockCount < 2 ^ 32 := sb.s_blocks_count.toNat_lt
  have hdiv := Nat.div_le_self (sb.blockCount - 1) sb.blocksPerGroup
  omega

end Superblock

/-! ## The block groups -/

/-- The field of a block group descriptor that the program reads. -/
structure BlockGroupDescriptor where
  bg_block_bitmap : UInt32
  deriving DecidableEq, Repr

namespace BlockGroupDescriptor

/-- The 32 bytes of a packed descriptor. -/
def ofBytes (buf : List UInt8) : BlockGroupDescriptor where
  bg_block_bitmap := u32At buf 0

/-- `BlockGroupDescriptor::from_file`: every call reads at the same offset. -/
def fromFile (file : File) : Outcome BlockGroupDescriptor :=
  match file.readExact 2048 (List.replicate 32 0) with
  | (.ok (), buf) => .ok (ofBytes buf)
  | (.error e, _) => .error e

/-- `block_bitmap`. -/
def blockBitmap (gdt : BlockGroupDescriptor) : ℕ := gdt.bg_block_bitmap.toNat

end BlockGroupDescriptor

structure Ext2FS where
  device : File
  superblock : Superblock
  blockGroupDescriptorTables : List BlockGroupDescriptor

/-- `Vec::resize(n, 0)`. -/
def resize (buf : List UInt8) (n : ℕ) : List UInt8 :=
  buf.take n ++ List.replicate (n - buf.length) 0

@[simp] theorem length_resize (buf : List UInt8) (n : ℕ) : (resize buf n).length = n := by
  simp [resize]; omega

namespace Ext2FS

/-- `TryFrom<File>::try_from`: room is made for the descriptors of all block groups, 32 bytes each,
and one descriptor is loaded for each group. -/
def tryFromWithin (largest : ℕ) (file : File) : Outcome Ext2FS := do
  let superblock ← Superblock.fromFile file
  if superblock.isExt2 then
    let blockGroupCnt ← superblock.blockGroupCount
    withCapacity largest (32 * blockGroupCnt)
    let gdts ← (List.replicate blockGroupCnt ()).mapM fun _ => BlockGroupDescriptor.fromFile file
    return { device := file, superblock, blockGroupDescriptorTables := gdts }
  else err .unsupported

/-- `try_from` with the most generous allocator. -/
def tryFrom (file : File) : Outcome Ext2FS := tryFromWithin isizeMax file

/-- The descriptors of a volume are never too many. -/
theorem tryFrom_eq (file : File) : tryFrom file = (do
    let superblock ← Superblock.fromFile file
    if superblock.isExt2 then
      let blockGroupCnt ← superblock.blockGroupCount
      let gdts ← (List.replicate blockGroupCnt ()).mapM fun _ => BlockGroupDescriptor.fromFile file
      return { device := file, superblock, blockGroupDescriptorTables := gdts }
    else err .unsupported) := by
  rw [tryFrom, tryFromWithin]
  refine bind_congr fun superblock => ?_
  split_ifs
  · cases hcount : superblock.blockGroupCount with
    | error e => rfl
    | ok count =>
      have hle := Superblock.blockGroupCount_le hcount
      have hgranted : withCapacity isizeMax (32 * count) = .ok () := by
        rw [withCapacity_isizeMax, if_neg (by omega)]
      simp only [bind, Except.bind, hgranted]
  · rfl

/-- `read_block`. A buffer of more than `isize::MAX` bytes cannot be allocated. The buffer of the
iterator has the capacity for a block from `block_iter` on and is not allocated again. -/
def readBlock (fs : Ext2FS) (blockId : ℕ) (buf : List UInt8) : Outcome Unit × List UInt8 :=
  match fs.superblock.blockSize with
  | .error e => (.error e, buf)
  | .ok blockSize =>
    match checkedMul blockId blockSize with
    | .error e => (.error e, buf)
    | .ok offset =>
      if 2 ^ 63 ≤ blockSize then (panicked, buf)
      else fs.device.readExact offset (resize buf blockSize)

/-- `read_bitmap`. -/
def readBitmap (fs : Ext2FS) (blockGroup : ℕ) (buf : List UInt8) : Outcome Unit × List UInt8 :=
  match fs.superblock.bitmapSize with
  | .error e => (.error e, buf)
  | .ok bitmapSize =>
    match fs.blockGroupDescriptorTables[blockGroup]? with
    | none => (panicked, buf)
    | some gdt =>
      match fs.readBlock gdt.blockBitmap buf with
      | (.error e, buf) => (.error e, buf)
      | (.ok (), buf) => (.ok (), buf.take bitmapSize)

/-- A block is read where the device has it, and only there. -/
theorem readBlock_eq_ok {fs : Ext2FS} {size id : ℕ} {buf buf' : List UInt8}
    (hsize : fs.superblock.blockSize = .ok size) (hpos : 0 < size) :
    fs.readBlock id buf = (.ok (), buf') ↔
      id * size + size ≤ fs.device.len ∧ buf' = fs.device.bytes (id * size) size := by
  have hlen := fs.device.len_lt
  have hbuf : 0 < (resize buf size).length := by rwa [length_resize]
  rw [readBlock, hsize]
  simp only [checkedMul]
  constructor
  · intro h
    by_cases hmul : id * size < 2 ^ 64
    · rw [if_pos hmul] at h
      dsimp only at h
      split_ifs at h with hlarge
      · simp [panicked] at h
      · simpa only [length_resize] using File.readExact_eq_ok hbuf h
    · rw [if_neg hmul] at h
      simp [panicked] at h
  · rintro ⟨hle, rfl⟩
    rw [if_pos (by omega)]
    dsimp only
    rw [if_neg (by omega), File.readExact_of_le hbuf (by rwa [length_resize]), length_resize]

/-- **What is read does not depend on the buffer**, nor does whether it can be read. -/
theorem readBlock_congr (fs : Ext2FS) (id : ℕ) (buf buf' : List UInt8) :
    (fs.readBlock id buf).1 = (fs.readBlock id buf').1 ∧
      ((fs.readBlock id buf).1 = .ok () → fs.readBlock id buf = fs.readBlock id buf') := by
  unfold readBlock
  cases fs.superblock.blockSize with
  | error e => exact ⟨rfl, fun h => by simp at h⟩
  | ok size =>
    dsimp only
    cases checkedMul id size with
    | error e => exact ⟨rfl, fun h => by simp at h⟩
    | ok offset =>
      dsimp only
      split_ifs
      · exact ⟨rfl, fun h => by simp [panicked] at h⟩
      · -- the read depends on the length of the buffer only
        unfold File.readExact
        simp only [length_resize]
        split_ifs
        · exact ⟨rfl, fun h => by simp [err] at h⟩
        · exact ⟨rfl, fun _ => rfl⟩
        · exact ⟨rfl, fun h => by simp [err] at h⟩

end Ext2FS

/-! ## The iterator over free blocks -/

structure BlockIter where
  fs : Ext2FS
  blockId : ℕ
  blockBitmap : List UInt8

/-- `block_iter`. -/
def Ext2FS.blockIterWithin (largest : ℕ) (fs : Ext2FS) : Outcome BlockIter := do
  let bitmapSize ← fs.superblock.bitmapSize
  let blockSize ← fs.superblock.blockSize
  withCapacity largest blockSize
  match fs.readBitmap 0 [] with
  | (.error e, _) => .error e
  | (.ok (), buf) => return { fs, blockId := 0, blockBitmap := buf.take bitmapSize }

/-- `block_iter` with the most generous allocator. -/
def Ext2FS.blockIter (fs : Ext2FS) : Outcome BlockIter := fs.blockIterWithin isizeMax

theorem Ext2FS.blockIter_eq (fs : Ext2FS) : fs.blockIter = (do
    let bitmapSize ← fs.superblock.bitmapSize
    let blockSize ← fs.superblock.blockSize
    if 2 ^ 63 ≤ blockSize then panicked
    match fs.readBitmap 0 [] with
    | (.error e, _) => .error e
    | (.ok (), buf) => return { fs, blockId := 0, blockBitmap := buf.take bitmapSize }) := by
  rw [blockIter, blockIterWithin]
  refine bind_congr fun bitmapSize => bind_congr fun blockSize => ?_
  rw [withCapacity_isizeMax]
  split_ifs <;> rfl

/-- `u8::trailing_zeros`. -/
def trailingZeros (b : UInt8) : ℕ :=
  ((List.range 8).find? fun i => b.toNat.testBit i).getD 8

namespace BlockIter

/-- How a step of the scan over the block groups goes on: with a group, a bitmap and a byte of
it, or not at all. -/
inductive Cursor
  | stop (blockBitmap : List UInt8)
  | at (group : ℕ) (blockBitmap : List UInt8) (byte bit : ℕ)

/-- The head of the loop in `next`: behind the bitmap, the bitmap of the next group is read. -/
def advance (fs : Ext2FS) (group : ℕ) (blockBitmap : List UInt8) (byte bit : ℕ) :
    Outcome Cursor :=
  if blockBitmap.length ≤ byte then
    match fs.superblock.blockGroupCount with
    | .error e => .error e
    | .ok count =>
      if count ≤ group + 1 then .ok (.stop blockBitmap)
      else
        match fs.readBitmap (group + 1) blockBitmap with
        | (.ok (), blockBitmap) => .ok (.at (group + 1) blockBitmap 0 0)
        | (.error (.error _), blockBitmap) => .ok (.stop blockBitmap)
        | (.error .panic, _) => panicked
  else .ok (.at group blockBitmap byte bit)

/-- The groups that follow a group. -/
def groupsLeft (fs : Ext2FS) (group : ℕ) : ℕ :=
  match fs.superblock.blockGroupCount with
  | .ok count => count - group
  | .error _ => 0

theorem advance_eq_at {fs : Ext2FS} {group byte bit group' byte' bit' : ℕ}
    {blockBitmap blockBitmap' : List UInt8}
    (h : advance fs group blockBitmap byte bit = .ok (.at group' blockBitmap' byte' bit')) :
    (group' = group ∧ blockBitmap' = blockBitmap ∧ byte' = byte ∧ bit' = bit ∧
      byte < blockBitmap.length) ∨ groupsLeft fs group' < groupsLeft fs group := by
  unfold advance at h
  split_ifs at h with hbyte
  · right
    cases hcount : fs.superblock.blockGroupCount with
    | error e => simp [hcount] at h
    | ok count =>
      simp only [hcount] at h
      split_ifs at h with hlast
      · simp at h
      split at h
      · obtain ⟨rfl, -⟩ := by simpa using h
        simp only [groupsLeft, hcount]
        omega
      · simp at h
      · simp [panicked] at h
  · left
    obtain ⟨rfl, rfl, rfl, rfl⟩ := by simpa using h
    exact ⟨rfl, rfl, rfl, rfl, by omega⟩

/-- The loop in `next`: the position of the first free block from a byte on, and the bitmap at
the end of the loop. -/
def nextLoop (fs : Ext2FS) (group : ℕ) (blockBitmap : List UInt8) (byte bit : ℕ) :
    Outcome (Option ℕ × List UInt8) :=
  match _h : advance fs group blockBitmap byte bit with
  | .error e => .error e
  | .ok (.stop blockBitmap) => .ok (none, blockBitmap)
  | .ok (.at group blockBitmap byte bit) =>
    match blockBitmap[byte]? with
    | none => panicked
    | some b =>
      -- a free block is a one here, a used one a zero
      let bits := (~~~ b) >>> (UInt8.ofNat bit)
      if bits ≠ 0 then
        let bit := bit + trailingZeros bits
        .ok (some (group * fs.superblock.blocksPerGroup + byte * 8 + bit), blockBitmap)
      else nextLoop fs group blockBitmap (byte + 1) 0
termination_by (groupsLeft fs group, blockBitmap.length - byte)
decreasing_by
  rcases advance_eq_at _h with ⟨rfl, rfl, rfl, -, hlt⟩ | hlt
  · exact Prod.Lex.right _ (by omega)
  · exact Prod.Lex.left _ _ hlt

section NextLoop

variable {fs : Ext2FS} {group byte bit group' byte' bit' : ℕ} {blockBitmap blockBitmap' : List UInt8}

theorem nextLoop_stop (h : advance fs group blockBitmap byte bit = .ok (.stop blockBitmap')) :
    nextLoop fs group blockBitmap byte bit = .ok (none, blockBitmap') := by
  rw [nextLoop]
  split <;> simp_all

theorem nextLoop_at
    (h : advance fs group blockBitmap byte bit = .ok (.at group' blockBitmap' byte' bit')) {b : UInt8}
    (hb : blockBitmap'[byte']? = some b) :
    nextLoop fs group blockBitmap byte bit =
      if (~~~ b) >>> (UInt8.ofNat bit') ≠ 0 then
        .ok (some (group' * fs.superblock.blocksPerGroup + byte' * 8 +
          (bit' + trailingZeros ((~~~ b) >>> (UInt8.ofNat bit')))), blockBitmap')
      else nextLoop fs group' blockBitmap' (byte' + 1) 0 := by
  rw [nextLoop]
  split
  · simp_all
  · simp_all
  next hat =>
    rw [h] at hat
    cases hat
    rw [hb]

end NextLoop

/-- `Iterator::next`. -/
def next (it : BlockIter) : Outcome (Option ℕ × BlockIter) := do
  let sb := it.fs.superblock
  let blockIdxInGroup := (← checkedRem it.blockId sb.blocksPerGroup) + 1
  let group ← checkedDiv it.blockId sb.blocksPerGroup
  match ← nextLoop it.fs group it.blockBitmap (blockIdxInGroup / 8) (blockIdxInGroup % 8) with
  | (none, blockBitmap) => return (none, { it with blockBitmap })
  | (some blockId, blockBitmap) =>
    let id := blockId + sb.firstDataBlock
    return (if sb.blockCount ≤ id then none else some id, { it with blockId, blockBitmap })

/-- The block ids that an iterator yields until it ends. -/
inductive Yields : BlockIter → List ℕ → Prop
  | nil {it it' : BlockIter} : it.next = .ok (none, it') → Yields it []
  | cons {it it' : BlockIter} {id : ℕ} {ids : List ℕ} :
      it.next = .ok (some id, it') → Yields it' ids → Yields it (id :: ids)

/-- An iterator yields one sequence. -/
theorem Yields.unique {it : BlockIter} {ids ids' : List ℕ} (h : Yields it ids)
    (h' : Yields it ids') : ids = ids' := by
  induction h generalizing ids' with
  | nil hnext =>
    cases h' with
    | nil => rfl
    | cons hnext' => simp [hnext] at hnext'
  | cons hnext _ ih =>
    cases h' with
    | nil hnext' => simp [hnext] at hnext'
    | cons hnext' h' =>
      obtain ⟨rfl, rfl⟩ : _ ∧ _ := by simpa [hnext] using hnext'
      rw [ih h']

end BlockIter

end Recovery
