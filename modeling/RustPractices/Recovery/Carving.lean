import RustPractices.Recovery.BitmapScan
import RustPractices.Recovery.BlockLayout
import RustPractices.Search.Chunks

/-!
# Carving images out of the free blocks

The program looks for the header of an image in a free block, and copies the blocks that follow up
to the end marker of the image. Each block is searched for the marker on its own, so that a marker
that ends in the next block is missed. A marker in the block of the header is looked for from the
header on, but its position is taken from the start of the block.

## Main definitions

* `patternPosition`: the search in a block
* `collect`, `turn`, `recoverFiles`: the loops of the program
* `dataBlocks`: the contents of the blocks that are copied

## Main results

* `collect_eq_some_iff`: the inner loop is a search in chunks
* `pushes_iff`: the program pushes the image up to its first end marker exactly when the marker lies
  within a block
* `pushes_block_iff`: an image with an end marker in its first block is pushed exactly when it starts
  with the block
-/

open Io Search

namespace Recovery

/-- `JFIF_HEADER`. -/
def jfifHeader : List UInt8 :=
  [0xFF, 0xD8, 0xFF, 0xE0, 0x00, 0x10, 0x4A, 0x46, 0x49, 0x46, 0x00]

/-- `JFIF_EOI`. -/
def jfifEoi : List UInt8 := [0xFF, 0xD9]

/-- `pattern_position`. The position counts from `offset` on. -/
def patternPosition (slice pattern : List UInt8) (offset : ℕ) : Option ℕ :=
  ((windows pattern.length slice).drop offset).findIdx? fun data => data == pattern

/-- The inner loop of `recover_files` over the free blocks `ids` that are left: the image that it
pushes, the blocks that are left behind it, and the buffer. -/
def collect (fs : Ext2FS) : List ℕ → (blockData img : List UInt8) → (blockCnt : ℕ) →
    Outcome (Option (List UInt8) × List ℕ × List UInt8)
  | [], blockData, _, _ => .ok (none, [], blockData)
  | blockId :: ids, blockData, img, blockCnt =>
    match fs.readBlock blockId blockData with
    | (.error e, _) => .error e
    | (.ok (), blockData) =>
      -- counted from the block behind that of the header
      match fs.blockIsIndirect (blockCnt + 1) with
      | .error e => .error e
      | .ok true => collect fs ids blockData img (blockCnt + 1)
      | .ok false =>
        match patternPosition blockData jfifEoi 0 with
        | some fin => .ok (some (img ++ blockData.take (fin + jfifEoi.length)), ids, blockData)
        | none => collect fs ids blockData (img ++ blockData) (blockCnt + 1)

/-- One turn of the outer loop of `recover_files`, with the free block `blockId`. -/
def turn (fs : Ext2FS) (blockId : ℕ) (ids : List ℕ) (blockData : List UInt8) :
    Outcome (Option (List UInt8) × List ℕ × List UInt8) :=
  match fs.readBlock blockId blockData with
  | (.error e, _) => .error e
  | (.ok (), blockData) =>
    if blockData.all (· == 0) then .ok (none, ids, blockData)
    else
      match patternPosition blockData jfifHeader 0 with
      | none => .ok (none, ids, blockData)
      | some start =>
        match patternPosition blockData jfifEoi start with
        | some fin =>
          -- `block_data[start..end + JFIF_EOI.len()]`
          if start ≤ fin + jfifEoi.length ∧ fin + jfifEoi.length ≤ blockData.length then
            .ok (some ((blockData.take (fin + jfifEoi.length)).drop start), ids, blockData)
          else panicked
        | none => collect fs ids blockData (blockData.drop start) 0

theorem length_le_of_collect {fs : Ext2FS} {ids rest : List ℕ} {blockData img buf : List UInt8}
    {blockCnt : ℕ} {out : Option (List UInt8)}
    (h : collect fs ids blockData img blockCnt = .ok (out, rest, buf)) :
    rest.length ≤ ids.length := by
  induction ids generalizing blockData img blockCnt with
  | nil =>
    obtain ⟨-, rfl, -⟩ := by simpa [collect] using h
    exact le_rfl
  | cons blockId ids ih =>
    rw [collect] at h
    split at h
    · simp at h
    split at h
    · simp at h
    · exact (ih h).trans (Nat.le_succ _)
    split at h
    · obtain ⟨-, rfl, -⟩ := by simpa using h
      exact Nat.le_succ _
    · exact (ih h).trans (Nat.le_succ _)

theorem length_le_of_turn {fs : Ext2FS} {blockId : ℕ} {ids rest : List ℕ}
    {blockData buf : List UInt8} {out : Option (List UInt8)}
    (h : turn fs blockId ids blockData = .ok (out, rest, buf)) : rest.length ≤ ids.length := by
  unfold turn at h
  split at h
  · simp at h
  split_ifs at h
  · obtain ⟨-, rfl, -⟩ := by simpa using h
    exact le_rfl
  split at h
  · obtain ⟨-, rfl, -⟩ := by simpa using h
    exact le_rfl
  split at h
  · split_ifs at h
    · obtain ⟨-, rfl, -⟩ := by simpa using h
      exact le_rfl
    · simp [panicked] at h
  · exact length_le_of_collect h

/-- The outer loop of `recover_files` over the free blocks that the iterator yields: all images that
are pushed. After the last block the iterator stays at its end. -/
def recoverFiles (fs : Ext2FS) (ids : List ℕ) (blockData : List UInt8)
    (imgs : List (List UInt8)) : Outcome (List (List UInt8)) :=
  match ids with
  | [] => .ok imgs
  | blockId :: ids =>
    match _h : turn fs blockId ids blockData with
    | .error e => .error e
    | .ok (img, rest, blockData) => recoverFiles fs rest blockData (imgs ++ img.toList)
termination_by ids.length
decreasing_by
  have := length_le_of_turn _h
  simp only [List.length_cons]
  omega

/-- In the turn with the free block `blockId`, `recover_files` pushes the image. -/
def Pushes (fs : Ext2FS) (blockId : ℕ) (ids : List ℕ) (blockData img : List UInt8) : Prop :=
  ∃ rest buf, turn fs blockId ids blockData = .ok (some img, rest, buf)

theorem recoverFiles_of_turn_ok {fs : Ext2FS} {id : ℕ} {ids rest : List ℕ} {buf buf' : List UInt8}
    {img : Option (List UInt8)} (h : turn fs id ids buf = .ok (img, rest, buf'))
    (imgs : List (List UInt8)) :
    recoverFiles fs (id :: ids) buf imgs = recoverFiles fs rest buf' (imgs ++ img.toList) := by
  rw [recoverFiles]
  split
  next e herror => simp [h] at herror
  next img' rest' buf'' hok =>
    rw [h] at hok
    obtain ⟨rfl, rfl, rfl⟩ := by simpa using hok
    rfl

/-- An image that is pushed is one of those that are written to files. -/
theorem Pushes.recoverFiles_eq {fs : Ext2FS} {blockId : ℕ} {ids : List ℕ}
    {blockData img : List UInt8} (h : Pushes fs blockId ids blockData img) : ∃ rest buf, ∀ imgs,
      recoverFiles fs (blockId :: ids) blockData imgs = recoverFiles fs rest buf (imgs ++ [img]) := by
  obtain ⟨rest, buf, hturn⟩ := h
  exact ⟨rest, buf, recoverFiles_of_turn_ok hturn⟩

/-! ## The blocks that are copied -/

namespace Ext2FS

/-- The block can be read. -/
def Readable (fs : Ext2FS) (blockId : ℕ) : Prop := (fs.readBlock blockId []).1 = .ok ()

/-- The contents of a block. -/
def blockRead (fs : Ext2FS) (blockId : ℕ) : List UInt8 := (fs.readBlock blockId []).2

/-- A block that can be read gives its contents, whatever the buffer holds. -/
theorem Readable.readBlock_eq {fs : Ext2FS} {blockId : ℕ} (h : fs.Readable blockId)
    (buf : List UInt8) : fs.readBlock blockId buf = (.ok (), fs.blockRead blockId) := by
  rw [← (fs.readBlock_congr blockId [] buf).2 h]
  exact Prod.ext h rfl

end Ext2FS

/-- The contents of those of the free blocks that are data blocks of the file, by their running index
behind `blockCnt` and as far as the largest file reaches. -/
def dataBlocks (fs : Ext2FS) : List ℕ → ℕ → List (List UInt8)
  | [], _ => []
  | blockId :: ids, blockCnt =>
    match fs.blockIsIndirect (blockCnt + 1) with
    | .ok false => fs.blockRead blockId :: dataBlocks fs ids (blockCnt + 1)
    | .ok true | .error _ => dataBlocks fs ids (blockCnt + 1)

/-- Behind the largest file there are no further blocks. -/
theorem blockIsIndirect_error {blockDist block block' : ℕ} {e : Failure}
    (h : blockIsIndirect blockDist block = .error e) (hle : block ≤ block') :
    ∃ e', blockIsIndirect blockDist block' = .error e' := by
  unfold blockIsIndirect at h ⊢
  dsimp only at h ⊢
  by_cases hoverflow : 2 ^ 64 ≤ 12 + blockDist + blockDist ^ 2 + blockDist ^ 3 +
      (1 + 1 + blockDist + 1 + blockDist + blockDist * blockDist)
  · rw [if_pos hoverflow]
    exact ⟨_, rfl⟩
  rw [if_neg hoverflow] at h ⊢
  by_cases hlt : block < 12 + blockDist + blockDist ^ 2 + blockDist ^ 3 +
      (1 + 1 + blockDist + 1 + blockDist + blockDist * blockDist)
  · rw [if_neg (not_not.mpr hlt)] at h
    split_ifs at h
    next hzero =>
      -- blocks without room for a number: the assertion fails for all further blocks
      obtain ⟨hgt, rfl⟩ := hzero
      by_cases hlt' : block' = 14
      · subst hlt'
        exact ⟨_, rfl⟩
      · rw [if_pos (by omega)]
        exact ⟨_, rfl⟩
  · rw [if_pos (by omega)]
    exact ⟨_, rfl⟩

theorem dataBlocks_of_error {fs : Ext2FS} {block blockCnt : ℕ} {e : Failure}
    (h : fs.blockIsIndirect block = .error e) (hle : block ≤ blockCnt + 1) (ids : List ℕ) :
    dataBlocks fs ids blockCnt = [] := by
  -- the indices grow, and so stay behind the largest file
  induction ids generalizing blockCnt with
  | nil => rfl
  | cons blockId ids ih =>
    obtain ⟨e', he'⟩ : ∃ e', fs.blockIsIndirect (blockCnt + 1) = .error e' := by
      unfold Ext2FS.blockIsIndirect at h ⊢
      cases hsize : fs.superblock.blockSize with
      | error e' => exact ⟨e', rfl⟩
      | ok size =>
        rw [hsize] at h
        exact blockIsIndirect_error h hle
    rw [dataBlocks, he']
    exact ih (by omega)

/-- **The inner loop is a search in chunks**, of which each is the contents of a data block. -/
theorem collect_eq_some_iff {fs : Ext2FS} {ids : List ℕ} (h : ∀ id ∈ ids, fs.Readable id)
    (buf img : List UInt8) (blockCnt : ℕ) (out : List UInt8) :
    (∃ rest buf', collect fs ids buf img blockCnt = .ok (some out, rest, buf')) ↔
      (firstIn jfifEoi (dataBlocks fs ids blockCnt)).map (img ++ ·) = some out := by
  induction ids generalizing buf img blockCnt with
  | nil => simp [collect, dataBlocks, firstIn]
  | cons blockId ids ih =>
    have hread := (h blockId List.mem_cons_self).readBlock_eq buf
    have ih := ih fun id hid => h id (List.mem_cons_of_mem _ hid)
    rw [collect, hread, dataBlocks]
    dsimp only
    cases hkind : fs.blockIsIndirect (blockCnt + 1) with
    | error e =>
      dsimp only
      rw [dataBlocks_of_error hkind (by omega)]
      simp [firstIn]
    | ok kind =>
      cases kind with
      | true => exact ih _ _ _
      | false =>
        dsimp only
        rw [firstIn, patternPosition, List.drop_zero]
        cases (windows jfifEoi.length (fs.blockRead blockId)).findIdx?
            (fun window => window == jfifEoi) with
        | some fin => simp
        | none =>
          -- the block goes into the image, which the induction carries along
          dsimp only
          rw [ih, Option.map_map]
          simp only [Function.comp_def, List.append_assoc]

/-! ## The image -/

theorem jfifEoi_ne_nil : jfifEoi ≠ [] := by simp [jfifEoi]

/-- A block with the header is not a block of zeros. -/
theorem all_zero_of_patternPosition {data : List UInt8} {start : ℕ}
    (h : patternPosition data jfifHeader 0 = some start) : data.all (· == 0) = false := by
  have hoccurs := ((findIdx?_windows_eq_some (by simp [jfifHeader])).mp h).occurs
  have hmem : (0xFF : UInt8) ∈ data := by
    refine List.mem_of_mem_drop (hoccurs.subset ?_)
    simp [jfifHeader]
  rw [List.all_eq_false]
  exact ⟨0xFF, hmem, by decide⟩

section Image

variable {fs : Ext2FS} {blockId start : ℕ} {ids : List ℕ}

/-- The contents of the block from the header on, and of the data blocks that follow. -/
def imageBlocks (fs : Ext2FS) (blockId : ℕ) (ids : List ℕ) (start : ℕ) : List (List UInt8) :=
  (fs.blockRead blockId).drop start :: dataBlocks fs ids 0

/-- The bytes that are pushed for an image with an end marker `fin` bytes behind its header in the
same block. The search counts from the header on, but the slice from the start of the block. -/
theorem turn_of_fin (ids : List ℕ) {fin : ℕ} (hread : fs.Readable blockId)
    (hstart : patternPosition (fs.blockRead blockId) jfifHeader 0 = some start)
    (hfin : patternPosition (fs.blockRead blockId) jfifEoi start = some fin) (buf : List UInt8) :
    turn fs blockId ids buf =
      if start ≤ fin + jfifEoi.length then
        .ok (some (((fs.blockRead blockId).take (fin + jfifEoi.length)).drop start), ids,
          fs.blockRead blockId)
      else panicked := by
  have hle := ((findIdx?_windows_eq_some jfifEoi_ne_nil).mp hfin).occurs.le jfifEoi_ne_nil
  rw [turn, hread.readBlock_eq buf]
  simp only [all_zero_of_patternPosition hstart, Bool.false_eq_true, if_false, hstart, hfin]
  by_cases hslice : start ≤ fin + jfifEoi.length
  · rw [if_pos ⟨hslice, by omega⟩, if_pos hslice]
  · rw [if_neg (fun h => hslice h.1), if_neg hslice]

/-- **An image in one block is pushed exactly** when it starts with the block. -/
theorem pushes_block_iff {fin : ℕ} (hread : fs.Readable blockId)
    (hstart : FirstFrom jfifHeader (fs.blockRead blockId) 0 start) (hle : start ≤ fin)
    (hfin : FirstFrom jfifEoi (fs.blockRead blockId) start (fin - start)) (buf : List UInt8) :
    Pushes fs blockId ids buf
        (((fs.blockRead blockId).take (fin + jfifEoi.length)).drop start) ↔ start = 0 := by
  have hend := hfin.occurs.le jfifEoi_ne_nil
  have hpos := List.length_pos_of_ne_nil jfifEoi_ne_nil
  have hturn := turn_of_fin ids hread
    ((findIdx?_windows_eq_some (by simp [jfifHeader])).mpr hstart)
    ((findIdx?_windows_eq_some jfifEoi_ne_nil).mpr hfin) buf
  rw [Pushes, hturn]
  constructor
  · rintro ⟨rest, buf', hpushed⟩
    split_ifs at hpushed with hslice
    · have himg := (Prod.mk.inj (Except.ok.inj hpushed)).1
      have hlength := congrArg List.length (Option.some.inj himg)
      simp only [List.length_drop, List.length_take] at hlength
      omega
    · simp [panicked] at hpushed
  · rintro rfl
    exact ⟨ids, fs.blockRead blockId, by rw [if_pos (Nat.zero_le _), Nat.sub_zero]⟩

/-- A block without an end marker behind its header is searched together with the blocks that
follow, each on its own. -/
theorem pushes_iff_firstIn (hread : ∀ id ∈ blockId :: ids, fs.Readable id)
    (hstart : patternPosition (fs.blockRead blockId) jfifHeader 0 = some start)
    (hfin : patternPosition (fs.blockRead blockId) jfifEoi start = none)
    (buf img : List UInt8) :
    Pushes fs blockId ids buf img ↔
      firstIn jfifEoi (imageBlocks fs blockId ids start) = some img := by
  have hdata := (hread blockId List.mem_cons_self).readBlock_eq buf
  have hids : ∀ id ∈ ids, fs.Readable id := fun id hid => hread id (List.mem_cons_of_mem _ hid)
  have hfind : (windows jfifEoi.length ((fs.blockRead blockId).drop start)).findIdx?
      (fun window => window == jfifEoi) = none := by
    have hnone := (findIdx?_windows_eq_none jfifEoi_ne_nil).mp hfin
    apply (find_windows_eq_none jfifEoi_ne_nil).mpr
    intro j hoccurs
    refine hnone j ?_
    rwa [OccursAt, List.drop_drop] at hoccurs
  rw [Pushes, turn, hdata]
  simp only [all_zero_of_patternPosition hstart, Bool.false_eq_true, if_false, hstart, hfin]
  rw [collect_eq_some_iff hids, imageBlocks, firstIn, hfind]

/-- **The program pushes the image up to its first end marker** exactly when the marker lies within
the contents of a block. -/
theorem pushes_iff {fin : ℕ} (hread : ∀ id ∈ blockId :: ids, fs.Readable id)
    (hstart : patternPosition (fs.blockRead blockId) jfifHeader 0 = some start)
    (hfin : patternPosition (fs.blockRead blockId) jfifEoi start = none)
    (hfirst : FirstFrom jfifEoi (imageBlocks fs blockId ids start).flatten 0 fin)
    (buf : List UInt8) :
    Pushes fs blockId ids buf
        ((imageBlocks fs blockId ids start).flatten.take (fin + jfifEoi.length)) ↔
      Within (imageBlocks fs blockId ids start) fin jfifEoi.length := by
  rw [pushes_iff_firstIn hread hstart hfin]
  exact firstIn_eq_iff jfifEoi_ne_nil hfirst

end Image

/-! ## An image on a volume -/

/-- A device of eight blocks of 1024 bytes: the superblock, the descriptor, the bitmap, in which
blocks 4 and 5 are free, an image that starts with block 4, and the end marker at `fin`. -/
def imageDevice (fin : ℕ) : File where
  len := 8192
  byteAt i :=
    if i = fin then 0xFF
    else if i = fin + 1 then 0xD9
    else if 4096 ≤ i then jfifHeader.getD (i - 4096) 0
    else ([(1028, 8), (1044, 1), (1056, 8), (1080, 0x53), (1081, 0xEF), (2048, 3),
      (3072, 0xE7)].lookup i).getD 0
  len_lt := eightBlocks_lt

/-- The volume on the device. -/
def imageVolume (fin : ℕ) : Ext2FS where
  device := imageDevice fin
  superblock := {
    s_blocks_count := 8
    s_first_data_block := 1
    s_log_block_size := 0
    s_blocks_per_group := 8
    s_magic := ext2SuperMagic }
  blockGroupDescriptorTables := [{ bg_block_bitmap := 3 }]

/-- The blocks of a volume of eight blocks of 1024 bytes. -/
theorem readBlock_of_lt {fs : Ext2FS} (hsize : fs.superblock.blockSize = .ok 1024)
    (hlen : fs.device.len = 8192) {id : ℕ} (h : id < 8) (buf : List UInt8) :
    fs.readBlock id buf = (.ok (), fs.device.bytes (id * 1024) 1024) :=
  (Ext2FS.readBlock_eq_ok hsize (by norm_num)).mpr ⟨by rw [hlen]; omega, rfl⟩

theorem readBlock_imageVolume (fin : ℕ) {id : ℕ} (h : id < 8) (buf : List UInt8) :
    (imageVolume fin).readBlock id buf = (.ok (), (imageDevice fin).bytes (id * 1024) 1024) :=
  readBlock_of_lt rfl rfl h buf

theorem blockRead_imageVolume (fin : ℕ) {id : ℕ} (h : id < 8) :
    (imageVolume fin).blockRead id = (imageDevice fin).bytes (id * 1024) 1024 := by
  rw [Ext2FS.blockRead, readBlock_imageVolume fin h]

theorem readable_imageVolume (fin : ℕ) : ∀ id ∈ [4, 5], (imageVolume fin).Readable id := by
  intro id hid
  simp only [List.mem_cons, List.not_mem_nil, or_false] at hid
  rw [Ext2FS.Readable, readBlock_imageVolume fin (by omega)]

theorem imageBlocks_imageVolume (fin : ℕ) : imageBlocks (imageVolume fin) 4 [5] 0 =
    [(imageDevice fin).bytes 4096 1024, (imageDevice fin).bytes 5120 1024] := by
  have hkind : (imageVolume fin).blockIsIndirect (0 + 1) = .ok false := by
    have hsize : (imageVolume fin).superblock.blockSize = .ok 1024 := rfl
    rw [Ext2FS.blockIsIndirect, hsize]
    norm_num [bind, Except.bind, Recovery.blockIsIndirect]
  rw [imageBlocks, dataBlocks, hkind, blockRead_imageVolume fin (by norm_num),
    blockRead_imageVolume fin (by norm_num)]
  rfl

/-- The program finds an end marker in front of a block. -/
theorem pushes_iff_front :
    Pushes (imageVolume 5120) 4 [5] []
        ((imageBlocks (imageVolume 5120) 4 [5] 0).flatten.take (1024 + jfifEoi.length)) ↔
      Within (imageBlocks (imageVolume 5120) 4 [5] 0) 1024 jfifEoi.length := by
  apply pushes_iff (readable_imageVolume 5120)
  · rw [blockRead_imageVolume _ (by norm_num)]
    decide +kernel
  · rw [blockRead_imageVolume _ (by norm_num)]
    decide +kernel
  · rw [imageBlocks_imageVolume, ← find_windows_eq_some jfifEoi_ne_nil]
    decide +kernel

/-- An image of 13 bytes at the start of a block. -/
theorem pushes_block_iff_start :
    Pushes (imageVolume 4107) 4 [5] []
        ((((imageVolume 4107).blockRead 4).take (11 + jfifEoi.length)).drop 0) ↔ 0 = 0 := by
  have hblock := blockRead_imageVolume 4107 (show 4 < 8 by norm_num)
  refine pushes_block_iff (readable_imageVolume 4107 4 (by simp)) ?_ (by norm_num) ?_ []
  · rw [hblock, ← find_windows_eq_some (by simp [jfifHeader])]
    decide +kernel
  · rw [hblock, ← find_windows_eq_some jfifEoi_ne_nil]
    decide +kernel

/-- The same volume with the image moved by one byte. -/
def movedVolume : Ext2FS where
  device := {
    len := 8192
    byteAt := fun i =>
      if i = 4096 then 0
      else if 4096 < i then (imageDevice 4107).byteAt (i - 1)
      else (imageDevice 4107).byteAt i
    len_lt := eightBlocks_lt }
  superblock := (imageVolume 4107).superblock
  blockGroupDescriptorTables := (imageVolume 4107).blockGroupDescriptorTables

/-- **An image behind the start of a block loses its end.** -/
theorem not_pushes_moved :
    movedVolume.Readable 4 ∧ FirstFrom jfifHeader (movedVolume.blockRead 4) 0 1 ∧
    FirstFrom jfifEoi (movedVolume.blockRead 4) 1 11 ∧
    ¬ Pushes movedVolume 4 [5] []
      (((movedVolume.blockRead 4).take (12 + jfifEoi.length)).drop 1) := by
  have hblock := readBlock_of_lt (show movedVolume.superblock.blockSize = _ from rfl) rfl
    (show 4 < 8 by norm_num) []
  have hread : movedVolume.Readable 4 := by
    rw [Ext2FS.Readable, hblock]
  have hdata : movedVolume.blockRead 4 = movedVolume.device.bytes (4 * 1024) 1024 := by
    rw [Ext2FS.blockRead, hblock]
  have hstart : patternPosition (movedVolume.blockRead 4) jfifHeader 0 = some 1 := by
    rw [hdata]
    decide +kernel
  have hfin : patternPosition (movedVolume.blockRead 4) jfifEoi 1 = some 11 := by
    rw [hdata]
    decide +kernel
  refine ⟨hread, (findIdx?_windows_eq_some (by simp [jfifHeader])).mp hstart,
    (findIdx?_windows_eq_some jfifEoi_ne_nil).mp hfin, ?_⟩
  rintro ⟨rest, buf, hpushed⟩
  -- the program pushes 12 bytes, and the image has 13
  rw [turn_of_fin [5] hread hstart hfin, if_pos (by decide)] at hpushed
  have himg := (Prod.mk.inj (Except.ok.inj hpushed)).1
  have hlength := congrArg List.length (Option.some.inj himg)
  have hsize : (movedVolume.blockRead 4).length = 1024 := by
    rw [hdata, File.length_bytes]
  have heoi : jfifEoi.length = 2 := rfl
  rw [List.length_drop, List.length_drop, List.length_take, List.length_take, hsize, heoi] at hlength
  omega

section ImageDevice

variable {fin : ℕ}

/-- In front of the image, the device does not depend on the end marker. -/
theorem bytes_imageDevice (h : 4096 ≤ fin) {offset n : ℕ} (hle : offset + n ≤ 4096) :
    (imageDevice fin).bytes offset n = (imageDevice 4096).bytes offset n := by
  refine List.map_congr_left fun i hi => ?_
  have hlt := List.mem_range.mp hi
  simp only [imageDevice]
  simp only [show offset + i ≠ fin by omega, show offset + i ≠ fin + 1 by omega,
    show offset + i ≠ 4096 by omega, show offset + i ≠ 4096 + 1 by omega,
    show ¬ 4096 ≤ offset + i by omega, if_false]

theorem blockGroupCount_imageVolume (fin : ℕ) :
    (imageVolume fin).superblock.blockGroupCount = .ok 1 :=
  show (imageVolume 0).superblock.blockGroupCount = .ok 1 by decide

/-- The program reads the volume from the device. -/
theorem tryFrom_imageDevice (h : 4096 ≤ fin) :
    Ext2FS.tryFrom (imageDevice fin) = .ok (imageVolume fin) := by
  have hlen : (imageDevice fin).len = 8192 := rfl
  have hsb : Superblock.fromFile (imageDevice fin) = .ok (imageVolume fin).superblock := by
    rw [Superblock.fromFile_of_le (by rw [hlen]; norm_num), bytes_imageDevice h (by norm_num)]
    have hsuper : Superblock.ofBytes ((imageDevice 4096).bytes 1024 84) =
        (imageVolume 4096).superblock := by decide +kernel
    rw [hsuper]
    rfl
  have hgdt : BlockGroupDescriptor.fromFile (imageDevice fin) = .ok ⟨3⟩ := by
    rw [BlockGroupDescriptor.fromFile_of_le (by rw [hlen]; norm_num),
      bytes_imageDevice h (by norm_num)]
    decide +kernel
  have hmagic : (imageVolume fin).superblock.isExt2 = true := rfl
  rw [Ext2FS.tryFrom_eq, hsb]
  simp only [bind, Except.bind, hmagic, if_true, blockGroupCount_imageVolume, hgdt,
    mapM_replicate_ok]
  rfl

theorem readBitmap_imageVolume (fin : ℕ) (buf : List UInt8) :
    (imageVolume fin).readBitmap 0 buf = (.ok (), ((imageDevice fin).bytes 3072 1024).take 1) := by
  have hgdt : (imageVolume fin).blockGroupDescriptorTables[0]? = some ⟨3⟩ := rfl
  exact (ValidGeometry.readBitmap_eq_ok (m := 1) rfl one_pos hgdt).mpr
    ⟨_, readBlock_imageVolume fin (show 3 < 8 by norm_num) buf, rfl⟩

theorem scannable_imageVolume (fin : ℕ) : Scannable (imageVolume fin) 1 := by
  have hbpg : (imageVolume fin).superblock.blocksPerGroup = 8 := rfl
  refine ⟨blockGroupCount_imageVolume fin, rfl, ⟨1, hbpg⟩, by rw [hbpg]; norm_num,
    ⟨1024, rfl, by rw [hbpg]; norm_num⟩, ?_⟩
  intro group hgroup
  obtain rfl : group = 0 := by omega
  rw [readBitmap_imageVolume]

/-- The free blocks are blocks 4 and 5. -/
theorem yields_imageVolume (h : 4096 ≤ fin) :
    ∃ it, (imageVolume fin).blockIter = .ok it ∧ it.Yields [4, 5] := by
  obtain ⟨it, hit, hfs, hid, hscan⟩ := (scannable_imageVolume fin).scanning (m := 1) rfl
  refine ⟨it, hit, ?_⟩
  have hbitmap : (imageVolume fin).bitmapRead 0 = [0xE7] := by
    rw [Ext2FS.bitmapRead, readBitmap_imageVolume, bytes_imageDevice h (by norm_num)]
    decide +kernel
  have hyields := hscan.yields
  have hfree : freeFrom (isFree (fun group => resize ((imageVolume fin).bitmapRead group) 1) 8) 7 1 =
      freeFrom (isFree (fun _ => [0xE7]) 8) 7 1 := by
    refine List.filter_congr fun p hp => ?_
    have hlt := (List.mem_range'_1.mp hp).2
    rw [isFree, isFree, Nat.div_eq_of_lt (by omega), hbitmap]
    rfl
  have hleft : it.left 1 (fun group => resize ((imageVolume fin).bitmapRead group) 1) = [3, 4] := by
    rw [BlockIter.left, hfs, hid]
    exact hfree
  rw [hleft, hfs] at hyields
  exact hyields

end ImageDevice

/-- **An end marker that straddles two blocks is missed.** -/
theorem not_pushes_straddling :
    Ext2FS.tryFrom (imageDevice 5119) = .ok (imageVolume 5119) ∧
    (∃ it, (imageVolume 5119).blockIter = .ok it ∧ it.Yields [4, 5]) ∧
    (∀ id ∈ [4, 5], (imageVolume 5119).Readable id) ∧
    patternPosition ((imageVolume 5119).blockRead 4) jfifHeader 0 = some 0 ∧
    patternPosition ((imageVolume 5119).blockRead 4) jfifEoi 0 = none ∧
    FirstFrom jfifEoi (imageBlocks (imageVolume 5119) 4 [5] 0).flatten 0 1023 ∧
    ¬ Pushes (imageVolume 5119) 4 [5] []
      ((imageBlocks (imageVolume 5119) 4 [5] 0).flatten.take (1023 + jfifEoi.length)) := by
  have hread := readable_imageVolume 5119
  have hstart : patternPosition ((imageVolume 5119).blockRead 4) jfifHeader 0 = some 0 := by
    rw [blockRead_imageVolume _ (by norm_num)]
    decide +kernel
  have hfin : patternPosition ((imageVolume 5119).blockRead 4) jfifEoi 0 = none := by
    rw [blockRead_imageVolume _ (by norm_num)]
    decide +kernel
  refine ⟨tryFrom_imageDevice (by norm_num), yields_imageVolume (by norm_num), hread, hstart, hfin,
    ?_, ?_⟩
  · rw [imageBlocks_imageVolume, ← find_windows_eq_some jfifEoi_ne_nil]
    decide +kernel
  · rw [pushes_iff_firstIn hread hstart hfin, imageBlocks_imageVolume]
    have hnone : firstIn jfifEoi [(imageDevice 5119).bytes 4096 1024,
        (imageDevice 5119).bytes 5120 1024] = none := by
      decide +kernel
    rw [hnone]
    exact (Option.some_ne_none _).symm

end Recovery
