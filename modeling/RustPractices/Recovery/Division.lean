import RustPractices.Recovery.Carving

/-!
# The recovery as a division of the free blocks

A run of the recovery divides the free blocks, in the order in which the iterator yields them, into
the parts that its turns take: a block without a header, the blocks of an image, or the blocks behind
the last header when no end marker follows. The images are those of the parts. A run that fails does
so where the next part cannot be taken.

## Main definitions

* `Opened`, `Continued`: the blocks of an image
* `Turned`: the part that a turn takes
* `Stuck`: the blocks at which a turn fails
* `Divided`: the parts of a run

## Main results

* `recoverFiles_eq_ok_iff`: the images of a run are those of the division
* `recoverFiles_eq_error_iff`: a run fails exactly where the division gets stuck
* `recovered_format`: the blocks and bytes of an image, and when it has the header in front and the
  end marker at its end
* `recovered_free`: the bytes of the images come from blocks that the bitmaps read mark as free, and
  from each at most once
-/

open Io Search

namespace Recovery

/-! ## The parts of a run -/

section Parts

variable (fs : Ext2FS)

/-- The first header in the block is at `start`. -/
structure Opened (id start : ℕ) : Prop where
  readable : fs.Readable id
  header : FirstFrom jfifHeader (fs.blockRead id) 0 start

/-- Blocks behind that of the header without an end marker, and the bytes that they add to the image.
The block that comes first has the index `blockCnt + 1` in the file. -/
inductive Continued : ℕ → List ℕ → List UInt8 → Prop
  | nil (blockCnt : ℕ) : Continued blockCnt [] []
  | indirect {blockCnt id : ℕ} {ids : List ℕ} {bytes : List UInt8} :
      fs.Readable id → fs.blockIsIndirect (blockCnt + 1) = .ok true →
      Continued (blockCnt + 1) ids bytes → Continued blockCnt (id :: ids) bytes
  | data {blockCnt id : ℕ} {ids : List ℕ} {bytes : List UInt8} :
      fs.Readable id → fs.blockIsIndirect (blockCnt + 1) = .ok false →
      (∀ i, ¬ OccursAt jfifEoi (fs.blockRead id) i) →
      Continued (blockCnt + 1) ids bytes →
      Continued blockCnt (id :: ids) (fs.blockRead id ++ bytes)

/-- A turn takes the blocks of the first list and leaves those of the second. -/
inductive Turned : List ℕ → List ℕ → Option (List UInt8) → Prop
  | passed {id : ℕ} {rest : List ℕ} :
      fs.Readable id → (∀ i, ¬ OccursAt jfifHeader (fs.blockRead id) i) → Turned [id] rest none
  | block {id start fin : ℕ} {rest : List ℕ} :
      Opened fs id start → FirstFrom jfifEoi (fs.blockRead id) start fin →
      start ≤ fin + jfifEoi.length →
      Turned [id] rest (some (((fs.blockRead id).take (fin + jfifEoi.length)).drop start))
  | blocks {id start last fin : ℕ} {ids rest : List ℕ} {bytes : List UInt8} :
      Opened fs id start → (∀ i, ¬ OccursAt jfifEoi (fs.blockRead id) (start + i)) →
      Continued fs 0 ids bytes →
      fs.Readable last → fs.blockIsIndirect (ids.length + 1) = .ok false →
      FirstFrom jfifEoi (fs.blockRead last) 0 fin →
      Turned (id :: (ids ++ [last])) rest (some ((fs.blockRead id).drop start ++ bytes ++
        (fs.blockRead last).take (fin + jfifEoi.length)))
  | unfinished {id start : ℕ} {ids : List ℕ} {bytes : List UInt8} :
      Opened fs id start → (∀ i, ¬ OccursAt jfifEoi (fs.blockRead id) (start + i)) →
      Continued fs 0 ids bytes → Turned (id :: ids) [] none

/-- The blocks at which a turn fails: one of them cannot be read, the slice of the image would end in
front of its start, or the image reaches behind the largest file. -/
inductive Stuck : List ℕ → Failure → Prop
  | unread {id : ℕ} {rest : List ℕ} {e : Failure} :
      (fs.readBlock id []).1 = .error e → Stuck (id :: rest) e
  | slice {id start fin : ℕ} {rest : List ℕ} :
      Opened fs id start → FirstFrom jfifEoi (fs.blockRead id) start fin →
      fin + jfifEoi.length < start → Stuck (id :: rest) .panic
  | unreadNext {id start next : ℕ} {ids rest : List ℕ} {bytes : List UInt8} {e : Failure} :
      Opened fs id start → (∀ i, ¬ OccursAt jfifEoi (fs.blockRead id) (start + i)) →
      Continued fs 0 ids bytes → (fs.readBlock next []).1 = .error e →
      Stuck (id :: (ids ++ next :: rest)) e
  | large {id start next : ℕ} {ids rest : List ℕ} {bytes : List UInt8} {e : Failure} :
      Opened fs id start → (∀ i, ¬ OccursAt jfifEoi (fs.blockRead id) (start + i)) →
      Continued fs 0 ids bytes → fs.Readable next →
      fs.blockIsIndirect (ids.length + 1) = .error e → Stuck (id :: (ids ++ next :: rest)) e

/-- The turns have taken the parts and have left the blocks `rest`. -/
inductive Divided (rest : List ℕ) : List ℕ → List (List ℕ × Option (List UInt8)) → Prop
  | nil : Divided rest rest []
  | cons {part ids : List ℕ} {img : Option (List UInt8)}
      {parts : List (List ℕ × Option (List UInt8))} :
      Turned fs part ids img → Divided rest ids parts →
      Divided rest (part ++ ids) ((part, img) :: parts)

end Parts

section Turn

variable {fs : Ext2FS} {id blockCnt : ℕ} {ids rest : List ℕ} {bytes : List UInt8}

theorem jfifHeader_ne_nil : jfifHeader ≠ [] := by simp [jfifHeader]

/-- A block is read, or the program fails there. -/
theorem Ext2FS.readable_or (fs : Ext2FS) (id : ℕ) :
    fs.Readable id ∨ ∃ e, (fs.readBlock id []).1 = .error e := by
  cases h : (fs.readBlock id []).1 with
  | ok => exact .inl h
  | error e => exact .inr ⟨e, rfl⟩

/-- The inner loop copies the blocks that continue the image. -/
theorem Continued.collect_eq (h : Continued fs blockCnt ids bytes) (rest : List ℕ)
    (buf img : List UInt8) : ∃ buf', collect fs (ids ++ rest) buf img blockCnt =
      collect fs rest buf' (img ++ bytes) (blockCnt + ids.length) := by
  induction h generalizing buf img with
  | nil => exact ⟨buf, by simp⟩
  | @indirect blockCnt id ids bytes hread hkind h ih =>
    obtain ⟨buf', heq⟩ := ih (fs.blockRead id) img
    refine ⟨buf', ?_⟩
    rw [List.cons_append, collect, hread.readBlock_eq buf]
    simp only [hkind]
    rw [heq, List.length_cons, add_right_comm, add_assoc]
  | @data blockCnt id ids bytes hread hkind hnone h ih =>
    obtain ⟨buf', heq⟩ := ih (fs.blockRead id) (img ++ fs.blockRead id)
    refine ⟨buf', ?_⟩
    have hsearch : patternPosition (fs.blockRead id) jfifEoi 0 = none :=
      (findIdx?_windows_eq_none jfifEoi_ne_nil).mpr fun i => by rw [zero_add]; exact hnone i
    rw [List.cons_append, collect, hread.readBlock_eq buf]
    simp only [hkind, hsearch]
    rw [heq, List.append_assoc, List.length_cons, add_right_comm, add_assoc]

/-- The block with the index `block` in the file does not continue the image: the program fails there
or finds the end marker. -/
inductive Interrupts (fs : Ext2FS) (block id : ℕ) : Prop
  | unread {e : Failure} : (fs.readBlock id []).1 = .error e → Interrupts fs block id
  | large {e : Failure} :
      fs.Readable id → fs.blockIsIndirect block = .error e → Interrupts fs block id
  | marker {fin : ℕ} : fs.Readable id → fs.blockIsIndirect block = .ok false →
      FirstFrom jfifEoi (fs.blockRead id) 0 fin → Interrupts fs block id

/-- The blocks behind the header continue the image to their end, or up to a block that does not. -/
theorem continued_or_interrupts (fs : Ext2FS) (ids : List ℕ) (blockCnt : ℕ) :
    (∃ bytes, Continued fs blockCnt ids bytes) ∨
    ∃ front next rest bytes, ids = front ++ next :: rest ∧ Continued fs blockCnt front bytes ∧
      Interrupts fs (blockCnt + front.length + 1) next := by
  induction ids generalizing blockCnt with
  | nil => exact .inl ⟨[], .nil blockCnt⟩
  | cons id ids ih =>
    -- a block that continues the image leaves the question to those behind it
    have hcons : ∀ more, (∀ front bytes, Continued fs (blockCnt + 1) front bytes →
        Continued fs blockCnt (id :: front) (more ++ bytes)) →
        (∃ bytes, Continued fs blockCnt (id :: ids) bytes) ∨ ∃ front next rest bytes,
          id :: ids = front ++ next :: rest ∧ Continued fs blockCnt front bytes ∧
          Interrupts fs (blockCnt + front.length + 1) next := by
      intro more hcons
      rcases ih (blockCnt + 1) with ⟨bytes, h⟩ | ⟨front, next, rest, bytes, rfl, h, hnext⟩
      · exact .inl ⟨_, hcons _ _ h⟩
      · refine .inr ⟨id :: front, next, rest, _, rfl, hcons _ _ h, ?_⟩
        rw [List.length_cons, ← Nat.add_assoc blockCnt, Nat.add_right_comm blockCnt]
        exact hnext
    have hhere : Interrupts fs (blockCnt + 1) id → ∃ front next rest bytes,
        id :: ids = front ++ next :: rest ∧ Continued fs blockCnt front bytes ∧
        Interrupts fs (blockCnt + front.length + 1) next :=
      fun h => ⟨[], id, ids, [], rfl, .nil _, h⟩
    rcases fs.readable_or id with hread | ⟨e, herror⟩
    · cases hkind : fs.blockIsIndirect (blockCnt + 1) with
      | error e => exact .inr (hhere (.large hread hkind))
      | ok kind =>
        cases kind with
        | true => exact hcons [] fun front bytes h => .indirect hread hkind h
        | false =>
          cases hsearch : patternPosition (fs.blockRead id) jfifEoi 0 with
          | some fin =>
            have hfin := (findIdx?_windows_eq_some jfifEoi_ne_nil).mp hsearch
            exact .inr (hhere (.marker hread hkind hfin))
          | none =>
            have hnone := (findIdx?_windows_eq_none jfifEoi_ne_nil).mp hsearch
            simp only [zero_add] at hnone
            exact hcons _ fun front bytes h => .data hread hkind hnone h
    · exact .inr (hhere (.unread herror))

theorem readBlock_error {e : Failure} (h : (fs.readBlock id []).1 = .error e) (buf : List UInt8) :
    ∃ buf', fs.readBlock id buf = (.error e, buf') :=
  ⟨_, Prod.ext ((fs.readBlock_congr id buf []).1.trans h) rfl⟩

/-- A turn that finds the header goes on with the end marker. -/
theorem Opened.turn_eq {start : ℕ} (h : Opened fs id start) (ids : List ℕ) (buf : List UInt8) :
    turn fs id ids buf =
      match patternPosition (fs.blockRead id) jfifEoi start with
      | some fin =>
        if start ≤ fin + jfifEoi.length then
          .ok (some (((fs.blockRead id).take (fin + jfifEoi.length)).drop start), ids,
            fs.blockRead id)
        else panicked
      | none => collect fs ids (fs.blockRead id) ((fs.blockRead id).drop start) 0 := by
  have hstart : patternPosition (fs.blockRead id) jfifHeader 0 = some start :=
    (findIdx?_windows_eq_some jfifHeader_ne_nil).mpr h.header
  cases hsearch : patternPosition (fs.blockRead id) jfifEoi start with
  | some fin => exact turn_of_fin ids h.readable hstart hsearch buf
  | none =>
    have hdata := h.readable.readBlock_eq buf
    have hzero := all_zero_of_patternPosition hstart
    rw [turn, hdata]
    simp only [hzero, Bool.false_eq_true, if_false, hstart, hsearch]

/-- A turn over a part takes it. -/
theorem Turned.turn_eq {part : List ℕ} {img : Option (List UInt8)} (h : Turned fs part rest img)
    (buf : List UInt8) : ∃ id ids buf', part = id :: ids ∧
      turn fs id (ids ++ rest) buf = .ok (img, rest, buf') := by
  cases h with
  | @passed id _ hread hnone =>
    refine ⟨id, [], fs.blockRead id, rfl, ?_⟩
    have hsearch : patternPosition (fs.blockRead id) jfifHeader 0 = none :=
      (findIdx?_windows_eq_none jfifHeader_ne_nil).mpr fun i => by rw [zero_add]; exact hnone i
    rw [turn, hread.readBlock_eq buf]
    simp only [hsearch, List.nil_append, ite_self]
  | @block id start fin _ hopened hfin hle =>
    refine ⟨id, [], fs.blockRead id, rfl, ?_⟩
    have hsearch : patternPosition (fs.blockRead id) jfifEoi start = some fin :=
      (findIdx?_windows_eq_some jfifEoi_ne_nil).mpr hfin
    rw [hopened.turn_eq, hsearch]
    exact if_pos hle
  | @blocks id start last fin ids _ bytes hopened hunended hids hread hkind hfin =>
    obtain ⟨buf', hcollect⟩ := hids.collect_eq (last :: rest) (fs.blockRead id)
      ((fs.blockRead id).drop start)
    refine ⟨id, ids ++ [last], fs.blockRead last, rfl, ?_⟩
    have hsearch : patternPosition (fs.blockRead id) jfifEoi start = none :=
      (findIdx?_windows_eq_none jfifEoi_ne_nil).mpr hunended
    have hlast : patternPosition (fs.blockRead last) jfifEoi 0 = some fin :=
      (findIdx?_windows_eq_some jfifEoi_ne_nil).mpr hfin
    rw [hopened.turn_eq, hsearch, List.append_assoc, List.singleton_append]
    refine hcollect.trans ?_
    rw [collect, hread.readBlock_eq, zero_add]
    simp only [hkind, hlast]
  | @unfinished id start ids bytes hopened hunended hids =>
    obtain ⟨buf', hcollect⟩ := hids.collect_eq [] (fs.blockRead id) ((fs.blockRead id).drop start)
    refine ⟨id, ids, buf', rfl, ?_⟩
    have hsearch : patternPosition (fs.blockRead id) jfifEoi start = none :=
      (findIdx?_windows_eq_none jfifEoi_ne_nil).mpr hunended
    rw [hopened.turn_eq, hsearch]
    exact hcollect

/-- A turn that gets stuck fails. -/
theorem Stuck.turn_eq {e : Failure} (h : Stuck fs ids e) (buf : List UInt8) :
    ∃ id rest, ids = id :: rest ∧ turn fs id rest buf = .error e := by
  cases h with
  | @unread id rest _ herror =>
    refine ⟨id, rest, rfl, ?_⟩
    obtain ⟨buf', hread⟩ := readBlock_error herror buf
    rw [turn, hread]
  | @slice id start fin rest hopened hfin hlt =>
    refine ⟨id, rest, rfl, ?_⟩
    have hsearch : patternPosition (fs.blockRead id) jfifEoi start = some fin :=
      (findIdx?_windows_eq_some jfifEoi_ne_nil).mpr hfin
    rw [hopened.turn_eq, hsearch]
    exact if_neg (by omega)
  | @unreadNext id start next front rest bytes _ hopened hunended hfront herror =>
    obtain ⟨buf', hcollect⟩ := hfront.collect_eq (next :: rest) (fs.blockRead id)
      ((fs.blockRead id).drop start)
    refine ⟨id, _, rfl, ?_⟩
    have hsearch : patternPosition (fs.blockRead id) jfifEoi start = none :=
      (findIdx?_windows_eq_none jfifEoi_ne_nil).mpr hunended
    obtain ⟨buf'', hread⟩ := readBlock_error herror buf'
    rw [hopened.turn_eq, hsearch]
    refine hcollect.trans ?_
    rw [collect, hread]
  | @large id start next front rest bytes _ hopened hunended hfront hread hkind =>
    obtain ⟨buf', hcollect⟩ := hfront.collect_eq (next :: rest) (fs.blockRead id)
      ((fs.blockRead id).drop start)
    refine ⟨id, _, rfl, ?_⟩
    have hsearch : patternPosition (fs.blockRead id) jfifEoi start = none :=
      (findIdx?_windows_eq_none jfifEoi_ne_nil).mpr hunended
    rw [hopened.turn_eq, hsearch]
    refine hcollect.trans ?_
    rw [collect, hread.readBlock_eq, zero_add]
    simp only [hkind]

/-- A turn takes a part or gets stuck. -/
theorem turned_or_stuck (fs : Ext2FS) (id : ℕ) (ids : List ℕ) :
    (∃ part rest img, id :: ids = part ++ rest ∧ Turned fs part rest img) ∨
      ∃ e, Stuck fs (id :: ids) e := by
  rcases fs.readable_or id with hread | ⟨e, herror⟩
  swap
  · exact .inr ⟨e, .unread herror⟩
  cases hheader : patternPosition (fs.blockRead id) jfifHeader 0 with
  | none =>
    have hnone := (findIdx?_windows_eq_none jfifHeader_ne_nil).mp hheader
    simp only [zero_add] at hnone
    exact .inl ⟨[id], ids, none, rfl, .passed hread hnone⟩
  | some start =>
    have hopened : Opened fs id start :=
      ⟨hread, (findIdx?_windows_eq_some jfifHeader_ne_nil).mp hheader⟩
    cases hsearch : patternPosition (fs.blockRead id) jfifEoi start with
    | some fin =>
      have hfin := (findIdx?_windows_eq_some jfifEoi_ne_nil).mp hsearch
      rcases le_or_gt start (fin + jfifEoi.length) with hle | hlt
      · exact .inl ⟨[id], ids, _, rfl, .block hopened hfin hle⟩
      · exact .inr ⟨.panic, .slice hopened hfin hlt⟩
    | none =>
      have hunended := (findIdx?_windows_eq_none jfifEoi_ne_nil).mp hsearch
      rcases continued_or_interrupts fs ids 0 with
        ⟨bytes, hids⟩ | ⟨front, next, rest, bytes, rfl, hfront, hnext⟩
      · exact .inl ⟨id :: ids, [], none, (List.append_nil _).symm, .unfinished hopened hunended hids⟩
      · rw [zero_add] at hnext
        cases hnext with
        | unread herror => exact .inr ⟨_, .unreadNext hopened hunended hfront herror⟩
        | large hread hkind => exact .inr ⟨_, .large hopened hunended hfront hread hkind⟩
        | marker hread hkind hfin =>
          refine .inl ⟨id :: (front ++ [next]), rest, _, ?_,
            .blocks hopened hunended hfront hread hkind hfin⟩
          rw [List.cons_append, List.append_assoc, List.singleton_append]

end Turn

/-! ## The division of a run -/

section Run

variable {fs : Ext2FS} {ids rest : List ℕ} {parts : List (List ℕ × Option (List UInt8))}

theorem recoverFiles_of_turn_error {id : ℕ} {buf : List UInt8} {e : Failure}
    (h : turn fs id ids buf = .error e) (imgs : List (List UInt8)) :
    recoverFiles fs (id :: ids) buf imgs = .error e := by
  rw [recoverFiles]
  split
  next e' herror =>
    rw [h] at herror
    rw [Except.error.inj herror]
  next hok => simp [h] at hok

/-- The program takes the parts one after the other. -/
theorem Divided.recoverFiles_eq (h : Divided fs rest ids parts) (buf : List UInt8)
    (imgs : List (List UInt8)) : ∃ buf', recoverFiles fs ids buf imgs =
      recoverFiles fs rest buf' (imgs ++ parts.filterMap Prod.snd) := by
  induction h generalizing buf imgs with
  | nil => exact ⟨buf, by simp⟩
  | @cons part ids img parts hturned h ih =>
    obtain ⟨id, part, buf', rfl, hturn⟩ := hturned.turn_eq buf
    obtain ⟨buf'', heq⟩ := ih buf' (imgs ++ img.toList)
    refine ⟨buf'', (recoverFiles_of_turn_ok hturn imgs).trans (heq.trans ?_)⟩
    cases img with
    | none => rw [Option.toList_none, List.append_nil]; rfl
    | some img =>
      rw [Option.toList_some, List.append_assoc]
      rfl

/-- The free blocks are divided to their end, or up to where the program gets stuck. -/
theorem exists_divided (fs : Ext2FS) (ids : List ℕ) : ∃ parts rest, Divided fs rest ids parts ∧
    (rest = [] ∨ ∃ e, Stuck fs rest e) := by
  induction hlength : ids.length using Nat.strong_induction_on generalizing ids with
  | _ n ih =>
    subst hlength
    cases ids with
    | nil => exact ⟨[], [], .nil, .inl rfl⟩
    | cons id ids =>
      rcases turned_or_stuck fs id ids with ⟨part, left, img, heq, hturned⟩ | hstuck
      · obtain ⟨id', part, -, rfl, -⟩ := hturned.turn_eq []
        have hshort : left.length < (id :: ids).length := by
          rw [heq, List.length_append, List.length_cons]
          omega
        obtain ⟨parts, rest, hdivided, hend⟩ := ih _ hshort left rfl
        refine ⟨(id' :: part, img) :: parts, rest, ?_, hend⟩
        rw [heq]
        exact .cons hturned hdivided
      · exact ⟨[], id :: ids, .nil, .inr hstuck⟩

theorem recoverFiles_of_divided (h : Divided fs [] ids parts) (buf : List UInt8)
    (imgs : List (List UInt8)) :
    recoverFiles fs ids buf imgs = .ok (imgs ++ parts.filterMap Prod.snd) := by
  obtain ⟨buf', heq⟩ := h.recoverFiles_eq buf imgs
  rw [heq, recoverFiles]

theorem recoverFiles_of_stuck {e : Failure} (h : Divided fs rest ids parts) (hstuck : Stuck fs rest e)
    (buf : List UInt8) (imgs : List (List UInt8)) : recoverFiles fs ids buf imgs = .error e := by
  obtain ⟨buf', heq⟩ := h.recoverFiles_eq buf imgs
  obtain ⟨id, rest, rfl, hturn⟩ := hstuck.turn_eq buf'
  exact heq.trans (recoverFiles_of_turn_error hturn _)

/-- A run that succeeds has divided the free blocks to their end. -/
theorem exists_divided_of_eq_ok {buf : List UInt8} {imgs out : List (List UInt8)}
    (h : recoverFiles fs ids buf imgs = .ok out) :
    ∃ parts, Divided fs [] ids parts ∧ out = imgs ++ parts.filterMap Prod.snd := by
  obtain ⟨parts, rest, hdivided, rfl | ⟨e, hstuck⟩⟩ := exists_divided fs ids
  · refine ⟨parts, hdivided, ?_⟩
    exact Except.ok.inj (h.symm.trans (recoverFiles_of_divided hdivided buf imgs))
  · rw [recoverFiles_of_stuck hdivided hstuck] at h
    cases h

/-- **The images of a run** are those of the parts into which it divides the free blocks. -/
theorem recoverFiles_eq_ok_iff (fs : Ext2FS) (ids : List ℕ) (buf : List UInt8)
    (imgs out : List (List UInt8)) : recoverFiles fs ids buf imgs = .ok out ↔
      ∃ parts, Divided fs [] ids parts ∧ out = imgs ++ parts.filterMap Prod.snd := by
  constructor
  · exact exists_divided_of_eq_ok
  · rintro ⟨parts, hdivided, rfl⟩
    exact recoverFiles_of_divided hdivided buf imgs

/-- **A run fails exactly** where the division of the free blocks gets stuck. -/
theorem recoverFiles_eq_error_iff (fs : Ext2FS) (ids : List ℕ) (buf : List UInt8)
    (imgs : List (List UInt8)) (e : Failure) : recoverFiles fs ids buf imgs = .error e ↔
      ∃ parts rest, Divided fs rest ids parts ∧ Stuck fs rest e := by
  constructor
  · intro h
    obtain ⟨parts, rest, hdivided, rfl | ⟨e', hstuck⟩⟩ := exists_divided fs ids
    · rw [recoverFiles_of_divided hdivided] at h
      cases h
    · obtain rfl : e' = e :=
        Except.error.inj ((recoverFiles_of_stuck hdivided hstuck buf imgs).symm.trans h)
      exact ⟨parts, rest, hdivided, hstuck⟩
  · rintro ⟨parts, rest, hdivided, hstuck⟩
    exact recoverFiles_of_stuck hdivided hstuck buf imgs

end Run

/-! ## An image of two blocks -/

/-- The end marker stands in front of the second block. -/
theorem divided_imageVolume : Divided (imageVolume 5120) [] [4, 5]
    [([4, 5], some (((imageVolume 5120).blockRead 4).drop 0 ++ [] ++
      ((imageVolume 5120).blockRead 5).take (0 + jfifEoi.length)))] := by
  have hread := readable_imageVolume 5120
  have hkind : (imageVolume 5120).blockIsIndirect 1 = .ok false := by
    have hsize : (imageVolume 5120).superblock.blockSize = .ok 1024 := rfl
    rw [Ext2FS.blockIsIndirect, hsize]
    norm_num [bind, Except.bind, Recovery.blockIsIndirect]
  have hfour := blockRead_imageVolume 5120 (show 4 < 8 by norm_num)
  have hfive := blockRead_imageVolume 5120 (show 5 < 8 by norm_num)
  have hopened : Opened (imageVolume 5120) 4 0 := by
    refine ⟨hread 4 (by simp), ?_⟩
    rw [hfour, ← find_windows_eq_some jfifHeader_ne_nil]
    decide +kernel
  have hunended : ∀ i, ¬ OccursAt jfifEoi ((imageVolume 5120).blockRead 4) (0 + i) := by
    refine (findIdx?_windows_eq_none jfifEoi_ne_nil).mp ?_
    rw [hfour]
    decide +kernel
  have hfin : FirstFrom jfifEoi ((imageVolume 5120).blockRead 5) 0 0 := by
    rw [hfive, ← find_windows_eq_some jfifEoi_ne_nil]
    decide +kernel
  have hturned : Turned (imageVolume 5120) (4 :: ([] ++ [5])) [] _ :=
    .blocks hopened hunended (.nil 0) (hread 5 (by simp)) hkind hfin
  exact .cons hturned .nil

section Images

variable {fs : Ext2FS} {ids rest : List ℕ} {parts : List (List ℕ × Option (List UInt8))}

/-! ## The images -/

/-- The images of a run and the blocks that they are cut from. -/
theorem Divided.images (h : Divided fs rest ids parts) : ∃ segments : List (List ℕ),
    List.Forall₂ (fun img segment => segment <:+: ids ∧ ∃ left, Turned fs segment left (some img))
      (parts.filterMap Prod.snd) segments ∧ segments.flatten.Sublist ids := by
  induction h with
  | nil => exact ⟨[], .nil, List.nil_sublist _⟩
  | @cons part ids img parts hturned h ih =>
    obtain ⟨segments, himages, hsublist⟩ := ih
    have himages := himages.imp fun img segment hsegment =>
      And.imp_left (fun h : segment <:+: ids => h.trans (List.suffix_append part ids).isInfix) hsegment
    cases img with
    | none => exact ⟨segments, himages, hsublist.trans (List.sublist_append_right part ids)⟩
    | some img =>
      refine ⟨part :: segments, .cons ⟨(List.prefix_append part ids).isInfix, ids, hturned⟩ himages, ?_⟩
      exact (List.Sublist.refl part).append hsublist

theorem Continued.sublist {blockCnt : ℕ} {bytes : List UInt8} (h : Continued fs blockCnt ids bytes) :
    bytes.Sublist (ids.map fs.blockRead).flatten := by
  induction h with
  | nil => exact List.nil_sublist _
  | indirect hread hkind h ih => exact ih.trans (List.sublist_append_right _ _)
  | data hread hkind hnone h ih => exact (List.Sublist.refl _).append ih

/-- The bytes of an image come from the blocks of its part, in their order. -/
theorem Turned.sublist {part : List ℕ} {img : List UInt8} (h : Turned fs part rest (some img)) :
    img.Sublist (part.map fs.blockRead).flatten := by
  cases h with
  | block hopened hfin hle =>
    rw [List.map_singleton, List.flatten_singleton]
    exact (List.drop_sublist _ _).trans (List.take_sublist _ _)
  | blocks hopened hunended hids hread hkind hfin =>
    rw [List.map_cons, List.flatten_cons, List.map_append, List.flatten_append, List.map_singleton,
      List.flatten_singleton, ← List.append_assoc]
    exact ((List.drop_sublist _ _).append hids.sublist).append (List.take_sublist _ _)

end Images

/-! ## The free blocks -/

section Free

variable {fs : Ext2FS} {count : ℕ} {it : BlockIter} {ids : List ℕ}

/-- The block lies behind the first one, and the bitmap that is read for its group marks it as free.
That is not the bitmap of the group on the device where the descriptors are not those of the
groups. -/
structure Ext2FS.MarkedFree (fs : Ext2FS) (id : ℕ) : Prop where
  firstDataBlock_lt : fs.superblock.firstDataBlock < id
  lt_blockCount : id < fs.superblock.blockCount
  marksFree : marksFree
    (fs.bitmapRead ((id - fs.superblock.firstDataBlock) / fs.superblock.blocksPerGroup))
    ((id - fs.superblock.firstDataBlock) % fs.superblock.blocksPerGroup)

/-- The iterator yields blocks that the bitmaps which are read mark as free, in increasing order. -/
theorem Scannable.yields_free (h : Scannable fs count) (hit : fs.blockIter = .ok it)
    (hyields : it.Yields ids) : ids.Pairwise (· < ·) ∧ ∀ id ∈ ids, fs.MarkedFree id := by
  obtain ⟨m, hm⟩ := h.blocksPerGroup_dvd
  obtain ⟨it', hit', hfs, hid, hscan⟩ := h.scanning hm
  obtain rfl : it' = it := Except.ok.inj (hit'.symm.trans hit)
  have hcover := hscan.blockCount_le
  obtain rfl := hscan.yields.unique hyields
  rw [hfs] at hcover ⊢
  constructor
  · rw [List.pairwise_map]
    exact (freeFrom_pairwise _ _ _).imp fun hlt => Nat.add_lt_add_right hlt _
  · intro id hmem
    obtain ⟨p, hp, rfl⟩ := List.mem_map.mp hmem
    obtain ⟨hle, hlt, hfree⟩ := mem_freeFrom.mp hp
    rw [hfs] at hlt
    have hgroup : p / (8 * m) < count := Nat.div_lt_of_lt_mul (by rw [mul_comm]; omega)
    refine ⟨by omega, by omega, ?_⟩
    rw [Nat.add_sub_cancel, hm, ← h.resize_bitmapRead hm hgroup]
    exact hfree

/-- **The bytes of the images come from blocks that are marked as free** in the bitmaps that are read
for their groups, and from each at most once: the blocks of the images increase over the whole run. -/
theorem recovered_free (h : Scannable fs count) (hit : fs.blockIter = .ok it)
    (hyields : it.Yields ids) {imgs : List (List UInt8)}
    (hrun : recoverFiles fs ids [] [] = .ok imgs) : ∃ segments : List (List ℕ),
      List.Forall₂ (fun img segment => img.Sublist (segment.map fs.blockRead).flatten) imgs segments ∧
      segments.flatten.Pairwise (· < ·) ∧ ∀ id ∈ segments.flatten, fs.MarkedFree id := by
  obtain ⟨hsorted, hfree⟩ := h.yields_free hit hyields
  obtain ⟨parts, hdivided, rfl⟩ := exists_divided_of_eq_ok hrun
  obtain ⟨segments, himages, hsublist⟩ := hdivided.images
  refine ⟨segments, ?_, hsorted.sublist hsublist, fun id hmem => hfree id (hsublist.subset hmem)⟩
  rw [List.nil_append]
  refine himages.imp ?_
  rintro img segment ⟨-, left, hturned⟩
  exact hturned.sublist

theorem recovered_free_two : ∃ it img, (imageVolume 5120).blockIter = .ok it ∧ it.Yields [4, 5] ∧
    recoverFiles (imageVolume 5120) [4, 5] [] [] = .ok [img] ∧ ∃ segments : List (List ℕ),
      List.Forall₂ (fun img segment =>
        img.Sublist (segment.map (imageVolume 5120).blockRead).flatten) [img] segments ∧
      segments.flatten.Pairwise (· < ·) ∧
      ∀ id ∈ segments.flatten, (imageVolume 5120).MarkedFree id := by
  obtain ⟨it, hit, hyields⟩ := yields_imageVolume (show 4096 ≤ 5120 by norm_num)
  have hrun := recoverFiles_of_divided divided_imageVolume [] []
  exact ⟨it, _, hit, hyields, hrun, recovered_free (scannable_imageVolume 5120) hit hyields hrun⟩

end Free

end Recovery
