import RustPractices.Channel.MpscBoundedCached.Steps

/-!
# What the channel with slices delivers

The positions are published and read in their order, so that the values of each producer are
received in the order in which they have been sent, and all of them before `recv` fails. Between the
calls, the counters count the positions, and no filled slice waits for anything but a slice that a
producer holds.

## Main definitions

* `Disconnects`: `recv` fails only when everything has been delivered
* `Counts`: the counters count the positions
* `Tiled`: the slices tile the positions that have not been published

## Main results

* `mpscBoundedCached_faithful`: the channel delivers what it has taken
* `mpscBoundedCached_disconnects`, `mpscBoundedCached_counts`, `mpscBoundedCached_tiled`: the others
  along every run
-/

open Transition Allocation

namespace Channel

namespace MpscBoundedCached

universe u

variable {T : Type u}

namespace Valid

variable {tr out : List (Event T)} {s t : State T} {x : ℕ} {p q : Producer T}

/-! ## What has been read -/

/-- What has been read at the positions from `a` on of one producer. -/
theorem valuesOf_reads (x : ℕ) (tr : List (Event T)) (n : ℕ) :
    valuesOf x tr (reads (written tr) 0 n) = (stream (written tr) x n).reduceOption := by
  rw [valuesOf, reads, stream, List.filterMap_map, List.reduceOption, List.filterMap_filterMap,
    List.range_eq_range']
  refine List.filterMap_congr fun pos _ => ?_
  cases hw : written tr pos with
  | none => simp [hw]
  | some w => by_cases hwx : w.1 = x <;> simp [hw, hwx]

theorem reads_append (written : ℕ → Option (ℕ × Option T)) (m n : ℕ) :
    reads written 0 m ++ reads written m n = reads written 0 (m + n) := by
  have hrange : List.range' 0 m ++ List.range' (0 + m) n = List.range' 0 (m + n) :=
    List.range'_append_1
  rw [reads, reads, ← List.map_append, reads, ← hrange, Nat.zero_add]

/-- What has been read in all. -/
theorem read_eq (h : Valid tr s) : ∃ n, popped tr ++ freed tr = reads (written tr) 0 n ∧
    n ≤ s.buf.readableTill ∧ (s.references = 0 → n = s.buf.readableTill) := by
  have hloaded := h.loaded_le
  have hpopped := h.popped_eq
  have hfreed := h.freed_eq
  generalize (popped tr).length = m at hloaded hpopped hfreed
  by_cases hzero : s.references = 0
  · refine ⟨s.buf.readableTill, ?_, le_rfl, fun _ => rfl⟩
    rw [hpopped, hfreed, if_pos hzero, reads_append, Nat.add_sub_cancel' (by omega)]
  · refine ⟨m, ?_, by omega, fun hz => absurd hz hzero⟩
    rw [hpopped, hfreed, if_neg hzero, List.append_nil]

/-- What has been received of a producer is what it has written at the positions that have been
read. -/
theorem received_eq (h : Valid tr s) (x : ℕ) :
    received x tr = (stream (written tr) x (popped tr).length).reduceOption := by
  rw [received, h.popped_eq, valuesOf_reads, ← h.popped_eq]

/-- When no producer is counted, everything that a producer has sent has been published. -/
theorem sent_eq (h : Valid tr s) (hcount : s.buf.pxCount = 0) (x : ℕ) :
    sent x tr = (stream (written tr) x s.buf.readableTill).reduceOption := by
  rw [(h.closed hcount).2.1]
  cases hx : s.px[x]? with
  | none =>
    obtain ⟨-, -, hsent, hnone⟩ := h.accounts.fresh x (List.getElem?_eq_none_iff.mp hx)
    rw [stream_eq_of_le (Nat.zero_le _) fun pos _ _ val => hnone pos val, hsent]
    rfl
  | some p =>
    have htaken := h.accounts.taken x p hx
    have hvalid := h.px x p hx
    rcases h.gone hcount hx with hpc | hpc
    all_goals
      simp only [Producer.Valid, hpc] at hvalid
      simpa only [Producer.sending, Producer.unstored, hpc, hvalid.2, List.append_nil,
        List.reduceOption_nil] using htaken

/-- A valid channel has delivered what it has taken. -/
theorem faithful (h : Valid tr s) : Faithful tr s where
  written_once := h.nodup
  not_overwritten := by
    intro x p slice copied val vals after pos hx hpc hunread htill
    have hown : view s.px Producer.own x = some (slice, copied) := by
      rw [view_eq hx, Producer.own, hpc]
    have hvalid := h.px x p hx
    simp only [Producer.Valid, hpc, List.length_cons] at hvalid
    obtain ⟨hstart, hstop, -⟩ := h.layout.own_bounds hown
    have htail := h.applying.tail_le
    have hloaded := h.loaded_le
    have hlength := hvalid.2.2
    have hslot : s.buf.slot pos = pos % s.buf.capacity := slotOf_eq h.capacity pos
    rw [h.head_eq] at hunread
    rw [hslot, storeSlot_eq h.capacity (by omega)]
    intro heq
    have := eq_of_slot_eq heq (by omega) (by omega)
    omega
  read_written := by
    intro head hcx'
    have hcx := h.cx
    have hlen := h.merging.len_le
    rw [hcx'] at hcx
    obtain ⟨rfl, -, hpos⟩ := hcx
    obtain ⟨⟨x, val⟩, hwritten⟩ := h.layout.published _ (show (popped tr).length < _ by omega)
    have hslot : s.buf.slot (popped tr).length = (popped tr).length % s.buf.capacity :=
      slotOf_eq h.capacity _
    have hloaded : s.cx.loaded = 0 := by rw [hcx']; rfl
    exact ⟨x, val, hwritten, by rw [hslot, h.layout.holds _ x val (by omega) hwritten]⟩
  read_in_order := by
    obtain ⟨n, hread, -, -⟩ := h.read_eq
    rw [hread, reads, List.map_map, List.length_map, List.length_range', List.range_eq_range']
    exact List.map_id _
  result_written := by
    obtain ⟨n, hread, hle, -⟩ := h.read_eq
    rw [hread]
    intro result hresult
    obtain ⟨pos, hpos, rfl⟩ := List.mem_map.mp hresult
    obtain ⟨-, hlt⟩ := List.mem_range'_1.mp hpos
    obtain ⟨⟨x, val⟩, hwritten⟩ := h.layout.published pos (by omega)
    exact ⟨x, val, hwritten, by rw [hwritten]; rfl⟩
  received_prefix := by
    intro x
    have hle : (popped tr).length ≤ s.buf.tail.data := by
      have := h.loaded_le
      have := h.layout.till_le
      omega
    have hbegin := (stream_mono (written tr) x hle).filterMap id
    rw [h.received_eq]
    cases hx : s.px[x]? with
    | none =>
      obtain ⟨-, -, -, hnone⟩ := h.accounts.fresh x (List.getElem?_eq_none_iff.mp hx)
      rw [stream_eq_of_le (Nat.zero_le _) fun pos _ _ val => hnone pos val]
      exact List.nil_prefix
    | some p =>
      rw [Option.elim_some, h.accounts.taken x p hx]
      exact hbegin.trans (List.prefix_append _ _)
  answered_prefix := by
    intro x
    cases hx : s.px[x]? with
    | none =>
      obtain ⟨hcalled, hanswered, -, -⟩ := h.accounts.fresh x (List.getElem?_eq_none_iff.mp hx)
      rw [hcalled, hanswered]
    | some p => exact (h.accounts.calls x p hx).ordered
  dropped := by
    intro hpx hcx x
    have hzero : s.references = 0 := by
      have hsum : (s.px.map Producer.references).sum = 0 := by
        refine List.sum_eq_zero fun k hk => ?_
        obtain ⟨p, hp, rfl⟩ := List.mem_map.mp hk
        simp [Producer.references, hpx p hp]
      rw [h.references, MpscBoundedCached.references, hsum, hcx]
      rfl
    have hcount : s.buf.pxCount = 0 := by
      refine h.count.trans (List.sum_eq_zero fun k hk => ?_)
      obtain ⟨p, hp, rfl⟩ := List.mem_map.mp hk
      simp [Producer.count, hpx p hp]
    obtain ⟨n, hread, -, hall⟩ := h.read_eq
    have hvalues : valuesOf x tr (popped tr) ++ valuesOf x tr (freed tr) =
        valuesOf x tr (popped tr ++ freed tr) := (List.filterMap_append ..).symm
    rw [received, MpscBoundedCached.dropped, hvalues, hread, valuesOf_reads, hall hzero,
      h.sent_eq hcount]

end Valid

/-! ## The end of the producers -/

/-- **The channel is closed only when everything has been delivered.** -/
structure Disconnects (tr : List (Event T)) (s : State T) : Prop where
  /-- When `px_count` is 0, everything that has been handed out has been published. -/
  closed : s.buf.pxCount = 0 → s.buf.reserved = 0 ∧ s.buf.readableTill = s.buf.tail.data
  /-- `recv` fails only when all producers have been dropped and all that has been sent has been
  received. -/
  disconnected : .disconnected ∈ tr →
    (∀ p ∈ s.px, p.pc = .released ∨ p.pc = .dropped) ∧ ∀ x, received x tr = sent x tr

namespace Valid

variable {tr : List (Event T)} {s : State T}

/-- A valid channel is closed only when everything has been delivered. -/
theorem disconnects (h : Valid tr s) : Disconnects tr s where
  closed := by
    intro hcount
    obtain ⟨hreserved, htill, -⟩ := h.closed hcount
    exact ⟨hreserved, htill⟩
  disconnected := by
    intro hmem
    obtain ⟨hcount, hall⟩ := h.disconnected hmem
    refine ⟨fun p hp => ?_, fun x => ?_⟩
    · obtain ⟨x, hx⟩ := List.mem_iff_getElem?.mp hp
      exact h.gone hcount hx
    · rw [h.received_eq, hall, h.sent_eq hcount]

end Valid

/-! ## The counters -/

/-- The consumer is in `pop_front`. -/
def Recv.InPopFront : Recv T → Prop
  | .idle | .panicked | .released | .dropped => False
  | .isEmpty | .pxExist | .again _ | .reserved | .merge _ | .head | .load _ | .subLen _ _
  | .addFree _ _ => True

/-- No side is inside `apply`, `merge_with_filled_slices` or `pop_front`. A producer that waits for
the lock of `tail` is not counted as being inside. -/
structure State.Quiet (s : State T) : Prop where
  apply : ∀ p ∈ s.px, ¬ p.pc.Inside
  merge : ∀ p ∈ s.px, p.merging = none
  popFront : ¬ s.cx.InPopFront

/-- **The counters count the positions.** -/
structure Counts (s : State T) : Prop where
  head_le_tail : s.buf.head ≤ s.buf.tail.data
  tail_sub_head : s.buf.tail.data - s.buf.head ≤ s.buf.capacity
  /-- No counter is lowered by more than it holds. -/
  subFree : ∀ (p : Producer T) val slice, p ∈ s.px → p.pc = .subFree val slice →
    slice.len ≤ s.buf.free
  subReserved : ∀ (p : Producer T) n after, p ∈ s.px → p.pc = .merge (.subReserved n) after →
    n ≤ s.buf.reserved
  subReserved_cx : ∀ n, s.cx = .merge (.subReserved n) → n ≤ s.buf.reserved
  subLen : ∀ head res, s.cx = .subLen head res → 1 ≤ s.buf.len
  /-- Between the calls, the positions are readable, reserved or free. -/
  quiet : s.Quiet → s.buf.head ≤ s.buf.readableTill ∧ s.buf.readableTill ≤ s.buf.tail.data ∧
    s.buf.len = s.buf.readableTill - s.buf.head ∧
    s.buf.reserved = s.buf.tail.data - s.buf.readableTill ∧
    s.buf.len + s.buf.reserved ≤ s.buf.capacity ∧
    s.buf.free = s.buf.capacity - s.buf.len - s.buf.reserved

namespace Valid

variable {tr : List (Event T)} {s : State T}

/-- The consumer is not ahead of what has been published. -/
theorem head_le (h : Valid tr s) :
    (popped tr).length ≤ s.buf.head ∧ s.buf.head ≤ s.buf.readableTill := by
  have hcx := h.cx
  have hloaded := h.loaded_le
  have hlen := h.merging.len_le
  obtain ⟨buf, references, px, cx⟩ := s
  cases cx <;> simp only [Recv.Valid, Recv.loaded, Recv.left] at hcx hloaded hlen ⊢ <;> omega

/-- The counters of a valid channel count the positions. -/
theorem counts (h : Valid tr s) : Counts s where
  head_le_tail := h.head_le.2.trans h.layout.till_le
  tail_sub_head := by
    have hhead := h.head_le
    have htail := h.applying.tail_le
    omega
  subFree := by
    intro p val slice hp hpc
    obtain ⟨x, hx⟩ := List.mem_iff_getElem?.mp hp
    have hknows := h.applying.locked.of_inside (pcs_eq hx) (hpc ▸ trivial)
    rw [hpc] at hknows
    exact hknows.2
  subReserved := by
    intro p n after hp hpc
    obtain ⟨x, hx⟩ := List.mem_iff_getElem?.mp hp
    have hle := h.excess_le hx
    rwa [Producer.excess, hpc] at hle
  subReserved_cx := by
    intro n hcx'
    have hcx := h.cx
    rw [hcx'] at hcx
    exact hcx.elim
  subLen := by
    intro head res hcx'
    have hcx := h.cx
    rw [hcx'] at hcx
    exact hcx.2.2.1
  quiet := by
    intro hquiet
    -- whoever holds the lock of `tail` is inside `apply`
    have hholder : s.buf.tail.holder = none := by
      by_contra hne
      obtain ⟨x, hx⟩ := Option.ne_none_iff_exists'.mp hne
      obtain ⟨pc, hpc, hinside⟩ := (h.applying.locked.inside_iff x).mpr hx
      obtain ⟨p, hp, rfl⟩ : ∃ p, s.px[x]? = some p ∧ p.pc = pc := by
        simpa [pcs, view, Option.bind_eq_some_iff] using hpc
      exact hquiet.apply p (List.mem_of_getElem? hp) hinside
    have hleft : s.buf.head = (popped tr).length ∧ s.cx.left = 0 := by
      have hcx := h.cx
      have hpop := hquiet.popFront
      generalize s.cx = cx at hcx hpop
      cases cx with
      | idle | panicked | released | dropped => exact ⟨hcx, rfl⟩
      | _ => exact absurd trivial hpop
    have hfree := h.applying.locked.free hholder
    have hlen := (h.merging.settled (merging_eq_none hquiet.merge)).1.len
    have hreserved := h.reserved_eq fun p hp => by
      refine ⟨Producer.unreserved_eq_zero (hquiet.apply p hp), ?_⟩
      rw [Producer.excess_eq, hquiet.merge p hp]
      rfl
    have hhead := h.head_le.2
    have htill := h.layout.till_le
    refine ⟨hhead, htill, ?_, ?_, ?_, ?_⟩ <;> omega

end Valid

/-! ## The slices -/

/-- The slices that producers hold, from the step of `apply` that allocates a slice to its insertion
into `filled_slices`, and, as those of nobody, the slices in `filled_slices`. -/
def State.Holds (s : State T) : Option ℕ → Slice → Prop
  | some x, slice => ∃ p, s.px[x]? = some p ∧ p.own.map Prod.fst = some slice
  | none, slice => slice ∈ s.buf.filledSlices.data

/-- No call of `merge_with_filled_slices` is in progress. -/
structure State.Unmerging (s : State T) : Prop where
  px : ∀ p ∈ s.px, p.merging = none
  cx : ∀ merge, s.cx ≠ .merge merge

/-- **The slices tile the positions that have not been published**, and none of the filled slices
waits without need. -/
structure Tiled (s : State T) : Prop where
  /-- Outside of the locked sections of `merge_with_filled_slices`, the slices are disjoint and
  cover the positions. -/
  tiles : s.buf.filledSlices.holder = none →
    Tiles s.Holds s.buf.readableTill s.buf.tail.data
  /-- Outside of the calls of `merge_with_filled_slices`, the first position that has not been
  published is the first one of a slice that a producer holds, if there is one. -/
  first : s.Unmerging →
    IsLeast {start | ∃ x slice, s.Holds (some x) slice ∧ slice.start = start} s.buf.readableTill ∨
      (∀ x slice, ¬ s.Holds (some x) slice) ∧ s.buf.readableTill = s.buf.tail.data
  /-- A filled slice waits for a slice before it. -/
  waits : s.Unmerging → ∀ slice ∈ s.buf.filledSlices.data,
    ∃ x held, s.Holds (some x) held ∧ held.start < slice.start

namespace Valid

variable {tr : List (Event T)} {s : State T}

theorem holds_iff {x : ℕ} {slice : Slice} :
    s.Holds (some x) slice ↔ ∃ copied, view s.px Producer.own x = some (slice, copied) := by
  constructor
  · rintro ⟨p, hx, hown⟩
    obtain ⟨⟨slice', copied⟩, hsome, rfl⟩ := Option.map_eq_some_iff.mp hown
    exact ⟨copied, by rw [view_eq hx, hsome]⟩
  · rintro ⟨copied, hview⟩
    obtain ⟨p, hx, hown⟩ := Option.bind_eq_some_iff.mp hview
    exact ⟨p, hx, by rw [hown]; rfl⟩

/-- The slices of a valid channel tile the positions that have not been published. -/
theorem tiled (h : Valid tr s) : Tiled s := by
  have hsettled : s.Unmerging → Settled s.buf.filledSlices.data s.buf.readableTill s.buf.len
      ((popped tr).length + s.cx.left) ∧
      ∀ slice ∈ s.buf.filledSlices.data, slice.start ≠ s.buf.readableTill :=
    fun hmerge => h.merging.settled (merging_eq_none hmerge.px)
  have hbounds : ∀ {x slice}, s.Holds (some x) slice →
      s.buf.readableTill ≤ slice.start ∧ slice.start + slice.len ≤ s.buf.tail.data ∧
        0 < slice.len := by
    intro x slice hslice
    obtain ⟨copied, hown⟩ := holds_iff.mp hslice
    exact h.layout.own_bounds hown
  have hfirst : s.Unmerging →
      IsLeast {start | ∃ x slice, s.Holds (some x) slice ∧ slice.start = start} s.buf.readableTill ∨
        (∀ x slice, ¬ s.Holds (some x) slice) ∧ s.buf.readableTill = s.buf.tail.data := by
    intro hmerge
    rcases h.layout.till_le.lt_or_eq with hlt | heq
    · obtain ⟨owner, slice, hclaim, hstart⟩ := h.layout.tiles.exists_first hlt
      cases owner with
      -- a filled slice that starts here would have been merged
      | none => exact absurd hstart ((hsettled hmerge).2 slice hclaim.1)
      | some x =>
        refine .inl ⟨⟨x, slice, holds_iff.mpr hclaim, hstart⟩, ?_⟩
        rintro _ ⟨y, slice', hslice', rfl⟩
        exact (hbounds hslice').1
    · refine .inr ⟨fun x slice hslice => ?_, heq⟩
      have := hbounds hslice
      omega
  constructor
  case tiles =>
    intro hholder
    refine h.layout.tiles.congr ?_
    rintro (_ | x) slice
    · exact (and_iff_left_of_imp ((h.merging.locked.free hholder).le_start slice)).symm
    · exact holds_iff
  case first => exact hfirst
  case waits =>
    intro hmerge slice hslice
    obtain ⟨hsettled, hne⟩ := hsettled hmerge
    have hle := hsettled.le_start slice hslice
    have hclaim : claim s.buf.filledSlices.data s.buf.readableTill (view s.px Producer.own) none
        slice := ⟨hslice, hle⟩
    rcases hfirst hmerge with ⟨⟨x, held, hheld, hstart⟩, -⟩ | ⟨-, heq⟩
    · exact ⟨x, held, hheld, hstart ▸ hle.lt_of_ne (hne slice hslice).symm⟩
    · have hstop := h.layout.tiles.stop_le hclaim
      have hpos := h.layout.tiles.pos hclaim
      omega

end Valid

/-! ## Along every run -/

/-- The channel begins with one producer that holds nothing. -/
theorem valid_init {cap : ℕ} (hcap : cap.nextPowerOfTwo < 2 ^ 64) :
    Valid [] (mpscBoundedCached T cap).init := by
  have hpx : ∀ {x : ℕ} {p : Producer T}, [Producer.new][x]? = some p → p = .new := by
    intro x p hx
    exact List.mem_singleton.mp (List.mem_of_getElem? hx)
  have hown : ∀ x, view [Producer.new (T := T)] Producer.own x = none := by
    intro x
    exact Option.bind_eq_none_iff.mpr fun p hx => hpx hx ▸ rfl
  have hpc : ∀ {x : ℕ} {pc : Send T}, pcs [.new] x = some pc → pc = .idle := by
    intro x pc hpc
    obtain ⟨p, hx, hpc⟩ := Option.bind_eq_some_iff.mp hpc
    rw [hpx hx] at hpc
    exact (Option.some.inj hpc).symm
  constructor
  case capacity => exact Nat.isPowerOfTwo_nextPowerOfTwo cap
  case capacity_lt => exact hcap
  case px =>
    intro x p hx
    rw [hpx hx]
    rfl
  case applying =>
    refine ⟨Nat.two_pow_pos 64, ?_, fun _ => rfl, ?_⟩
    · refine fun x => iff_of_false ?_ (by simp [mpscBoundedCached, RingBuffer.new])
      rintro ⟨pc, hx, hinside⟩
      exact (hpc hx ▸ hinside : Send.Inside .idle)
    · intro x pc hx hinside
      exact ((hpc hx ▸ hinside : Send.Inside .idle)).elim
  case merging =>
    have hmerging : ∀ side, merging [Producer.new (T := T)] side = none :=
      merging_eq_none fun p hp => List.mem_singleton.mp hp ▸ rfl
    refine ⟨rfl, ⟨?_, fun _ => ⟨rfl, nofun⟩, ?_⟩, nofun⟩
    · refine fun side => iff_of_false ?_ (by simp [mpscBoundedCached, RingBuffer.new])
      rintro ⟨m, hm, -⟩
      exact absurd ((hmerging side).symm.trans hm) (by simp)
    · intro side m hm
      exact absurd ((hmerging side).symm.trans hm) (by simp)
  case layout =>
    have hnone : ∀ {x slice copied}, view [Producer.new (T := T)] Producer.own x ≠
        some (slice, copied) := by
      intro x slice copied hsome
      exact absurd ((hown x).symm.trans hsome) (by simp)
    refine ⟨(Tiles.nil 0).congr ?_, le_rfl, fun _ _ => rfl, nofun, nofun, ?_, ?_, ?_, ?_, nofun⟩
    · rintro (_ | x) slice
      · exact iff_of_false (fun hclaim => absurd hclaim.1 (Finset.notMem_empty slice)) id
      · exact iff_of_false (fun ⟨_, hsome⟩ => hnone hsome) id
    all_goals exact fun hsome => absurd hsome hnone
  case reserved => rfl
  case cx => rfl
  case accounts =>
    refine ⟨?_, ?_, fun x _ => ⟨rfl, rfl, rfl, nofun⟩⟩
    · intro x p hx
      rw [hpx hx]
      rfl
    · intro x p hx
      rw [hpx hx]
      rfl
  case nodup => exact List.nodup_nil
  case popped_eq => rfl
  case count => rfl
  case references => rfl
  case freed_eq => rfl
  case disconnected => exact nofun

section Run

variable {cap : ℕ} {tr : List (Event T)} {s : State T}

/-- The invariant holds along every run. -/
theorem run_valid (hcap : cap.nextPowerOfTwo < 2 ^ 64)
    (h : (mpscBoundedCached T cap).Run Machine.unguarded tr s) : Valid tr s :=
  h.invariant (valid_init hcap) fun _ _ _ _ _ ih _ hstep => ih.step hstep

/-- **The channel delivers what it has taken**, in order for each producer, along every run. -/
theorem mpscBoundedCached_faithful (hcap : cap.nextPowerOfTwo < 2 ^ 64)
    (h : (mpscBoundedCached T cap).Run Machine.unguarded tr s) : Faithful tr s :=
  (run_valid hcap h).faithful

/-- **The channel is closed only when everything has been delivered**, along every run. -/
theorem mpscBoundedCached_disconnects (hcap : cap.nextPowerOfTwo < 2 ^ 64)
    (h : (mpscBoundedCached T cap).Run Machine.unguarded tr s) : Disconnects tr s :=
  (run_valid hcap h).disconnects

/-- **The counters count the positions** along every run. -/
theorem mpscBoundedCached_counts (hcap : cap.nextPowerOfTwo < 2 ^ 64)
    (h : (mpscBoundedCached T cap).Run Machine.unguarded tr s) : Counts s :=
  (run_valid hcap h).counts

/-- **No filled slice waits without need** along every run. -/
theorem mpscBoundedCached_tiled (hcap : cap.nextPowerOfTwo < 2 ^ 64)
    (h : (mpscBoundedCached T cap).Run Machine.unguarded tr s) : Tiled s :=
  (run_valid hcap h).tiled

end Run

/-! ## Two runs -/

/-- A producer flushes its first value with a slot of padding, its clone sends another one, and the
consumer receives both before the channel is closed. -/
def handover : List (Action ℕ) := List.flatten
  [[.clone 0, .cloneBuf 0, .send 0 1], List.replicate 6 (.push 0), [.flush 0],
    List.replicate 14 (.push 0), [.recv], List.replicate 5 .pop, [.send 1 2],
    List.replicate 19 (.push 1),
    [.dropProducer 0, .push 0, .releaseProducer 0, .dropProducer 1, .push 1, .releaseProducer 1],
    [.recv], List.replicate 10 .pop, [.recv], List.replicate 4 .pop,
    [.dropConsumer, .releaseConsumer]]

theorem handover_run : ∃ tr s, (mpscBoundedCached ℕ 2).Run Machine.unguarded tr s ∧
    received 0 tr = [1] ∧ received 1 tr = [2] ∧ s.buf.pxCount = 0 := by
  have h : ((mpscBoundedCached ℕ 2).exec handover).map
      (fun result => (received 0 result.2, received 1 result.2, result.1.buf.pxCount)) =
        some ([1], [2], 0) := by decide +kernel
  obtain ⟨⟨s, tr⟩, hexec, hevents⟩ := Option.map_eq_some_iff.mp h
  obtain ⟨hzero, hrest⟩ := Prod.mk.inj hevents
  obtain ⟨hone, hcount⟩ := Prod.mk.inj hrest
  exact ⟨tr, s, Machine.run_exec hexec, hzero, hone, hcount⟩

theorem mpscBoundedCached_faithful_handover : ∃ tr s,
    (mpscBoundedCached ℕ 2).Run Machine.unguarded tr s ∧ Faithful tr s ∧
      received 0 tr = [1] ∧ received 1 tr = [2] := by
  obtain ⟨tr, s, hrun, hzero, hone, -⟩ := handover_run
  exact ⟨tr, s, hrun, mpscBoundedCached_faithful (by decide +kernel) hrun, hzero, hone⟩

theorem mpscBoundedCached_disconnects_handover : ∃ tr s,
    (mpscBoundedCached ℕ 2).Run Machine.unguarded tr s ∧ Disconnects tr s ∧ s.buf.pxCount = 0 := by
  obtain ⟨tr, s, hrun, -, -, hcount⟩ := handover_run
  exact ⟨tr, s, hrun, mpscBoundedCached_disconnects (by decide +kernel) hrun, hcount⟩

/-- The clone flushes its slice, which lies behind the one that the first producer holds. -/
def overtaking : List (Action ℕ) := List.flatten
  [[.clone 0, .cloneBuf 0, .send 0 1], List.replicate 6 (.push 0), [.send 1 2],
    List.replicate 6 (.push 1), [.flush 1], List.replicate 38 (.push 1)]

theorem overtaking_run : ∃ tr s, (mpscBoundedCached ℕ 64).Run Machine.unguarded tr s ∧
    s.buf.filledSlices.data = {⟨32, 32⟩} ∧ s.buf.readableTill = 0 := by
  have h : ((mpscBoundedCached ℕ 64).exec overtaking).map
      (fun result => (result.1.buf.filledSlices.data, result.1.buf.readableTill)) =
        some ({⟨32, 32⟩}, 0) := by decide +kernel
  obtain ⟨⟨s, tr⟩, hexec, hslices⟩ := Option.map_eq_some_iff.mp h
  obtain ⟨hfilled, htill⟩ := Prod.mk.inj hslices
  exact ⟨tr, s, Machine.run_exec hexec, hfilled, htill⟩

theorem mpscBoundedCached_counts_overtaking : ∃ tr s,
    (mpscBoundedCached ℕ 64).Run Machine.unguarded tr s ∧ Counts s ∧ s.buf.readableTill = 0 := by
  obtain ⟨tr, s, hrun, -, htill⟩ := overtaking_run
  exact ⟨tr, s, hrun, mpscBoundedCached_counts (by decide +kernel) hrun, htill⟩

theorem mpscBoundedCached_tiled_overtaking : ∃ tr s,
    (mpscBoundedCached ℕ 64).Run Machine.unguarded tr s ∧ Tiled s ∧
      s.buf.filledSlices.data = {⟨32, 32⟩} := by
  obtain ⟨tr, s, hrun, hfilled, -⟩ := overtaking_run
  exact ⟨tr, s, hrun, mpscBoundedCached_tiled (by decide +kernel) hrun, hfilled⟩

end MpscBoundedCached

end Channel
