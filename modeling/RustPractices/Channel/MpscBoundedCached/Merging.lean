import RustPractices.Channel.MpscBoundedCached.Layout

/-!
# The merging of the filled slices

The side that holds `filled_slices` knows which of the slices have been published and whether `len`
has been raised for them. Whenever a filled slice waits at `readable_till`, some side is about to
look for it, so that no slice stays behind when all sides are done.

## Main definitions

* `Merging`: the mutex of the filled slices, given where the sides are

## Main results

* `merge_valid`: one step of `merge_with_filled_slices` of any side
* `Merging.settled`: what holds when nobody is merging
-/

open Transition Allocation

namespace Channel

namespace MpscBoundedCached

universe u

variable {T : Type u}

/-- The side is between `lock` and the end of the guard. -/
def Merge.Inside : Merge → Prop
  | .lock _ => False
  | .insert _ | .first | .exchange _ | .remove _ | .addLen _ | .subReserved _ | .again | .leave =>
    True

/-- The side is going to look at the filled slices. -/
def Merge.Looks : Merge → Prop
  | .leave => False
  | .lock _ | .insert _ | .first | .exchange _ | .remove _ | .addLen _ | .subReserved _ | .again =>
    True

/-- The filled slice that the side has not handed over, with all of its positions copied. -/
def Merge.own : Merge → Option (Slice × ℕ)
  | .lock filled => filled.map fun slice => (slice, slice.len)
  | .insert slice => some (slice, slice.len)
  | .first | .exchange _ | .remove _ | .addLen _ | .subReserved _ | .again | .leave => none

/-- How many positions have been published for which `reserved` has not been lowered. -/
def Merge.excess : Merge → ℕ
  | .remove slice => slice.len
  | .addLen len | .subReserved len => len
  | .lock _ | .insert _ | .first | .exchange _ | .again | .leave => 0

/-- Where the side is after a step. -/
def Merged.merge? : Merged → Option Merge
  | .next merge => some merge
  | .done | .panicked => none

/-- Nothing has been published that is not counted, where the consumer has left `left` positions
behind. -/
structure Settled (filled : Finset Slice) (till len left : ℕ) : Prop where
  len : len + left = till
  le_start : ∀ slice ∈ filled, till ≤ slice.start

/-- What a side knows under the lock. -/
def Merge.Knows (filled : Finset Slice) (till len left : ℕ) : Merge → Prop
  | .lock _ => True
  | .insert _ | .first | .again => Settled filled till len left
  | .subReserved n => Settled filled till len left ∧ n ≤ till
  | .exchange slice =>
    Settled filled till len left ∧ slice ∈ filled ∧ ∀ s ∈ filled, slice.start ≤ s.start
  | .remove slice =>
    slice ∈ filled ∧ slice.start < till ∧ len + slice.len + left = till ∧
      ∀ s ∈ filled, s ≠ slice → till ≤ s.start
  | .addLen n => len + n + left = till ∧ ∀ s ∈ filled, till ≤ s.start
  | .leave => Settled filled till len left ∧ ∀ s ∈ filled, s.start ≠ till

/-- **The mutex of the filled slices**, given where the sides are in `merge_with_filled_slices`. -/
structure Merging (slices : Mutex (Finset Slice) Side) (till len left : ℕ)
    (merging : Side → Option Merge) : Prop where
  unpoisoned : slices.poisoned = false
  locked : Locked slices.holder merging Merge.Inside (Settled slices.data till len left)
    (Merge.Knows slices.data till len left)
  progress : ∀ slice ∈ slices.data, slice.start = till →
    ∃ side merge, merging side = some merge ∧ merge.Looks

/-- The slice that a set of slices begins with. -/
theorem first_eq_some {slices : Finset Slice} {slice : Slice} (h : first slices = some slice) :
    slice ∈ slices ∧ ∀ s ∈ slices, slice.start ≤ s.start := by
  unfold first at h
  split_ifs at h with hne
  obtain rfl := Option.some.inj h
  exact ⟨slices.min'_mem hne, fun s hs => Slice.start_le_of_le (slices.min'_le s hs)⟩

theorem first_eq_none {slices : Finset Slice} (h : first slices = none) : slices = ∅ := by
  unfold first at h
  split_ifs at h with hne
  exact Finset.not_nonempty_iff_eq_empty.mp hne

namespace Merging

variable {slices slices' : Mutex (Finset Slice) Side} {till till' len len' left left' : ℕ}
  {merging : Side → Option Merge} {side : Side} {merge merge' : Merge}

/-- The consumer leaves a position behind. -/
theorem leave (h : Merging slices till len left merging) (hpos : 0 < len) :
    Merging slices till (len - 1) (left + 1) merging := by
  have hsettled : Settled slices.data till len left →
      Settled slices.data till (len - 1) (left + 1) := by
    intro hs
    have := hs.len
    exact ⟨by omega, hs.le_start⟩
  refine ⟨h.unpoisoned, h.locked.mono hsettled ?_, h.progress⟩
  intro m _ hknows
  cases m with
  | lock _ => trivial
  | insert _ | first | again => exact hsettled hknows
  | subReserved _ => exact ⟨hsettled hknows.1, hknows.2⟩
  | exchange _ => exact ⟨hsettled hknows.1, hknows.2⟩
  | remove _ => exact ⟨hknows.1, hknows.2.1, by have := hknows.2.2.1; omega, hknows.2.2.2⟩
  | addLen _ => exact ⟨by have := hknows.1; omega, hknows.2⟩
  | leave => exact ⟨hsettled hknows.1, hknows.2⟩

/-- A side takes the lock or takes a step under it. -/
theorem set (h : Merging slices till len left merging)
    (hturn : slices.holder = none ∨ slices.holder = some side)
    (hholder : slices'.holder = some side) (hpoisoned : slices'.poisoned = false)
    (hinside : merge'.Inside) (hknows : merge'.Knows slices'.data till' len' left)
    (hlooks : merge'.Looks ∨ ∀ slice ∈ slices'.data, slice.start ≠ till') :
    Merging slices' till' len' left (Function.update merging side (some merge')) where
  unpoisoned := hpoisoned
  locked := by
    refine h.locked.set hturn (.inr hholder) ?_ ?_ ?_
    · exact iff_of_true ⟨merge', rfl, hinside⟩ hholder
    · intro hnone
      exact absurd (hnone.symm.trans hholder) (by simp)
    · rintro m hm -
      obtain rfl := Option.some.inj hm
      exact hknows
  progress := by
    intro slice hslice hstart
    rcases hlooks with hlooks | hnone
    · exact ⟨side, merge', Function.update_self .., hlooks⟩
    · exact absurd hstart (hnone slice hslice)

/-- A side gives the lock back, and comes again or is done. -/
theorem release (h : Merging slices till len left merging) (hm : merging side = some merge)
    (hinside : merge.Inside) (hsettled : Settled slices.data till len left) {next : Option Merge}
    (hout : ∀ m, next = some m → ¬ m.Inside)
    (hlooks : (∃ m, next = some m ∧ m.Looks) ∨ ∀ slice ∈ slices.data, slice.start ≠ till) :
    Merging { slices with holder := none } till len left (Function.update merging side next) where
  unpoisoned := h.unpoisoned
  locked := by
    refine h.locked.set (.inr (h.locked.holder_eq hm hinside)) (.inl rfl) ?_ (fun _ => hsettled) ?_
    · refine iff_of_false ?_ (by simp)
      rintro ⟨m, hm, hin⟩
      exact hout m hm hin
    · intro m hm hin
      exact absurd hin (hout m hm)
  progress := by
    intro slice hslice hstart
    rcases hlooks with ⟨m, hm, hlooks⟩ | hnone
    · exact ⟨side, m, by rw [Function.update_self, hm], hlooks⟩
    · exact absurd hstart (hnone slice hslice)

/-- A side starts to merge. -/
theorem start (h : Merging slices till len left merging) (hm : merging side = none)
    (filled : Option Slice) :
    Merging slices till len left (Function.update merging side (some (.lock filled))) where
  unpoisoned := h.unpoisoned
  locked := by
    refine h.locked.outside ?_ ?_
    · intro m hm'
      exact absurd (hm.symm.trans hm') (by simp)
    · rintro m hm' hin
      obtain rfl := Option.some.inj hm'
      exact hin
  progress := fun _ _ _ => ⟨side, .lock filled, Function.update_self .., trivial⟩

/-- Not more is counted than has been published. -/
theorem len_le (h : Merging slices till len left merging) : len + left ≤ till := by
  cases hholder : slices.holder with
  | none => exact (h.locked.free hholder).len.le
  | some side =>
    obtain ⟨m, hm, hinside⟩ := (h.locked.inside_iff side).mpr hholder
    have hknows := h.locked.of_inside hm hinside
    cases m with
    | lock _ => exact hinside.elim
    | insert _ | first | again => exact hknows.len.le
    | exchange _ | subReserved _ | leave => exact hknows.1.len.le
    | remove slice =>
      have := hknows.2.2.1
      omega
    | addLen n =>
      have := hknows.1
      omega

/-- When nobody is merging, everything that has been published is counted, and no filled slice waits
at `readable_till`. -/
theorem settled (h : Merging slices till len left merging) (hm : ∀ side, merging side = none) :
    Settled slices.data till len left ∧ ∀ slice ∈ slices.data, slice.start ≠ till := by
  have hnone : ∀ side m, merging side ≠ some m := fun side m hsome =>
    absurd ((hm side).symm.trans hsome) (by simp)
  constructor
  · refine h.locked.free ?_
    cases hholder : slices.holder with
    | none => rfl
    | some side =>
      obtain ⟨m, hsome, -⟩ := (h.locked.inside_iff side).mpr hholder
      exact absurd hsome (hnone side m)
  · intro slice hslice hstart
    obtain ⟨side, m, hsome, -⟩ := h.progress slice hslice hstart
    exact hnone side m hsome

end Merging

/-- What a side owns after a step. -/
def setOwn (own : ℕ → Option (Slice × ℕ)) : Side → Option (Slice × ℕ) → ℕ → Option (Slice × ℕ)
  | .px x, new => Function.update own x new
  | .cx, _ => own

/-- What belongs to a side in the middle of `merge_with_filled_slices`. -/
def Merge.Owns (own : ℕ → Option (Slice × ℕ)) (merge : Merge) : Side → Prop
  | .px x => own x = merge.own
  | .cx => merge.own = none

/-- A step that leaves to the side what belongs to it. -/
theorem Merge.Owns.layout {cap loaded till tail : ℕ} {inner : Slots (Option T)}
    {filled : Finset Slice} {own : ℕ → Option (Slice × ℕ)} {written : ℕ → Option (ℕ × Option T)}
    {merge : Merge} {side : Side} (h : merge.Owns own side) {new : Option (Slice × ℕ)}
    (hnew : new = merge.own) (hlayout : Layout cap inner loaded till tail filled own written) :
    Layout cap inner loaded till tail filled (setOwn own side new) written := by
  cases side with
  | px x =>
    have hx : own x = merge.own := h
    rwa [setOwn, hnew, ← hx, Function.update_eq_self]
  | cx => exact hlayout

/-- What `merge_with_filled_slices` does not touch. -/
theorem merge_frame {buf buf' : RingBuffer T} {side : Side} {merge : Merge} {result : Merged}
    (hstep : buf.merge side merge = some (buf', result)) :
    buf' = { buf with
      filledSlices := buf'.filledSlices, readableTill := buf'.readableTill, len := buf'.len,
      reserved := buf'.reserved } := by
  cases merge <;> simp only [RingBuffer.merge] at hstep
  case lock =>
    split at hstep
    · simp at hstep
    · split_ifs at hstep <;> obtain ⟨rfl, -⟩ := by simpa using hstep
      all_goals rfl
  case first =>
    split at hstep <;> obtain ⟨rfl, -⟩ := by simpa using hstep
    all_goals rfl
  case exchange =>
    split at hstep
    · obtain ⟨rfl, -⟩ := by simpa using hstep
      rfl
    · split_ifs at hstep <;> obtain ⟨rfl, -⟩ := by simpa using hstep
      all_goals rfl
  all_goals
    obtain ⟨rfl, -⟩ := by simpa using hstep
    rfl

/-- `reserved` is lowered by what has been published. -/
theorem merge_reserved {buf buf' : RingBuffer T} {side : Side} {merge : Merge} {result : Merged}
    (hstep : buf.merge side merge = some (buf', result)) (hle : merge.excess ≤ buf.reserved)
    (hlt : buf.reserved < 2 ^ 64) (hresult : result ≠ .panicked) :
    buf'.reserved + buf'.readableTill + merge.excess =
      buf.reserved + buf.readableTill + result.merge?.elim 0 Merge.excess := by
  cases merge <;> simp only [RingBuffer.merge] at hstep
  case lock filled =>
    split at hstep
    · simp at hstep
    · split_ifs at hstep <;> obtain ⟨rfl, rfl⟩ := by simpa using hstep
      · exact absurd rfl hresult
      · cases filled <;> rfl
  case first =>
    split at hstep <;> obtain ⟨rfl, rfl⟩ := by simpa using hstep
    all_goals rfl
  case exchange slice =>
    split at hstep
    · obtain ⟨-, rfl⟩ := by simpa using hstep
      exact absurd rfl hresult
    next hadd =>
    obtain rfl := checkedAdd_eq_some hadd
    split_ifs at hstep with hstart <;> obtain ⟨rfl, rfl⟩ := by simpa using hstep
    · simp only [Merge.excess, Merged.merge?, Option.elim_some, hstart]
      omega
    · rfl
  case subReserved n =>
    obtain ⟨rfl, rfl⟩ := by simpa using hstep
    simp only [Merge.excess] at hle
    simp only [wrappingSub_of_le hle hlt, Merge.excess, Merged.merge?, Option.elim_some]
    omega
  all_goals
    obtain ⟨rfl, rfl⟩ := by simpa using hstep
    rfl

section Step

variable {buf buf' : RingBuffer T} {side : Side} {merge : Merge} {result : Merged}
  {cap loaded tail left : ℕ} {inner : Slots (Option T)} {merging : Side → Option Merge}
  {own : ℕ → Option (Slice × ℕ)} {written : ℕ → Option (ℕ × Option T)}

/-- One step of `merge_with_filled_slices` of any side. -/
theorem merge_valid
    (hmerging : Merging buf.filledSlices buf.readableTill buf.len left merging)
    (hlayout : Layout cap inner loaded buf.readableTill tail buf.filledSlices.data own written)
    (htail : tail < 2 ^ 64) (hm : merging side = some merge) (hown : merge.Owns own side)
    (hstep : buf.merge side merge = some (buf', result)) :
    result ≠ .panicked ∧ buf.len ≤ buf'.len ∧
      Merging buf'.filledSlices buf'.readableTill buf'.len left
        (Function.update merging side result.merge?) ∧
      Layout cap inner loaded buf'.readableTill tail buf'.filledSlices.data
        (setOwn own side (result.merge?.bind Merge.own)) written := by
  have hturn : merge.Inside → buf.filledSlices.holder = some side := hmerging.locked.holder_eq hm
  have hknows := hmerging.locked.of_inside hm
  have htill := hlayout.till_le
  cases merge <;> simp only [RingBuffer.merge] at hstep
  case lock filled =>
    split at hstep
    · simp at hstep
    next hnone =>
    rw [if_neg (by simp [hmerging.unpoisoned])] at hstep
    obtain ⟨rfl, rfl⟩ := by simpa using hstep
    have hsettled := hmerging.locked.free hnone
    refine ⟨by simp, le_rfl, ?_, ?_⟩
    · cases filled <;>
        exact hmerging.set (.inl hnone) rfl hmerging.unpoisoned trivial hsettled (.inl trivial)
    · exact hown.layout (by cases filled <;> rfl) hlayout
  case insert applied =>
    obtain ⟨rfl, rfl⟩ := by simpa using hstep
    have hsettled : Settled _ _ _ _ := hknows trivial
    cases side with
    | cx => exact absurd hown (by simp [Merge.Owns, Merge.own])
    | px x =>
      have hx : own x = some (applied, applied.len) := hown
      refine ⟨by simp, le_rfl, ?_, hlayout.insert hx⟩
      refine hmerging.set (.inr (hturn trivial)) (hturn trivial) hmerging.unpoisoned trivial
        ⟨hsettled.len, ?_⟩ (.inl trivial)
      intro s hs
      rcases Finset.mem_insert.mp hs with rfl | hs
      · exact (hlayout.own_bounds hx).1
      · exact hsettled.le_start s hs
  case first =>
    have hsettled : Settled _ _ _ _ := hknows trivial
    split at hstep
    · next hfirst =>
      obtain ⟨rfl, rfl⟩ := by simpa using hstep
      have hempty := first_eq_none hfirst
      refine ⟨by simp, le_rfl, ?_, ?_⟩
      · exact hmerging.set (.inr (hturn trivial)) (hturn trivial) hmerging.unpoisoned trivial
          ⟨hsettled, by simp [hempty]⟩ (.inr (by simp [hempty]))
      · exact hown.layout rfl hlayout
    · next slice hfirst =>
      obtain ⟨rfl, rfl⟩ := by simpa using hstep
      refine ⟨by simp, le_rfl, ?_, ?_⟩
      · exact hmerging.set (.inr (hturn trivial)) (hturn trivial) hmerging.unpoisoned trivial
          ⟨hsettled, first_eq_some hfirst⟩ (.inl trivial)
      · exact hown.layout rfl hlayout
  case exchange slice =>
    obtain ⟨hsettled, hmem, hfirst⟩ : Settled _ _ _ _ ∧ _ := hknows trivial
    have hclaim : claim buf.filledSlices.data buf.readableTill own none slice :=
      ⟨hmem, hsettled.le_start slice hmem⟩
    have hstop := hlayout.tiles.stop_le hclaim
    have hpos := hlayout.tiles.pos hclaim
    rw [checkedAdd_of_lt (by omega)] at hstep
    dsimp only at hstep
    split_ifs at hstep with hstart
    · obtain ⟨rfl, rfl⟩ := by simpa using hstep
      have hlen := hsettled.len
      refine ⟨by simp, le_rfl, ?_, ?_⟩
      · refine hmerging.set (.inr (hturn trivial)) (hturn trivial) hmerging.unpoisoned trivial
          ⟨hmem, by dsimp only; omega, by dsimp only; omega, ?_⟩ (.inl trivial)
        intro s hs hne
        have := hlayout.stop_le_start hmem hstart hs (hsettled.le_start s hs) hne
        dsimp only
        omega
      · exact hown.layout rfl (hstart ▸ hlayout.exchange hmem hstart)
    · obtain ⟨rfl, rfl⟩ := by simpa using hstep
      -- the first slice does not wait at `readable_till`, and so does none
      have hnone : ∀ s ∈ buf.filledSlices.data, s.start ≠ buf.readableTill := by
        intro s hs heq
        have hle := hsettled.le_start slice hmem
        exact hstart (hle.antisymm (heq ▸ hfirst s hs))
      refine ⟨by simp, le_rfl, ?_, ?_⟩
      · exact hmerging.set (.inr (hturn trivial)) (hturn trivial) hmerging.unpoisoned trivial
          ⟨hsettled, hnone⟩ (.inr hnone)
      · exact hown.layout rfl hlayout
  case remove slice =>
    obtain ⟨rfl, rfl⟩ := by simpa using hstep
    obtain ⟨hmem, hlt, hlen, hother⟩ : slice ∈ buf.filledSlices.data ∧ _ := hknows trivial
    refine ⟨by simp, le_rfl, ?_, ?_⟩
    · refine hmerging.set (.inr (hturn trivial)) (hturn trivial) hmerging.unpoisoned trivial
        ⟨hlen, ?_⟩ (.inl trivial)
      intro s hs
      exact hother s (Finset.mem_of_mem_erase hs) (Finset.ne_of_mem_erase hs)
    · exact hown.layout rfl (hlayout.remove hlt)
  case addLen n =>
    obtain ⟨rfl, rfl⟩ := by simpa using hstep
    obtain ⟨hlen, hother⟩ : _ + n + _ = _ ∧ _ := hknows trivial
    have hadd : wrappingAdd buf.len n = buf.len + n := wrappingAdd_of_lt (by omega)
    refine ⟨by simp, ?_, ?_, ?_⟩
    · exact hadd ▸ Nat.le_add_right _ _
    · exact hmerging.set (.inr (hturn trivial)) (hturn trivial) hmerging.unpoisoned trivial
        ⟨⟨hadd ▸ hlen, hother⟩, by dsimp only; omega⟩ (.inl trivial)
    · exact hown.layout rfl hlayout
  case subReserved n =>
    obtain ⟨rfl, rfl⟩ := by simpa using hstep
    obtain ⟨hsettled, -⟩ : Settled _ _ _ _ ∧ _ := hknows trivial
    refine ⟨by simp, le_rfl, ?_, ?_⟩
    · exact hmerging.set (.inr (hturn trivial)) (hturn trivial) hmerging.unpoisoned trivial
        hsettled (.inl trivial)
    · exact hown.layout rfl hlayout
  case again =>
    obtain ⟨rfl, rfl⟩ := by simpa using hstep
    refine ⟨by simp, le_rfl, ?_, ?_⟩
    · refine hmerging.release hm trivial (hknows trivial) ?_ (.inl ⟨.lock none, rfl, trivial⟩)
      rintro m hm' hin
      obtain rfl := Option.some.inj hm'
      exact hin
    · exact hown.layout rfl hlayout
  case leave =>
    obtain ⟨rfl, rfl⟩ := by simpa using hstep
    obtain ⟨hsettled, hnone⟩ : Settled _ _ _ _ ∧ _ := hknows trivial
    refine ⟨by simp, le_rfl, ?_, ?_⟩
    · exact hmerging.release hm trivial hsettled (by simp [Merged.merge?]) (.inr hnone)
    · exact hown.layout rfl hlayout

end Step

end MpscBoundedCached

end Channel
