import RustPractices.Channel.MpscBoundedCached.Merging

/-!
# The producers of the channel with slices

The producer that holds `tail` knows how `free` lags behind. What a producer has taken and not yet
copied is in its own buffer, or on its way into the ring.

## Main definitions

* `Applying`: the mutex of `tail`, given where the producers are
* `Producer.Valid`, `Producer.own`, `Producer.unstored`: what a producer keeps
* `Producer.Settles`: how a call of `flush` goes on

## Main results

* `Applying.tail_le`: not more positions are handed out than the ring has slots
* `settles_flush`, `settles_finish`: the calls of `flush`
-/

open Transition Allocation

namespace Channel

namespace MpscBoundedCached

universe u v

variable {T : Type u}

/-! ## The mutex of `tail` -/

/-- The producer is between `lock` and the end of the guard in `apply`. -/
def Send.Inside : Send T → Prop
  | .free _ | .advance _ _ | .addReserved _ _ | .subFree _ _ | .applied _ _ | .full _ => True
  | .idle | .lock _ | .cxExists _ | .store _ _ _ _ | .merge _ _ | .clone | .subPxCount | .panicked
  | .released | .dropped => False

/-- What a producer knows in `apply`, where `popped` positions have been given back: `free` is
lowered after `tail` has been moved. -/
def Send.Knows (free tail cap popped : ℕ) : Send T → Prop
  | .free _ | .applied _ _ | .full _ => free + tail = cap + popped
  | .advance _ size => free + tail = cap + popped ∧ 0 < size ∧ size ≤ free
  | .addReserved _ slice | .subFree _ slice =>
    free + tail = cap + popped + slice.len ∧ slice.len ≤ free
  | .idle | .lock _ | .cxExists _ | .store _ _ _ _ | .merge _ _ | .clone | .subPxCount | .panicked
  | .released | .dropped => True

/-- **The mutex of `tail`**, given where the producers are. -/
structure Applying (tail : Mutex ℕ ℕ) (free cap popped : ℕ) (pcs : ℕ → Option (Send T)) :
    Prop where
  tail_lt : tail.data < 2 ^ 64
  locked : Locked tail.holder pcs Send.Inside (free + tail.data = cap + popped)
    (Send.Knows free tail.data cap popped)

namespace Applying

variable {tail tail' : Mutex ℕ ℕ} {free free' cap popped x : ℕ} {pcs : ℕ → Option (Send T)}
  {pc pc' : Send T}

/-- Not more positions are handed out than the ring has slots. -/
theorem tail_le (h : Applying tail free cap popped pcs) : tail.data ≤ cap + popped := by
  cases hholder : tail.holder with
  | none =>
    have := h.locked.free hholder
    omega
  | some x =>
    obtain ⟨pc, hpc, hinside⟩ := (h.locked.inside_iff x).mpr hholder
    have hknows := h.locked.of_inside hpc hinside
    cases pc <;> simp only [Send.Inside, Send.Knows] at hinside hknows <;> omega

/-- A producer takes the lock, takes a step under it, or gives it back. -/
theorem set (h : Applying tail free cap popped pcs)
    (hturn : tail.holder = none ∨ tail.holder = some x) (htail : tail'.data < 2 ^ 64)
    (hturn' : tail'.holder = none ∨ tail'.holder = some x)
    (hinside : pc'.Inside ↔ tail'.holder = some x)
    (hfree : tail'.holder = none → free' + tail'.data = cap + popped)
    (hknows : pc'.Inside → pc'.Knows free' tail'.data cap popped) :
    Applying tail' free' cap popped (Function.update pcs x (some pc')) where
  tail_lt := htail
  locked := by
    refine h.locked.set hturn hturn' ?_ hfree ?_
    · rw [← hinside]
      constructor
      · rintro ⟨p, hp, hin⟩
        obtain rfl := Option.some.inj hp
        exact hin
      · exact fun hin => ⟨pc', rfl, hin⟩
    · intro p hp hin
      obtain rfl := Option.some.inj hp
      exact hknows hin

/-- A producer takes a step outside of `apply`. -/
theorem outside (h : Applying tail free cap popped pcs) (hx : pcs x = some pc) (hpc : ¬ pc.Inside)
    (hpc' : ¬ pc'.Inside) : Applying tail free cap popped (Function.update pcs x (some pc')) where
  tail_lt := h.tail_lt
  locked := by
    refine h.locked.outside ?_ ?_
    · intro p hp
      obtain rfl := Option.some.inj (hx.symm.trans hp)
      exact hpc
    · intro p hp
      obtain rfl := Option.some.inj hp
      exact hpc'

/-- The consumer gives a position back. -/
theorem addFree (h : Applying tail free cap popped pcs) :
    Applying tail (free + 1) cap (popped + 1) pcs where
  tail_lt := h.tail_lt
  locked := by
    refine h.locked.mono (fun hfree => by omega) fun pc _ hknows => ?_
    cases pc <;> simp only [Send.Knows] at hknows ⊢ <;> omega

end Applying

/-! ## What a producer keeps -/

/-- The values that are sent when a call of `flush` returns. -/
def After.vals : After T → List T
  | .sent val => [val]
  | .flushed | .dropped => []

/-- The calls of `send` of a producer that is in `flush`. -/
def After.Calls (called answered : List T) : After T → Prop
  | .sent val => called = answered ++ [val]
  | .flushed => called = answered
  | .dropped => answered <+: called

/-- The calls of `send` of one producer, given what has been called and answered. -/
def Producer.Calls (called answered : List T) (px : Producer T) : Prop :=
  match px.pc with
  | .idle | .clone => called = answered
  | .lock val | .free val | .advance val _ | .addReserved val _ | .subFree val _ | .applied val _
  | .full val | .cxExists val => called = answered ++ [val]
  | .store _ _ _ after | .merge _ after => after.Calls called answered
  | .subPxCount | .panicked | .released | .dropped => answered <+: called

/-- The calls are answered in their order. -/
theorem Producer.Calls.ordered {called answered : List T} {px : Producer T}
    (h : px.Calls called answered) : answered <+: called := by
  obtain ⟨pc, bufLocal, allocatedSlice⟩ := px
  cases pc with
  | idle | clone =>
    have heq : called = answered := h
    exact heq ▸ List.prefix_rfl
  | lock val | free val | advance val | addReserved val | subFree val | applied val | full val
  | cxExists val =>
    have heq : called = answered ++ [val] := h
    exact heq ▸ List.prefix_append _ _
  | store _ _ _ after | merge _ after =>
    cases after with
    | sent val =>
      have heq : called = answered ++ [val] := h
      exact heq ▸ List.prefix_append _ _
    | flushed =>
      have heq : called = answered := h
      exact heq ▸ List.prefix_rfl
    | dropped => exact h
  | subPxCount | panicked | released | dropped => exact h

/-- The local buffer is filled up to the length of the slice, and is empty when there is none. -/
def Producer.Valid (px : Producer T) : Prop :=
  match px.pc with
  | .idle | .clone =>
    match px.allocatedSlice with
    | some slice => px.bufLocal.length < slice.len
    | none => px.bufLocal = []
  | .store slice copied vals _ =>
    px.allocatedSlice = some slice ∧ px.bufLocal = [] ∧ copied + vals.length = slice.len
  | _ => px.allocatedSlice = none ∧ px.bufLocal = []

/-- The slice that a producer owns, with the number of its positions that have been copied. -/
def Producer.own (px : Producer T) : Option (Slice × ℕ) :=
  match px.pc with
  | .addReserved _ slice | .subFree _ slice | .applied _ slice => some (slice, 0)
  | .store slice copied _ _ => some (slice, copied)
  | .merge merge _ => merge.own
  | _ => px.allocatedSlice.map fun slice => (slice, 0)

/-- Where a producer is in `merge_with_filled_slices`. -/
def Producer.merging (px : Producer T) : Option Merge :=
  match px.pc with
  | .merge merge _ => some merge
  | _ => none

/-- How many positions a producer has been handed out for which `reserved` has not been raised. -/
def Producer.unreserved (px : Producer T) : ℕ :=
  match px.pc with
  | .addReserved _ slice => slice.len
  | _ => 0

/-- How many positions a producer has published for which `reserved` has not been lowered. -/
def Producer.excess (px : Producer T) : ℕ :=
  match px.pc with
  | .merge merge _ => merge.excess
  | _ => 0

/-- The values that a producer has taken and has not copied yet, in order. -/
def Producer.unstored (px : Producer T) : List T :=
  match px.pc with
  | .store _ _ vals _ => vals.reduceOption
  | _ => px.bufLocal.reduceOption

/-- How often a producer is counted by `px_count`. -/
def Producer.count (px : Producer T) : ℕ :=
  match px.pc with
  | .clone => 2
  | .released | .dropped => 0
  | _ => 1

/-- The number of references that a producer holds. -/
def Producer.references (px : Producer T) : ℕ :=
  match px.pc with
  | .dropped => 0
  | _ => 1

/-! ## The calls of `flush` -/

/-- How a call of `flush` of the producer `x` goes on: it returns, or it copies the local buffer. -/
structure Producer.Settles (px : Producer T) (x : ℕ) (after : After T) (q : Producer T)
    (out : List (Event T)) : Prop where
  valid : q.Valid
  outside : ¬ q.pc.Inside
  merging : q.merging = none
  unreserved : q.unreserved = 0
  excess : q.excess = 0
  own : q.own = px.allocatedSlice.map fun slice => (slice, 0)
  count : q.count = 1
  references : q.references = 1
  sent : sent x out ++ q.sending = after.vals
  unstored : q.unstored = px.bufLocal.reduceOption
  calls : ∀ called answered', after.Calls called answered' →
    q.Calls called (answered' ++ answered x out)
  out_eq : out = [] ∨ ∃ val, out = [.sent x val]

section Settles

variable {px q : Producer T} {x : ℕ} {after : After T} {out : List (Event T)}

/-- Events that neither the consumer nor the buffer exhibits. -/
def Unread (out : List (Event T)) : Prop :=
  popped out = [] ∧ freed out = [] ∧ .disconnected ∉ out

/-- The events are none of the calls of the producer. -/
def Silent (out : List (Event T)) (x : ℕ) : Prop :=
  called x out = [] ∧ answered x out = [] ∧ sent x out = []

namespace Producer.Settles

theorem unread (h : px.Settles x after q out) : Unread out := by
  rcases h.out_eq with rfl | ⟨val, rfl⟩ <;> simp [Unread, popped, freed]

theorem stored (h : px.Settles x after q out) : stored out = [] := by
  rcases h.out_eq with rfl | ⟨val, rfl⟩ <;> rfl

theorem called (h : px.Settles x after q out) (y : ℕ) : called y out = [] := by
  rcases h.out_eq with rfl | ⟨val, rfl⟩ <;> rfl

/-- The call is one of the producer `x`. -/
theorem silent (h : px.Settles x after q out) (y : ℕ) (hne : y ≠ x) : Silent out y := by
  rcases h.out_eq with rfl | ⟨val, rfl⟩
  · exact ⟨rfl, rfl, rfl⟩
  · simp [Silent, MpscBoundedCached.called, answered, MpscBoundedCached.sent, Ne.symm hne]

end Producer.Settles

end Settles

/-- What follows a call of `flush`. -/
theorem settles_finish (px : Producer T) (x : ℕ) (after : After T)
    (halloc : px.allocatedSlice = none) (hlocal : px.bufLocal = []) :
    px.Settles x after (px.finish x after).1 (px.finish x after).2 := by
  cases after with
  | sent val =>
    refine ⟨?_, id, rfl, rfl, rfl, rfl, rfl, rfl, ?_, rfl, ?_, .inr ⟨val, rfl⟩⟩
    · simp [Producer.Valid, Producer.finish, halloc, hlocal]
    · simp [Producer.finish, MpscBoundedCached.sent, Producer.sending, After.vals]
    · intro called answered' hcalls
      have heq : called = answered' ++ [val] := hcalls
      simp [Producer.Calls, Producer.finish, answered, heq]
  | flushed =>
    refine ⟨?_, id, rfl, rfl, rfl, rfl, rfl, rfl, rfl, rfl, ?_, .inl rfl⟩
    · simp [Producer.Valid, Producer.finish, halloc, hlocal]
    · intro called answered' hcalls
      have heq : called = answered' := hcalls
      simpa [Producer.Calls, Producer.finish, answered] using heq
  | dropped =>
    refine ⟨⟨halloc, hlocal⟩, id, rfl, rfl, rfl, rfl, rfl, rfl, rfl, rfl, ?_, .inl rfl⟩
    intro called answered' hcalls
    have hbegin : answered' <+: called := hcalls
    simpa [Producer.Calls, Producer.finish, answered] using hbegin

/-- A call of `flush`. -/
theorem settles_flush (px : Producer T) (x : ℕ) (after : After T)
    (hnone : px.allocatedSlice = none → px.bufLocal = [])
    (hsome : ∀ slice, px.allocatedSlice = some slice → px.bufLocal.length ≤ slice.len) :
    px.Settles x after (px.flush x after).1 (px.flush x after).2 := by
  unfold Producer.flush
  split
  · next halloc => exact settles_finish px x after halloc (hnone halloc)
  · next slice halloc =>
    have hle := hsome slice halloc
    rw [if_pos hle]
    refine ⟨⟨halloc, rfl, ?_⟩, id, rfl, rfl, rfl, ?_, rfl, rfl, ?_, ?_, ?_, .inl rfl⟩
    · simp only [List.length_append, List.length_replicate]
      omega
    · simp [Producer.own, halloc]
    · cases after <;> rfl
    · simp [Producer.unstored, List.reduceOption_append, List.reduceOption_replicate_none]
    · intro called answered' hcalls
      simpa [Producer.Calls, answered] using hcalls

/-- A call of `send` of a producer that has a slice. -/
theorem settles_send (px : Producer T) (x : ℕ) (val : T) {slice : Slice}
    (halloc : px.allocatedSlice = some slice) (hlt : px.bufLocal.length < slice.len) :
    Producer.Settles { px with bufLocal := px.bufLocal ++ [some val] } x (.sent val)
      (px.send x val).1 (px.send x val).2 := by
  unfold Producer.send
  rw [halloc]
  dsimp only
  split_ifs with hfull
  · refine settles_flush _ x (.sent val) nofun ?_
    intro slice' halloc'
    obtain rfl := Option.some.inj halloc'
    simp only [List.length_append, List.length_singleton]
    omega
  · refine ⟨?_, id, rfl, rfl, rfl, rfl, rfl, rfl, ?_, rfl, ?_, .inr ⟨val, rfl⟩⟩
    · simp only [Producer.Valid, List.length_append, List.length_singleton]
      omega
    · simp [MpscBoundedCached.sent, Producer.sending, After.vals]
    · intro called answered' hcalls
      have heq : called = answered' ++ [val] := hcalls
      simp [Producer.Calls, answered, heq]

theorem Producer.unreserved_eq_zero {px : Producer T} (h : ¬ px.pc.Inside) : px.unreserved = 0 := by
  obtain ⟨pc, bufLocal, allocatedSlice⟩ := px
  cases pc <;> first | rfl | exact absurd trivial h

theorem Producer.excess_eq {px : Producer T} : px.excess = px.merging.elim 0 Merge.excess := by
  obtain ⟨pc, bufLocal, allocatedSlice⟩ := px
  cases pc <;> rfl

/-! ## All producers -/

variable {β : Type v}

/-- What each producer shows of itself. -/
def view (px : List (Producer T)) (f : Producer T → Option β) (x : ℕ) : Option β :=
  px[x]?.bind f

/-- Where each side is in `merge_with_filled_slices`. The consumer never is. -/
def merging (px : List (Producer T)) : Side → Option Merge
  | .px x => view px Producer.merging x
  | .cx => none

/-- Where each producer is. -/
def pcs (px : List (Producer T)) : ℕ → Option (Send T) := view px fun p => some p.pc

section View

variable {px : List (Producer T)} {x : ℕ} {p : Producer T}

theorem view_eq (hx : px[x]? = some p) (f : Producer T → Option β) : view px f x = f p := by
  simp [view, hx]

theorem view_set (hx : px[x]? = some p) (q : Producer T) (f : Producer T → Option β) :
    view (px.set x q) f = Function.update (view px f) x (f q) := by
  obtain ⟨hlt, -⟩ := List.getElem?_eq_some_iff.mp hx
  funext y
  by_cases hy : y = x
  · subst hy
    simp [view, hlt]
  · rw [Function.update_of_ne hy]
    simp [view, List.getElem?_set_ne (Ne.symm hy)]

theorem view_append (q : Producer T) (f : Producer T → Option β) :
    view (px ++ [q]) f = Function.update (view px f) px.length (f q) := by
  funext y
  rcases lt_trichotomy y px.length with hy | rfl | hy
  · rw [Function.update_of_ne hy.ne]
    simp [view, List.getElem?_append_left hy]
  · simp [view]
  · rw [Function.update_of_ne hy.ne']
    simp only [view]
    rw [List.getElem?_eq_none (by simp; omega), List.getElem?_eq_none (by omega)]

theorem view_length (f : Producer T → Option β) : view px f px.length = none := by
  simp [view]

/-- A producer that shows the same changes nothing. -/
theorem view_set_of_eq (hx : px[x]? = some p) {q : Producer T} {f : Producer T → Option β}
    (hf : f q = f p) : view (px.set x q) f = view px f := by
  rw [view_set hx, hf, ← view_eq hx f, Function.update_eq_self]

/-- A producer that shows nothing changes nothing when it comes. -/
theorem view_append_of_none {q : Producer T} {f : Producer T → Option β} (hf : f q = none) :
    view (px ++ [q]) f = view px f := by
  rw [view_append, hf, ← view_length f, Function.update_eq_self]

theorem pcs_eq (hx : px[x]? = some p) : pcs px x = some p.pc := view_eq hx _

theorem merging_eq (hx : px[x]? = some p) : merging px (.px x) = p.merging := view_eq hx _

theorem pcs_set (hx : px[x]? = some p) (q : Producer T) :
    pcs (px.set x q) = Function.update (pcs px) x (some q.pc) :=
  view_set hx q _

theorem merging_set (hx : px[x]? = some p) (q : Producer T) :
    merging (px.set x q) = Function.update (merging px) (.px x) q.merging := by
  funext side
  cases side with
  | px y =>
    by_cases hy : y = x
    · subst hy
      rw [Function.update_self]
      exact (congrFun (view_set hx q Producer.merging) y).trans (Function.update_self ..)
    · rw [Function.update_of_ne (by simpa using hy)]
      exact (congrFun (view_set hx q Producer.merging) y).trans (Function.update_of_ne hy ..)
  | cx => rw [Function.update_of_ne (by simp)]; rfl

theorem merging_set_of_eq (hx : px[x]? = some p) {q : Producer T} (hq : q.merging = p.merging) :
    merging (px.set x q) = merging px := by
  rw [merging_set hx, hq, ← merging_eq hx, Function.update_eq_self]

theorem merging_eq_none (h : ∀ p ∈ px, p.merging = none) (side : Side) :
    merging px side = none := by
  cases side with
  | px x => exact Option.bind_eq_none_iff.mpr fun p hx => h p (List.mem_of_getElem? hx)
  | cx => rfl

theorem merging_append {q : Producer T} (hq : q.merging = none) :
    merging (px ++ [q]) = merging px := by
  funext side
  cases side with
  | px y => exact congrFun (view_append_of_none hq) y
  | cx => rfl

end View

end MpscBoundedCached

end Channel
