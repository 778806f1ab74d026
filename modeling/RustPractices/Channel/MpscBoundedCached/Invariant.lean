import RustPractices.Channel.MpscBoundedCached.Applying

/-!
# The invariant of the channel with slices

Every value that a producer has taken is in its own buffer, on its way into the ring, or at a
position of the ring that is not before those of the values that the producer has taken earlier. The
counters agree with the positions up to what each side has on its way.

## Main definitions

* `Accounts`: what the producers have taken
* `Valid`: the invariant of the channel

## Main results

* `Valid.withProducer`, `Valid.quiet`: a producer takes a step
* `Valid.reserved_le`, `Valid.excess_le`, `Valid.free_le`: the counters neither wrap around nor fall
  below zero
-/

open Transition Allocation

namespace Channel

namespace MpscBoundedCached

universe u

variable {T : Type u}

/-! ## What has been written -/

section Written

variable {tr out : List (Event T)} {x pos : ℕ} {val : Option T}

theorem written_append_of_stored (hout : stored out = []) : written (tr ++ out) = written tr := by
  funext pos
  rw [written, stored_append, hout, List.append_nil, written]

theorem written_store (x : ℕ) (val : Option T) (hpos : written tr pos = none) :
    written (tr ++ [.stored x pos val]) = Function.update (written tr) pos (some (x, val)) := by
  funext q
  have hstored : stored [Event.stored x pos val] = [(pos, x, val)] := rfl
  rw [written, stored_append, hstored, List.lookup_append]
  by_cases hq : q = pos
  · subst hq
    have hnone : (stored tr).lookup q = none := hpos
    simp [hnone]
  · have hlookup : [(pos, x, val)].lookup q = none := by
      rw [List.lookup_cons, beq_eq_false_iff_ne.mpr hq]
      rfl
    rw [Function.update_of_ne hq, hlookup, Option.or_none, written]

/-- A position that has not been written is not among those that have. -/
theorem nodup_store (h : ((stored tr).map Prod.fst).Nodup) (hpos : written tr pos = none) :
    ((stored (tr ++ [.stored x pos val])).map Prod.fst).Nodup := by
  have hstored : stored [Event.stored x pos val] = [(pos, x, val)] := rfl
  rw [stored_append, hstored, List.map_append, List.map_cons, List.map_nil]
  refine List.nodup_append.mpr ⟨h, List.nodup_singleton _, ?_⟩
  intro q hq q' hq'
  obtain rfl := List.mem_singleton.mp hq'
  rintro rfl
  obtain ⟨write, hwrite, rfl⟩ := List.mem_map.mp hq
  have hne := List.lookup_eq_none_iff.mp hpos write hwrite
  simp at hne

end Written

/-! ## What the producers have taken -/

/-- **What the producers have taken**: it has been written at their positions, or is going to be. -/
structure Accounts (tr : List (Event T)) (tail : ℕ) (px : List (Producer T)) : Prop where
  calls : ∀ (x : ℕ) (p : Producer T), px[x]? = some p → p.Calls (called x tr) (answered x tr)
  taken : ∀ (x : ℕ) (p : Producer T), px[x]? = some p →
    sent x tr ++ p.sending = (stream (written tr) x tail).reduceOption ++ p.unstored
  fresh : ∀ x, px.length ≤ x → called x tr = [] ∧ answered x tr = [] ∧ sent x tr = [] ∧
    ∀ pos val, written tr pos ≠ some (x, val)

namespace Accounts

variable {tr out : List (Event T)} {tail tail' x : ℕ} {px : List (Producer T)} {p q : Producer T}

/-- A producer takes a step. -/
theorem set (h : Accounts tr tail px) (hx : px[x]? = some p)
    (hcalls : q.Calls (called x (tr ++ out)) (answered x (tr ++ out)))
    (htaken : sent x (tr ++ out) ++ q.sending =
      (stream (written (tr ++ out)) x tail').reduceOption ++ q.unstored)
    (hother : ∀ y, y ≠ x → Silent out y)
    (hstream : ∀ y, y ≠ x → stream (written (tr ++ out)) y tail' = stream (written tr) y tail)
    (hwritten : ∀ y, y ≠ x → ∀ pos val, written (tr ++ out) pos = some (y, val) →
      written tr pos = some (y, val)) :
    Accounts (tr ++ out) tail' (px.set x q) := by
  obtain ⟨hlt, -⟩ := List.getElem?_eq_some_iff.mp hx
  refine ⟨?_, ?_, ?_⟩
  · intro y r hy
    by_cases hne : y = x
    · subst hne
      obtain rfl : q = r := by simpa [hlt] using hy
      exact hcalls
    · rw [List.getElem?_set_ne (Ne.symm hne)] at hy
      obtain ⟨hcalled, hanswered, -⟩ := hother y hne
      rw [called_append, answered_append, hcalled, hanswered, List.append_nil, List.append_nil]
      exact h.calls y r hy
  · intro y r hy
    by_cases hne : y = x
    · subst hne
      obtain rfl : q = r := by simpa [hlt] using hy
      exact htaken
    · rw [List.getElem?_set_ne (Ne.symm hne)] at hy
      rw [sent_append, (hother y hne).2.2, List.append_nil, hstream y hne]
      exact h.taken y r hy
  · intro y hle
    rw [List.length_set] at hle
    obtain ⟨hcalled, hanswered, hsent, hnone⟩ := h.fresh y hle
    have hne : y ≠ x := by omega
    obtain ⟨hcalled', hanswered', hsent'⟩ := hother y hne
    refine ⟨?_, ?_, ?_, fun pos val hpos => hnone pos val (hwritten y hne pos val hpos)⟩
    · rw [called_append, hcalled, hcalled', List.append_nil]
    · rw [answered_append, hanswered, hanswered', List.append_nil]
    · rw [sent_append, hsent, hsent', List.append_nil]

/-- A producer takes a step that copies nothing. -/
theorem keep (h : Accounts tr tail px) (hx : px[x]? = some p) (new : List T)
    (hcalls : q.Calls (called x (tr ++ out)) (answered x (tr ++ out)))
    (hsending : sent x out ++ q.sending = p.sending ++ new)
    (hunstored : q.unstored = p.unstored ++ new)
    (hother : ∀ y, y ≠ x → Silent out y) (hstored : stored out = []) :
    Accounts (tr ++ out) tail (px.set x q) := by
  have hwritten : written (tr ++ out) = written tr := written_append_of_stored hstored
  refine h.set hx hcalls ?_ hother (fun y _ => by rw [hwritten]) fun y _ pos val hpos => ?_
  · rw [sent_append, List.append_assoc, hsending, ← List.append_assoc, h.taken x p hx, hwritten,
      hunstored, List.append_assoc]
  · rwa [hwritten] at hpos

/-- A producer takes a step of which nothing is seen. -/
theorem move (h : Accounts tr tail px) (hx : px[x]? = some p)
    (hcalls : q.Calls (called x tr) (answered x tr)) (hsending : q.sending = p.sending)
    (hunstored : q.unstored = p.unstored) : Accounts (tr ++ []) tail (px.set x q) := by
  refine h.keep hx [] (by rwa [List.append_nil]) ?_ ?_ (fun _ _ => ⟨rfl, rfl, rfl⟩) rfl
  · rw [hsending, List.append_nil]
    rfl
  · rw [hunstored, List.append_nil]

/-- Something happens that is no event of a producer. -/
theorem other (h : Accounts tr tail px) (hout : ∀ y, Silent out y) (hstored : stored out = []) :
    Accounts (tr ++ out) tail px := by
  have hwritten : written (tr ++ out) = written tr := written_append_of_stored hstored
  have heq : ∀ y, called y (tr ++ out) = called y tr ∧ answered y (tr ++ out) = answered y tr ∧
      sent y (tr ++ out) = sent y tr := by
    intro y
    obtain ⟨hcalled, hanswered, hsent⟩ := hout y
    rw [called_append, answered_append, sent_append, hcalled, hanswered, hsent, List.append_nil,
      List.append_nil, List.append_nil]
    exact ⟨rfl, rfl, rfl⟩
  refine ⟨?_, ?_, ?_⟩
  · intro y p hy
    rw [(heq y).1, (heq y).2.1]
    exact h.calls y p hy
  · intro y p hy
    rw [(heq y).2.2, hwritten]
    exact h.taken y p hy
  · intro y hle
    rw [(heq y).1, (heq y).2.1, (heq y).2.2, hwritten]
    exact h.fresh y hle

/-- A slice comes behind the others. -/
theorem apply (h : Accounts tr tail px) (hle : tail ≤ tail')
    (hfresh : ∀ pos, tail ≤ pos → written tr pos = none) : Accounts tr tail' px := by
  refine ⟨h.calls, ?_, h.fresh⟩
  intro x p hx
  rw [stream_eq_of_le hle fun pos hpos _ val => by simp [hfresh pos hpos]]
  exact h.taken x p hx

/-- A new producer comes. -/
theorem clone (h : Accounts tr tail px) : Accounts tr tail (px ++ [.new]) := by
  have hcases : ∀ (y : ℕ) (r : Producer T), (px ++ [Producer.new])[y]? = some r →
      px[y]? = some r ∨ y = px.length ∧ r = .new := by
    intro y r hy
    rw [List.getElem?_append] at hy
    split_ifs at hy with hlt
    · exact .inl hy
    · obtain ⟨hzero, rfl⟩ := by simpa [List.getElem?_singleton] using hy
      exact .inr ⟨by omega, rfl⟩
  refine ⟨?_, ?_, ?_⟩
  · intro y r hy
    rcases hcases y r hy with hy | ⟨rfl, rfl⟩
    · exact h.calls y r hy
    · obtain ⟨hcalled, hanswered, -⟩ := h.fresh _ le_rfl
      rw [hcalled, hanswered]
      rfl
  · intro y r hy
    rcases hcases y r hy with hy | ⟨rfl, rfl⟩
    · exact h.taken y r hy
    · obtain ⟨-, -, hsent, hnone⟩ := h.fresh _ le_rfl
      rw [hsent, stream_eq_of_le (Nat.zero_le tail) fun pos _ _ val => hnone pos val]
      rfl
  · intro y hle
    rw [List.length_append] at hle
    exact h.fresh y (by omega)

end Accounts

/-! ## The invariant -/

/-- How many positions the consumer has read and not given back. -/
def Recv.loaded : Recv T → ℕ
  | .subLen _ _ | .addFree _ _ => 1
  | _ => 0

/-- How many positions the consumer has left behind and not given back. -/
def Recv.left : Recv T → ℕ
  | .addFree _ _ => 1
  | _ => 0

/-- The number of references that the consumer holds. -/
def Recv.references : Recv T → ℕ
  | .dropped => 0
  | _ => 1

/-- What the consumer knows: `head` is ahead of what it has given back, a value is there when it is
read, and the producers are gone when it says so. There is nothing left to merge then. -/
def Recv.Valid (buf : RingBuffer T) (popped : ℕ) (written : ℕ → Option (ℕ × Option T)) :
    Recv T → Prop
  | .idle | .isEmpty | .pxExist | .panicked | .released | .dropped => buf.head = popped
  | .again exist => buf.head = popped ∧ (exist = false → buf.pxCount = 0)
  | .reserved => buf.head = popped ∧ buf.pxCount = 0 ∧ buf.len = 0
  | .merge _ => False
  | .head => buf.head = popped ∧ 0 < buf.len
  | .load pos => pos = popped ∧ buf.head = popped + 1 ∧ 0 < buf.len
  | .subLen pos res =>
    pos = popped ∧ buf.head = popped + 1 ∧ 0 < buf.len ∧ res = (written popped).map Prod.snd
  | .addFree pos res => pos = popped ∧ buf.head = popped + 1 ∧ res = (written popped).map Prod.snd

/-- How often all producers are counted by `px_count`. -/
def count (px : List (Producer T)) : ℕ := (px.map Producer.count).sum

/-- The number of references that all sides hold. -/
def references (px : List (Producer T)) (cx : Recv T) : ℕ :=
  (px.map Producer.references).sum + cx.references

/-- What has been handed out and not been published is reserved, up to what is on its way. -/
def Reserved (reserved till tail : ℕ) (px : List (Producer T)) : Prop :=
  reserved + till + (px.map Producer.unreserved).sum = tail + (px.map Producer.excess).sum

/-- The reads of the positions from `a` on. -/
def reads (written : ℕ → Option (ℕ × Option T)) (a n : ℕ) : List (ℕ × Option (Option T)) :=
  (List.range' a n).map fun pos => (pos, (written pos).map Prod.snd)

theorem reads_congr {written written' : ℕ → Option (ℕ × Option T)} {a n : ℕ}
    (h : ∀ pos < a + n, written' pos = written pos) : reads written' a n = reads written a n := by
  refine List.map_congr_left fun pos hpos => ?_
  obtain ⟨-, hlt⟩ := List.mem_range'_1.mp hpos
  rw [h pos hlt]

/-- The invariant of the channel. -/
structure Valid (tr : List (Event T)) (s : State T) : Prop where
  capacity : ∃ k, s.buf.capacity = 2 ^ k
  capacity_lt : s.buf.capacity < 2 ^ 64
  px : ∀ (x : ℕ) (p : Producer T), s.px[x]? = some p → p.Valid
  applying : Applying s.buf.tail s.buf.free s.buf.capacity (popped tr).length (pcs s.px)
  merging : Merging s.buf.filledSlices s.buf.readableTill s.buf.len
    ((popped tr).length + s.cx.left) (merging s.px)
  layout : Layout s.buf.capacity s.buf.inner ((popped tr).length + s.cx.loaded)
    s.buf.readableTill s.buf.tail.data s.buf.filledSlices.data (view s.px Producer.own) (written tr)
  reserved : Reserved s.buf.reserved s.buf.readableTill s.buf.tail.data s.px
  cx : s.cx.Valid s.buf (popped tr).length (written tr)
  accounts : Accounts tr s.buf.tail.data s.px
  nodup : ((stored tr).map Prod.fst).Nodup
  popped_eq : popped tr = reads (written tr) 0 (popped tr).length
  count : s.buf.pxCount = count s.px
  references : s.references = references s.px s.cx
  freed_eq : freed tr = if s.references = 0 then
    reads (written tr) (popped tr).length (s.buf.readableTill - (popped tr).length) else []
  /-- When the consumer has been told that the channel is closed, nothing is left. -/
  disconnected : .disconnected ∈ tr →
    s.buf.pxCount = 0 ∧ (popped tr).length = s.buf.readableTill

namespace Valid

variable {tr out : List (Event T)} {s t : State T} {x : ℕ} {p q : Producer T}

theorem head_eq (h : Valid tr s) : s.unread = (popped tr).length + s.cx.loaded := by
  have hcx := h.cx
  obtain ⟨buf, references, px, cx⟩ := s
  cases cx <;> simp only [State.unread, Recv.loaded, Recv.Valid] at hcx ⊢ <;> omega

/-- The consumer has read what has been published. -/
theorem loaded_le (h : Valid tr s) : (popped tr).length + s.cx.loaded ≤ s.buf.readableTill :=
  h.layout.loaded_le

/-- A producer that is counted keeps the channel open. -/
theorem pxCount_pos (h : Valid tr s) (hx : s.px[x]? = some p) (hlive : p.count ≠ 0) :
    0 < s.buf.pxCount := by
  have hle : p.count ≤ MpscBoundedCached.count s.px := le_sum_map hx Producer.count
  have := h.count
  omega

/-- A producer that holds a reference keeps the buffer. -/
theorem freed_eq_nil (h : Valid tr s) (hx : s.px[x]? = some p) (hpos : p.references ≠ 0) :
    s.references ≠ 0 ∧ freed tr = [] := by
  have hle : p.references ≤ (s.px.map Producer.references).sum := le_sum_map hx Producer.references
  have hsum : s.references = (s.px.map Producer.references).sum + s.cx.references := h.references
  have hne : s.references ≠ 0 := by omega
  exact ⟨hne, by rw [h.freed_eq, if_neg hne]⟩

/-- What the consumer knows stays true when a producer takes a step. -/
theorem cx_of_live (h : Valid tr s) (hopen : 0 < s.buf.pxCount) (buf' : RingBuffer T)
    {written' : ℕ → Option (ℕ × Option T)} (hhead : buf'.head = s.buf.head)
    (hlen : s.buf.len ≤ buf'.len)
    (hwritten : ∀ pos < s.buf.readableTill, written' pos = written tr pos) :
    s.cx.Valid buf' (popped tr).length written' := by
  have hcx := h.cx
  have hloaded := h.loaded_le
  obtain ⟨buf, references, px, cx⟩ := s
  cases cx with
  | idle | isEmpty | pxExist | panicked | released | dropped => exact hhead.trans hcx
  | again exist =>
    obtain ⟨heq, hgone⟩ : _ ∧ (exist = false → buf.pxCount = 0) := hcx
    refine ⟨hhead.trans heq, fun hexist => ?_⟩
    exact absurd (hgone hexist) hopen.ne'
  | reserved => exact absurd hcx.2.1 hopen.ne'
  | merge m => exact hcx
  | head => exact ⟨hhead.trans hcx.1, hcx.2.trans_le hlen⟩
  | load pos => exact ⟨hcx.1, hhead.trans hcx.2.1, hcx.2.2.trans_le hlen⟩
  | subLen pos res =>
    simp only [Recv.loaded] at hloaded
    refine ⟨hcx.1, hhead.trans hcx.2.1, hcx.2.2.1.trans_le hlen, ?_⟩
    rw [hwritten _ hloaded]
    exact hcx.2.2.2
  | addFree pos res =>
    simp only [Recv.loaded] at hloaded
    refine ⟨hcx.1, hhead.trans hcx.2.1, ?_⟩
    rw [hwritten _ hloaded]
    exact hcx.2.2

/-- A producer that is counted takes a step. -/
theorem withProducer (h : Valid tr s) (hx : s.px[x]? = some p) (hlive : p.count ≠ 0)
    {buf' : RingBuffer T} (hout : Unread out) (hcapacity : buf'.capacity = s.buf.capacity)
    (hhead : buf'.head = s.buf.head) (hlen : s.buf.len ≤ buf'.len) (hq : q.Valid)
    (happlying : Applying buf'.tail buf'.free s.buf.capacity (popped tr).length
      (Function.update (pcs s.px) x (some q.pc)))
    (hmerging : Merging buf'.filledSlices buf'.readableTill buf'.len
      ((popped tr).length + s.cx.left) (Function.update (MpscBoundedCached.merging s.px) (.px x)
        q.merging))
    (hlayout : Layout s.buf.capacity buf'.inner ((popped tr).length + s.cx.loaded)
      buf'.readableTill buf'.tail.data buf'.filledSlices.data
      (Function.update (view s.px Producer.own) x q.own) (written (tr ++ out)))
    (hreserved : buf'.reserved + buf'.readableTill + q.unreserved + s.buf.tail.data + p.excess =
      s.buf.reserved + s.buf.readableTill + p.unreserved + buf'.tail.data + q.excess)
    (haccounts : Accounts (tr ++ out) buf'.tail.data (s.px.set x q))
    (hnodup : ((stored (tr ++ out)).map Prod.fst).Nodup)
    (hcount : buf'.pxCount + p.count = s.buf.pxCount + q.count)
    (hreferences : q.references = p.references)
    (hwritten : ∀ pos < s.buf.readableTill, written (tr ++ out) pos = written tr pos) :
    Valid (tr ++ out) (State.setPx { s with buf := buf' } x q) := by
  have hopen := h.pxCount_pos hx hlive
  have hclosed : .disconnected ∉ tr := fun hmem => hopen.ne' (h.disconnected hmem).1
  have hloaded := h.loaded_le
  obtain ⟨hpopped, hfreed, hnone⟩ := hout
  have hpopped' : popped (tr ++ out) = popped tr := by rw [popped_append, hpopped, List.append_nil]
  have hheld : p.references ≠ 0 := by
    obtain ⟨pc, bufLocal, allocatedSlice⟩ := p
    cases pc <;> simp_all [Producer.count, Producer.references]
  obtain ⟨hreferences', hfreed'⟩ := h.freed_eq_nil hx hheld
  constructor
  case capacity => exact hcapacity ▸ h.capacity
  case capacity_lt => exact hcapacity ▸ h.capacity_lt
  case px =>
    intro y r hy
    by_cases hne : y = x
    · subst hne
      obtain ⟨hlt, -⟩ := List.getElem?_eq_some_iff.mp hx
      obtain rfl : q = r := by simpa [State.setPx, hlt] using hy
      exact hq
    · refine h.px y r ?_
      rwa [← List.getElem?_set_ne (Ne.symm hne)]
  case applying =>
    rw [hpopped']
    show Applying buf'.tail buf'.free buf'.capacity _ (pcs (s.px.set x q))
    rw [pcs_set hx, hcapacity]
    exact happlying
  case merging =>
    rw [hpopped']
    show Merging _ _ _ _ (MpscBoundedCached.merging (s.px.set x q))
    rw [merging_set hx]
    exact hmerging
  case layout =>
    rw [hpopped']
    show Layout buf'.capacity _ _ _ _ _ (view (s.px.set x q) Producer.own) _
    rw [view_set hx, hcapacity]
    exact hlayout
  case reserved =>
    have hbefore : Reserved _ _ _ s.px := h.reserved
    have hunreserved := sum_map_set hx q Producer.unreserved
    have hexcess := sum_map_set hx q Producer.excess
    simp only [Reserved, State.setPx] at hbefore ⊢
    omega
  case cx =>
    rw [hpopped']
    exact h.cx_of_live hopen buf' hhead hlen hwritten
  case accounts => exact haccounts
  case nodup => exact hnodup
  case popped_eq =>
    have hreads : reads (written (tr ++ out)) 0 (popped tr).length =
        reads (written tr) 0 (popped tr).length :=
      reads_congr fun pos hpos => hwritten pos (by omega)
    rw [hpopped', hreads]
    exact h.popped_eq
  case count =>
    have hbefore := h.count
    have hsum := sum_map_set hx q Producer.count
    simp only [MpscBoundedCached.count, State.setPx] at hbefore ⊢
    omega
  case references =>
    have hbefore := h.references
    have hsum := sum_map_set hx q Producer.references
    simp only [MpscBoundedCached.references, State.setPx] at hbefore ⊢
    omega
  case freed_eq =>
    rw [freed_append, hfreed, hfreed', List.append_nil]
    exact (if_neg hreferences').symm
  case disconnected =>
    intro hmem
    exact absurd (List.mem_append.mp hmem) (not_or.mpr ⟨hclosed, hnone⟩)

/-- A producer that is counted takes a step that leaves the slices as they are. -/
theorem quiet (h : Valid tr s) (hx : s.px[x]? = some p) (hlive : p.count ≠ 0)
    (buf' : RingBuffer T) (hout : Unread out) (hstored : stored out = [])
    (hbuf : buf' = { s.buf with
      tail := buf'.tail, free := buf'.free, reserved := buf'.reserved, pxCount := buf'.pxCount })
    (hdata : buf'.tail.data = s.buf.tail.data) (hq : q.Valid)
    (happlying : Applying buf'.tail buf'.free s.buf.capacity (popped tr).length
      (Function.update (pcs s.px) x (some q.pc)))
    (hmerging : q.merging = p.merging) (hown : q.own = p.own)
    (hreserved : buf'.reserved + q.unreserved = s.buf.reserved + p.unreserved)
    (haccounts : Accounts (tr ++ out) s.buf.tail.data (s.px.set x q))
    (hcount : buf'.pxCount + p.count = s.buf.pxCount + q.count)
    (hreferences : q.references = p.references) :
    Valid (tr ++ out) (State.setPx { s with buf := buf' } x q) := by
  have hwritten : written (tr ++ out) = written tr := written_append_of_stored hstored
  have hexcess : q.excess = p.excess := by
    rw [Producer.excess_eq, Producer.excess_eq, hmerging]
  have hinner : buf'.inner = s.buf.inner := by rw [hbuf]
  have hslices : buf'.filledSlices = s.buf.filledSlices := by rw [hbuf]
  have htill : buf'.readableTill = s.buf.readableTill := by rw [hbuf]
  have hlen : buf'.len = s.buf.len := by rw [hbuf]
  refine h.withProducer hx hlive hout (by rw [hbuf]) (by rw [hbuf]) hlen.ge hq happlying ?_ ?_ ?_ ?_
    ?_ hcount hreferences fun pos _ => by rw [hwritten]
  · rw [hmerging, ← merging_eq hx, Function.update_eq_self, hslices, htill, hlen]
    exact h.merging
  · rw [hown, ← view_eq hx Producer.own, Function.update_eq_self, hwritten, hinner, hslices, htill,
      hdata]
    exact h.layout
  · rw [hexcess, htill, hdata]
    omega
  · rw [hdata]
    exact haccounts
  · rw [stored_append, hstored, List.append_nil]
    exact h.nodup

/-- When no producer has anything on its way, what has not been published is reserved. -/
theorem reserved_eq (h : Valid tr s)
    (hquiet : ∀ p ∈ s.px, p.unreserved = 0 ∧ p.excess = 0) :
    s.buf.reserved + s.buf.readableTill = s.buf.tail.data := by
  have hunreserved : (s.px.map Producer.unreserved).sum = 0 := by
    refine List.sum_eq_zero fun k hk => ?_
    obtain ⟨p, hp, rfl⟩ := List.mem_map.mp hk
    exact (hquiet p hp).1
  have hexcess : (s.px.map Producer.excess).sum = 0 := by
    refine List.sum_eq_zero fun k hk => ?_
    obtain ⟨p, hp, rfl⟩ := List.mem_map.mp hk
    exact (hquiet p hp).2
  have hreserved : s.buf.reserved + _ + _ = _ := h.reserved
  omega

/-! ### The counters -/

/-- What has been published and is still reserved has been published by the holder of
`filled_slices`. -/
theorem sum_excess_le (h : Valid tr s) :
    (s.px.map Producer.excess).sum ≤ s.buf.readableTill := by
  have hcases : ∀ (m : ℕ) p, s.px[m]? = some p → p.excess ≠ 0 →
      ∃ merge, MpscBoundedCached.merging s.px (.px m) = some merge ∧ merge.Inside ∧
        p.excess = merge.excess := by
    intro m p hp hne
    have hm := merging_eq hp
    obtain ⟨pc, bufLocal, allocatedSlice⟩ := p
    cases pc <;> simp only [Producer.excess, ne_eq, not_true_eq_false] at hne
    case merge merge _ =>
      refine ⟨merge, hm, ?_, rfl⟩
      cases merge <;> trivial
  refine sum_map_le_of_unique ?_ ?_
  · intro p hp
    obtain ⟨m, hm⟩ := List.mem_iff_getElem?.mp hp
    by_cases hzero : p.excess = 0
    · rw [hzero]
      exact Nat.zero_le _
    obtain ⟨merge, hmerge, hinside, heq⟩ := hcases m p hm hzero
    have hknows := h.merging.locked.of_inside hmerge hinside
    rw [heq]
    cases merge with
    | remove slice =>
      have := hknows.2.2.1
      simp only [Merge.excess]
      omega
    | addLen n =>
      have := hknows.1
      simp only [Merge.excess]
      omega
    | subReserved n => exact hknows.2
    | lock _ | insert _ | first | exchange _ | again | leave => exact Nat.zero_le _
  · intro m n p q hp hq hfp hfq
    obtain ⟨merge, hmerge, hinside, -⟩ := hcases m p hp hfp
    obtain ⟨merge', hmerge', hinside', -⟩ := hcases n q hq hfq
    simpa using h.merging.locked.eq_of_inside hmerge hmerge' hinside hinside'

/-- What has been handed out and is not yet reserved has been handed out to the holder of `tail`. -/
theorem sum_unreserved_le (h : Valid tr s) :
    (s.px.map Producer.unreserved).sum + s.buf.readableTill ≤ s.buf.tail.data := by
  have hcases : ∀ (m : ℕ) p, s.px[m]? = some p → p.unreserved ≠ 0 →
      ∃ val slice, p.pc = .addReserved val slice := by
    rintro m ⟨pc, bufLocal, allocatedSlice⟩ hp hne
    cases pc <;> simp only [Producer.unreserved, ne_eq, not_true_eq_false] at hne
    exact ⟨_, _, rfl⟩
  have hle : (s.px.map Producer.unreserved).sum ≤ s.buf.tail.data - s.buf.readableTill := by
    refine sum_map_le_of_unique ?_ ?_
    · intro p hp
      obtain ⟨m, hm⟩ := List.mem_iff_getElem?.mp hp
      by_cases hzero : p.unreserved = 0
      · rw [hzero]
        exact Nat.zero_le _
      obtain ⟨val, slice, hpc⟩ := hcases m p hm hzero
      have hown : view s.px Producer.own m = some (slice, 0) := by
        rw [view_eq hm, Producer.own, hpc]
      have := h.layout.own_bounds hown
      simp only [Producer.unreserved, hpc]
      omega
    · intro m n p q hp hq hfp hfq
      obtain ⟨val, slice, hpc⟩ := hcases m p hp hfp
      obtain ⟨val', slice', hpc'⟩ := hcases n q hq hfq
      have hinside : p.pc.Inside := hpc ▸ trivial
      have hinside' : q.pc.Inside := hpc' ▸ trivial
      exact h.applying.locked.eq_of_inside (pcs_eq hp) (pcs_eq hq) hinside hinside'
  have := h.layout.till_le
  omega

/-- Not more is reserved than has been handed out. -/
theorem reserved_le (h : Valid tr s) (hx : s.px[x]? = some p) :
    s.buf.reserved + p.unreserved ≤ s.buf.tail.data := by
  have hbefore : s.buf.reserved + _ + _ = _ := h.reserved
  have hexcess := h.sum_excess_le
  have hle : p.unreserved ≤ (s.px.map Producer.unreserved).sum := le_sum_map hx Producer.unreserved
  omega

/-- What a producer takes from `reserved` is there. -/
theorem excess_le (h : Valid tr s) (hx : s.px[x]? = some p) : p.excess ≤ s.buf.reserved := by
  have hbefore : s.buf.reserved + _ + _ = _ := h.reserved
  have hunreserved := h.sum_unreserved_le
  have hle : p.excess ≤ (s.px.map Producer.excess).sum := le_sum_map hx Producer.excess
  omega

/-- There are not more free slots than slots, and the one that has been read is not free yet. -/
theorem free_le (h : Valid tr s) : s.buf.free + s.cx.loaded ≤ s.buf.capacity := by
  have hloaded := h.loaded_le
  have htill := h.layout.till_le
  cases hholder : s.buf.tail.holder with
  | none =>
    have := h.applying.locked.free hholder
    omega
  | some x =>
    obtain ⟨pc, hpc, hinside⟩ := (h.applying.locked.inside_iff x).mpr hholder
    have hknows := h.applying.locked.of_inside hpc hinside
    obtain ⟨p, hx, rfl⟩ : ∃ p, s.px[x]? = some p ∧ p.pc = pc := by
      simpa [pcs, view, Option.bind_eq_some_iff] using hpc
    -- `free` has not been lowered for the slice of the holder
    have hdebt : ∀ slice, p.own = some (slice, 0) →
        s.buf.readableTill ≤ slice.start ∧ slice.start + slice.len ≤ s.buf.tail.data ∧
          0 < slice.len := fun slice hown => h.layout.own_bounds ((view_eq hx Producer.own).trans hown)
    obtain ⟨pc, bufLocal, allocatedSlice⟩ := p
    cases pc with
    | free _ | applied _ _ | full _ | advance _ _ =>
      simp only [Send.Knows] at hknows
      omega
    | addReserved _ slice | subFree _ slice =>
      have := hdebt slice rfl
      simp only [Send.Knows] at hknows
      omega
    | idle | lock _ | cxExists _ | store _ _ _ _ | merge _ _ | clone | subPxCount | panicked
    | released | dropped => exact absurd hinside id

end Valid

end MpscBoundedCached

end Channel
