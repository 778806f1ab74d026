import RustPractices.Channel.MpscBounded
import RustPractices.Channel.SpscBoundedCached

/-!
# The disconnection of the bounded channels

A side that finds the buffer empty, or full, looks whether the other side still exists. The consumer
looks before it looks at the buffer for the last time, so that nothing can be sent in between. In
the channel of one producer both handles clear the same flag, so that whoever finds it cleared in the
middle of a call knows that it was the other.

## Main definitions

* `SpscBoundedCached.Closing`, `MpscBounded.Closing`: what the flags say about the handles
* `SpscBoundedCached.Disconnects`, `MpscBounded.Disconnects`: a call fails only when the other side
  has gone, and `recv` only when everything has been received

## Main results

* `SpscBoundedCached.Closing.step`, `MpscBounded.Closing.step`: one step of any side
* `bounded_disconnects`: both channels along every run
-/

open Transition

namespace Channel

universe u

/-- Nothing is read off events of one kind that the reading passes over. -/
theorem filterMap_eq_nil_of_kind {ι ε α : Type*} {mk : ι → ε} {f : ε → Option α} {out : List ε}
    (hout : ∀ event ∈ out, ∃ i, event = mk i) (hf : ∀ i, f (mk i) = none) :
    out.filterMap f = [] := by
  rw [List.filterMap_eq_nil_iff]
  intro event hevent
  obtain ⟨i, rfl⟩ := hout event hevent
  exact hf i

/-! ## One producer -/

namespace SpscBoundedCached

variable {T : Type u}

/-- The handle of the producer has been dropped. -/
def Send.Gone : Send T → Prop
  | .released | .dropped => True
  | .idle | .available _ | .head _ | .store _ | .publish _ | .panicked => False

/-- The handle of the consumer has been dropped. -/
def Recv.Gone : Recv T → Prop
  | .released | .dropped => True
  | .idle | .available | .tail _ | .load | .publish _ | .panicked => False

/-- **What the flag says about the handles.** -/
structure Closing (tr : List (Event T)) (s : State T) : Prop where
  /-- One of the handles has cleared the flag. -/
  available : s.buf.available = false → s.px.pc.Gone ∨ s.cx.pc.Gone
  /-- What the consumer has found cleared has been cleared by the producer. -/
  tail : s.cx.pc = .tail false → s.px.pc.Gone
  disconnected : .disconnected ∈ tr → s.px.pc.Gone ∧ (received tr).length = (sent tr).length
  refused : ∀ val, .refused val ∈ tr → s.cx.pc.Gone

/-- **A call fails only when the other side has gone.** -/
structure Disconnects (tr : List (Event T)) (s : State T) : Prop where
  /-- `recv` fails only when the producer has been dropped and all that has been sent has been
  received. -/
  disconnected : .disconnected ∈ tr → s.px.pc.Gone ∧ received tr = (sent tr).map some
  /-- `send` fails only when the consumer has been dropped. -/
  refused : ∀ val, .refused val ∈ tr → s.cx.pc.Gone

section Spec

variable {s t : State T} {out : List (Event T)}

/-- What a step of `send` leaves alone, and when it fails. -/
structure PushSpec (s t : State T) (out : List (Event T)) : Prop where
  gone : ¬ s.px.pc.Gone
  cx : t.cx = s.cx
  available : t.buf.available = s.buf.available
  disconnected : .disconnected ∉ out
  refused : ∀ val, .refused val ∈ out → s.buf.available = false

theorem push_spec (h : push s = some (t, out)) : PushSpec s t out := by
  obtain ⟨buf, references, ⟨pc, tail, free⟩, cx⟩ := s
  cases pc with
  | idle | panicked | released | dropped => simp [push] at h
  | available val =>
    cases havailable : buf.available <;> obtain ⟨rfl, rfl⟩ := by simpa [push, havailable] using h
    · exact ⟨id, rfl, rfl, by simp, fun _ _ => havailable⟩
    · exact ⟨id, rfl, rfl, by simp, by simp⟩
  | head val =>
    simp only [push] at h
    split at h
    · obtain ⟨rfl, rfl⟩ := by simpa using h
      exact ⟨id, rfl, rfl, by simp, by simp⟩
    split at h <;> obtain ⟨rfl, rfl⟩ := by simpa using h
    all_goals exact ⟨id, rfl, rfl, by simp, by simp⟩
  | store val =>
    obtain ⟨rfl, rfl⟩ := by simpa [push] using h
    exact ⟨id, rfl, rfl, by simp, by simp⟩
  | publish val =>
    simp only [push] at h
    split at h
    · obtain ⟨rfl, rfl⟩ := by simpa using h
      exact ⟨id, rfl, rfl, by simp, by simp⟩
    split at h <;> obtain ⟨rfl, rfl⟩ := by simpa using h
    all_goals exact ⟨id, rfl, rfl, by simp, by simp⟩

/-- What a step of `recv` leaves alone, and when it fails. -/
structure PopSpec (s t : State T) (out : List (Event T)) : Prop where
  gone : ¬ s.cx.pc.Gone
  px : t.px = s.px
  available : t.buf.available = s.buf.available
  tail : t.cx.pc = .tail false → s.buf.available = false
  sent : sent out = []
  disconnected : .disconnected ∈ out → s.cx.pc = .tail false ∧ s.buf.tail ≤ s.cx.head
  refused : ∀ val, .refused val ∉ out

theorem pop_spec (h : pop s = some (t, out)) : PopSpec s t out := by
  obtain ⟨buf, references, px, ⟨pc, head, full⟩⟩ := s
  cases pc with
  | idle | panicked | released | dropped => simp [pop] at h
  | available =>
    obtain ⟨rfl, rfl⟩ := by simpa [pop] using h
    refine ⟨id, rfl, rfl, ?_, rfl, by simp, by simp⟩
    rintro hpc
    simpa using hpc
  | tail available =>
    simp only [pop] at h
    split at h
    · obtain ⟨rfl, rfl⟩ := by simpa using h
      exact ⟨id, rfl, rfl, by simp, rfl, by simp, by simp⟩
    next full hfull =>
      have hsub : full = buf.tail - head := by
        simp only [checkedSub] at hfull
        split_ifs at hfull
        exact (Option.some.inj hfull).symm
      split_ifs at h with hpos havailable
      all_goals obtain ⟨rfl, rfl⟩ := by simpa using h
      · exact ⟨id, rfl, rfl, by simp, rfl, by simp, by simp⟩
      · exact ⟨id, rfl, rfl, by simp, rfl, by simp, by simp⟩
      · -- the flag had been read before the position
        refine ⟨id, rfl, rfl, by simp, rfl, fun _ => ⟨?_, ?_⟩, by simp⟩
        · rw [Bool.not_eq_true] at havailable
          rw [havailable]
        · show buf.tail ≤ head
          omega
  | load =>
    obtain ⟨rfl, rfl⟩ := by simpa [pop] using h
    exact ⟨id, rfl, rfl, by simp, rfl, by simp, by simp⟩
  | publish res =>
    simp only [pop] at h
    split at h
    · obtain ⟨rfl, rfl⟩ := by simpa using h
      exact ⟨id, rfl, rfl, by simp, rfl, by simp, by simp⟩
    split at h <;> obtain ⟨rfl, rfl⟩ := by simpa using h
    all_goals exact ⟨id, rfl, rfl, by simp, rfl, by simp, by simp⟩

end Spec

namespace Closing

variable {tr out : List (Event T)} {s t : State T}

/-- A step of a producer that has not gone. -/
theorem withProducer (h : Closing tr s) (hgone : ¬ s.px.pc.Gone) (hcx : t.cx = s.cx)
    (havailable : t.buf.available = s.buf.available) (hdisconnected : .disconnected ∉ out)
    (hrefused : ∀ val, .refused val ∈ out → s.buf.available = false) : Closing (tr ++ out) t where
  available := by
    intro hfalse
    rw [havailable] at hfalse
    exact .inr (hcx ▸ (h.available hfalse).resolve_left hgone)
  tail := by
    intro hpc
    rw [hcx] at hpc
    exact absurd (h.tail hpc) hgone
  disconnected := by
    intro hmem
    rcases List.mem_append.mp hmem with hmem | hmem
    · exact absurd (h.disconnected hmem).1 hgone
    · exact absurd hmem hdisconnected
  refused := by
    intro val hmem
    rw [hcx]
    rcases List.mem_append.mp hmem with hmem | hmem
    · exact h.refused val hmem
    · exact (h.available (hrefused val hmem)).resolve_left hgone

/-- Behind the end of the producer, nothing is sent, and all that has been sent has been received. -/
theorem received_eq (hv : Valid (tr ++ out) t) (hsent : sent out = [])
    (h : (received tr).length = (sent tr).length) :
    (received (tr ++ out)).length = (sent (tr ++ out)).length := by
  have hle : (received (tr ++ out)).length ≤ (sent (tr ++ out)).length := by
    rw [hv.buf.received, List.length_map]
    exact List.length_take_le' _ _
  rw [received_append, sent_append, hsent, List.append_nil, List.length_append] at hle ⊢
  omega

/-- A step of a consumer that has not gone. -/
theorem withConsumer (h : Closing tr s) (hv : Valid (tr ++ out) t) (hgone : ¬ s.cx.pc.Gone)
    (hpx : t.px = s.px) (havailable : t.buf.available = s.buf.available) (hsent : sent out = [])
    (htail : t.cx.pc = .tail false → s.buf.available = false)
    (hdisconnected : .disconnected ∈ out →
      s.cx.pc = .tail false ∧ (received tr).length = (sent tr).length)
    (hrefused : ∀ val, .refused val ∉ out) : Closing (tr ++ out) t where
  available := by
    intro hfalse
    rw [havailable] at hfalse
    exact .inl (hpx ▸ (h.available hfalse).resolve_right hgone)
  tail := by
    intro hpc
    exact hpx ▸ (h.available (htail hpc)).resolve_right hgone
  disconnected := by
    intro hmem
    rw [hpx]
    rcases List.mem_append.mp hmem with hmem | hmem
    · obtain ⟨hpxgone, hlength⟩ := h.disconnected hmem
      exact ⟨hpxgone, received_eq hv hsent hlength⟩
    · obtain ⟨hpc, hlength⟩ := hdisconnected hmem
      exact ⟨h.tail hpc, received_eq hv hsent hlength⟩
  refused := by
    intro val hmem
    rcases List.mem_append.mp hmem with hmem | hmem
    · exact absurd (h.refused val hmem) hgone
    · exact absurd hmem (hrefused val)

/-- A handle goes, and nothing returns. -/
theorem drop (h : Closing tr s) (hpx : s.px.pc.Gone → t.px.pc.Gone) (hcx : s.cx.pc.Gone → t.cx.pc.Gone)
    (havailable : t.buf.available = false →
      s.buf.available = false ∨ t.px.pc.Gone ∨ t.cx.pc.Gone)
    (htail : t.cx.pc = .tail false → s.cx.pc = .tail false)
    (hout : ∀ event ∈ out, ∃ res, event = .freed res) : Closing (tr ++ out) t where
  available := by
    intro hfalse
    rcases havailable hfalse with hfalse | hgone
    · exact (h.available hfalse).imp hpx hcx
    · exact hgone
  tail := fun hpc => hpx (h.tail (htail hpc))
  disconnected := by
    intro hmem
    have hreceived : received out = [] := filterMap_eq_nil_of_kind hout fun _ => rfl
    have hsent : sent out = [] := filterMap_eq_nil_of_kind hout fun _ => rfl
    rw [received_append, sent_append, hreceived, hsent, List.append_nil, List.append_nil]
    rcases List.mem_append.mp hmem with hmem | hmem
    · exact (h.disconnected hmem).imp_left hpx
    · obtain ⟨res, heq⟩ := hout _ hmem
      simp at heq
  refused := by
    intro val hmem
    rcases List.mem_append.mp hmem with hmem | hmem
    · exact hcx (h.refused val hmem)
    · obtain ⟨res, heq⟩ := hout _ hmem
      simp at heq

theorem mem_release {event : Event T} (h : event ∈ s.release.2) : ∃ res, event = .freed res := by
  rw [State.release, RingBuffer.drop] at h
  split_ifs at h
  · obtain ⟨pos, -, rfl⟩ := List.mem_map.mp h
    exact ⟨_, rfl⟩
  · simp at h

/-- **One step of either side.** -/
theorem step {a : Action T} (h : Closing tr s) (hs : Valid tr s) (ht : Valid (tr ++ out) t)
    (hstep : step s a = some (t, out)) : Closing (tr ++ out) t := by
  cases a with
  | push =>
    have hspec := push_spec hstep
    exact h.withProducer hspec.gone hspec.cx hspec.available hspec.disconnected hspec.refused
  | pop =>
    have hspec := pop_spec hstep
    refine h.withConsumer ht hspec.gone hspec.px hspec.available hspec.sent hspec.tail ?_
      hspec.refused
    intro hmem
    obtain ⟨hpc, hle⟩ := hspec.disconnected hmem
    refine ⟨hpc, ?_⟩
    have hhead := hs.buf.head_le_tail
    have htail := hs.buf.tail
    rw [hs.cx.head] at hle
    rw [hs.buf.received, List.length_map, List.length_take]
    omega
  | send val =>
    simp only [SpscBoundedCached.step] at hstep
    split at hstep
    next hpc =>
      obtain ⟨rfl, rfl⟩ := by simpa using hstep
      exact h.withProducer (by rw [hpc]; exact id) rfl rfl (by simp) (by simp)
    · simp at hstep
  | recv =>
    simp only [SpscBoundedCached.step] at hstep
    split at hstep
    next hpc =>
      have hgone : ¬ s.cx.pc.Gone := by
        rw [hpc]
        exact id
      split_ifs at hstep <;> obtain ⟨rfl, rfl⟩ := by simpa using hstep
      all_goals exact h.withConsumer ht hgone rfl rfl rfl (by simp) (by simp) (by simp)
    · simp at hstep
  | dropProducer =>
    simp only [SpscBoundedCached.step] at hstep
    split at hstep
    case h_3 => simp at hstep
    all_goals
      obtain ⟨rfl, rfl⟩ := by simpa using hstep
      exact h.drop (fun _ => trivial) id (fun _ => .inr (.inl trivial)) id (by simp)
  | releaseProducer =>
    simp only [SpscBoundedCached.step] at hstep
    split at hstep
    · obtain ⟨rfl, rfl⟩ := Prod.mk.inj (Option.some.inj hstep)
      exact h.drop (fun _ => trivial) id .inl id fun _ => mem_release
    · simp at hstep
  | dropConsumer =>
    simp only [SpscBoundedCached.step] at hstep
    split at hstep
    case h_3 => simp at hstep
    all_goals
      obtain ⟨rfl, rfl⟩ := by simpa using hstep
      exact h.drop id (fun _ => trivial) (fun _ => .inr (.inr trivial)) (by simp) (by simp)
  | releaseConsumer =>
    simp only [SpscBoundedCached.step] at hstep
    split at hstep
    · obtain ⟨rfl, rfl⟩ := Prod.mk.inj (Option.some.inj hstep)
      exact h.drop id (fun _ => trivial) .inl (by simp) fun _ => mem_release
    · simp at hstep

/-- A channel that closes as its flag says loses nothing. -/
theorem disconnects (h : Closing tr s) (hs : Valid tr s) : Disconnects tr s where
  disconnected := by
    intro hmem
    obtain ⟨hgone, hlength⟩ := h.disconnected hmem
    refine ⟨hgone, ?_⟩
    have hreceived := hs.buf.received
    have hlength' := congrArg List.length hreceived
    rw [List.length_map, List.length_take] at hlength'
    rw [hreceived, List.take_of_length_le (by omega)]
  refused := h.refused

end Closing

theorem closing_init (cap : ℕ) : Closing [] (spscBoundedCached T cap).init where
  available := nofun
  tail := nofun
  disconnected := nofun
  refused := nofun

end SpscBoundedCached

/-! ## Many producers -/

namespace MpscBounded

variable {T : Type u}

/-- The handle of the producer has been dropped. -/
def PushBack.Gone : PushBack T → Prop
  | .released | .dropped => True
  | .idle | .lock _ | .isFull _ | .cxExists _ | .again _ | .refuse _ | .store _ | .advance _
  | .addLen _ | .unlock _ | .clone | .panicked => False

/-- The handle of the consumer has been dropped. -/
def PopFront.Gone : PopFront T → Prop
  | .released | .dropped => True
  | .idle | .isEmpty | .pxExist | .again _ | .head | .load _ | .subLen _ => False

/-- How often `px_count` counts a producer: one that is being cloned counts for its clone too. -/
def PushBack.count : PushBack T → ℕ
  | .released | .dropped => 0
  | .clone => 2
  | .idle | .lock _ | .isFull _ | .cxExists _ | .again _ | .refuse _ | .store _ | .advance _
  | .addLen _ | .unlock _ | .panicked => 1

/-- **What the counters say about the handles.** -/
structure Closing (tr : List (Event T)) (s : State T) : Prop where
  pxCount : s.buf.pxCount = (s.px.map PushBack.count).sum
  cxCount : s.buf.cxCount = false → s.cx.Gone
  /-- A producer that is about to fail has found the consumer gone. -/
  refuse : ∀ (x : ℕ) val, s.px[x]? = some (.refuse val) → s.cx.Gone
  /-- A consumer that is about to look for the last time has found no producer. -/
  again : s.cx = .again false → s.buf.pxCount = 0
  disconnected : .disconnected ∈ tr →
    s.buf.pxCount = 0 ∧ (received tr).length = (pushed tr).length
  refused : ∀ x val, .refused x val ∈ tr → s.cx.Gone

/-- **A call fails only when the other side has gone.** -/
structure Disconnects (tr : List (Event T)) (s : State T) : Prop where
  /-- `recv` fails only when every producer has been dropped and all that has been sent has been
  received. -/
  disconnected : .disconnected ∈ tr →
    (∀ p ∈ s.px, p.Gone) ∧ received tr = (sent tr).map fun push => some push.2
  /-- `send` fails only when the consumer has been dropped. -/
  refused : ∀ x val, .refused x val ∈ tr → s.cx.Gone

section Spec

variable {s t : State T} {x : ℕ} {out : List (Event T)}

/-- What a step of the producer `x` in `send` leaves alone, and when it fails. -/
structure PushSpec (s t : State T) (x : ℕ) (p q : PushBack T) (out : List (Event T)) : Prop where
  at_x : s.px[x]? = some p
  px : t.px = s.px.set x q
  count : p.count = 1 ∧ q.count = 1
  cx : t.cx = s.cx
  pxCount : t.buf.pxCount = s.buf.pxCount
  cxCount : t.buf.cxCount = s.buf.cxCount
  refuse : ∀ val, q = .refuse val → s.buf.cxCount = false
  disconnected : .disconnected ∉ out
  refused : ∀ y val, .refused y val ∈ out → ∃ val, p = .refuse val

theorem push_spec (h : push s x = some (t, out)) : ∃ p q, PushSpec s t x p q out := by
  cases hx : s.px[x]? with
  | none => simp [push, hx] at h
  | some p =>
    cases p with
    | idle | clone | panicked | released | dropped => simp [push, hx] at h
    | lock val =>
      simp only [push, hx] at h
      split at h
      · simp at h
      split_ifs at h <;> obtain ⟨rfl, rfl⟩ := by simpa using h
      all_goals exact ⟨_, _, hx, rfl, ⟨rfl, rfl⟩, rfl, rfl, rfl, by simp, by simp, by simp⟩
    | isFull val =>
      simp only [push, hx] at h
      split_ifs at h <;> obtain ⟨rfl, rfl⟩ := by simpa using h
      all_goals exact ⟨_, _, hx, rfl, ⟨rfl, rfl⟩, rfl, rfl, rfl, by simp, by simp, by simp⟩
    | cxExists val =>
      simp only [push, hx] at h
      split_ifs at h with hcount <;> obtain ⟨rfl, rfl⟩ := by simpa using h
      · exact ⟨_, _, hx, rfl, ⟨rfl, rfl⟩, rfl, rfl, rfl, by simp, by simp, by simp⟩
      · refine ⟨_, _, hx, rfl, ⟨rfl, rfl⟩, rfl, rfl, rfl, ?_, by simp, by simp⟩
        exact fun _ _ => by simpa using hcount
    | refuse val =>
      obtain ⟨rfl, rfl⟩ := by simpa [push, hx] using h
      exact ⟨_, _, hx, rfl, ⟨rfl, rfl⟩, rfl, rfl, rfl, by simp, by simp, fun _ _ _ => ⟨val, rfl⟩⟩
    | advance val =>
      simp only [push, hx] at h
      split at h <;> obtain ⟨rfl, rfl⟩ := by simpa using h
      all_goals exact ⟨_, _, hx, rfl, ⟨rfl, rfl⟩, rfl, rfl, rfl, by simp, by simp, by simp⟩
    | again val | store val | addLen val | unlock val =>
      obtain ⟨rfl, rfl⟩ := by simpa [push, hx] using h
      exact ⟨_, _, hx, rfl, ⟨rfl, rfl⟩, rfl, rfl, rfl, by simp, by simp, by simp⟩

/-- What a step of `recv` leaves alone, and when it fails. -/
structure PopSpec (s t : State T) (out : List (Event T)) : Prop where
  gone : ¬ s.cx.Gone ∧ ¬ t.cx.Gone
  px : t.px = s.px
  pxCount : t.buf.pxCount = s.buf.pxCount
  cxCount : t.buf.cxCount = s.buf.cxCount
  again : t.cx = .again false → s.buf.pxCount = 0
  pushed : pushed out = []
  disconnected : .disconnected ∈ out → s.cx = .again false ∧ s.buf.len = 0
  refused : ∀ y val, .refused y val ∉ out

theorem pop_spec (h : pop s = some (t, out)) : PopSpec s t out := by
  obtain ⟨buf, references, px, cx⟩ := s
  cases cx with
  | idle | released | dropped => simp [pop] at h
  | isEmpty =>
    simp only [pop] at h
    split_ifs at h <;> obtain ⟨rfl, rfl⟩ := by simpa using h
    all_goals exact ⟨⟨id, id⟩, rfl, rfl, rfl, by simp, rfl, by simp, by simp⟩
  | pxExist =>
    obtain ⟨rfl, rfl⟩ := by simpa [pop] using h
    refine ⟨⟨id, id⟩, rfl, rfl, rfl, ?_, rfl, by simp, by simp⟩
    intro hcx
    simpa using hcx
  | again pxExist =>
    simp only [pop] at h
    split_ifs at h with hempty hexist <;> obtain ⟨rfl, rfl⟩ := by simpa using h
    · exact ⟨⟨id, id⟩, rfl, rfl, rfl, by simp, rfl, by simp, by simp⟩
    · -- the counter had been read before `len`
      refine ⟨⟨id, id⟩, rfl, rfl, rfl, by simp, rfl, fun _ => ⟨?_, hempty⟩, by simp⟩
      rw [Bool.not_eq_true] at hexist
      rw [hexist]
    · exact ⟨⟨id, id⟩, rfl, rfl, rfl, by simp, rfl, by simp, by simp⟩
  | head | load pos =>
    obtain ⟨rfl, rfl⟩ := by simpa [pop] using h
    exact ⟨⟨id, id⟩, rfl, rfl, rfl, by simp, rfl, by simp, by simp⟩
  | subLen res =>
    have hspec : ∀ len, PopSpec ⟨buf, references, px, .subLen res⟩
        ⟨{ buf with len }, references, px, .idle⟩ [.received res] := fun len =>
      ⟨⟨id, id⟩, rfl, rfl, rfl, by simp, rfl, by simp, by simp⟩
    obtain ⟨rfl, rfl⟩ := by simpa [pop] using h
    exact hspec _

end Spec

namespace Closing

variable {tr out : List (Event T)} {s t : State T} {x : ℕ}

/-- What is counted has not all gone. -/
theorem pxCount_ne_zero (h : Closing tr s) {p : PushBack T} (hx : s.px[x]? = some p)
    (hp : 0 < p.count) : s.buf.pxCount ≠ 0 := by
  have hle := le_sum_map hx PushBack.count
  rw [h.pxCount]
  omega

/-- A step of the producer `x`, which is counted before it, with the clones that come of it. -/
theorem withProducer {p q : PushBack T} {n : ℕ} (h : Closing tr s) (hx : s.px[x]? = some p)
    (hpx : t.px = s.px.set x q ++ List.replicate n .idle) (hp : 0 < p.count)
    (hcount : t.buf.pxCount + p.count = s.buf.pxCount + q.count + n) (hcx : t.cx = s.cx)
    (hcxCount : t.buf.cxCount = s.buf.cxCount)
    (hrefuse : ∀ val, q = .refuse val → s.buf.cxCount = false) (hdisconnected : .disconnected ∉ out)
    (hrefused : ∀ y val, .refused y val ∈ out → ∃ val, p = .refuse val) : Closing (tr ++ out) t where
  pxCount := by
    have hsum := sum_map_set hx q PushBack.count
    have hold := h.pxCount
    have hclones : ((List.replicate n PushBack.idle).map (PushBack.count (T := T))).sum = n := by
      simp [PushBack.count]
    rw [hpx, List.map_append, List.sum_append, hclones]
    omega
  cxCount := by
    rw [hcxCount, hcx]
    exact h.cxCount
  refuse := by
    intro y val hy
    rw [hcx]
    rw [hpx, List.getElem?_append] at hy
    split_ifs at hy
    · by_cases hne : x = y
      · subst hne
        obtain ⟨hlt, -⟩ := List.getElem?_eq_some_iff.mp hx
        rw [List.getElem?_set_self hlt] at hy
        exact h.cxCount (hrefuse val (Option.some.inj hy))
      · rw [List.getElem?_set_ne hne] at hy
        exact h.refuse y val hy
    · have hidle := List.eq_of_mem_replicate (List.mem_of_getElem? hy)
      simp at hidle
  again := by
    intro hpc
    rw [hcx] at hpc
    exact absurd (h.again hpc) (h.pxCount_ne_zero hx hp)
  disconnected := by
    intro hmem
    rcases List.mem_append.mp hmem with hmem | hmem
    · exact absurd (h.disconnected hmem).1 (h.pxCount_ne_zero hx hp)
    · exact absurd hmem hdisconnected
  refused := by
    intro y val hmem
    rw [hcx]
    rcases List.mem_append.mp hmem with hmem | hmem
    · exact h.refused y val hmem
    · obtain ⟨val', rfl⟩ := hrefused y val hmem
      exact h.refuse x val' hx

/-- Behind the end of the producers, nothing is pushed, and all that has been pushed has been
received. -/
theorem received_eq (hv : Valid (tr ++ out) t) (hpushed : pushed out = [])
    (h : (received tr).length = (pushed tr).length) :
    (received (tr ++ out)).length = (pushed (tr ++ out)).length := by
  have hlength : (values (tr ++ out)).length = (pushed (tr ++ out)).length := List.length_map _
  have hlen := hv.buf.len
  rw [received_append, pushed_append, hpushed, List.append_nil] at *
  rw [List.length_append] at *
  omega

/-- A step of the consumer. -/
theorem withConsumer (h : Closing tr s) (hv : Valid (tr ++ out) t) (hpx : t.px = s.px)
    (hpxCount : t.buf.pxCount = s.buf.pxCount) (hgone : s.cx.Gone → t.cx.Gone)
    (hcxCount : t.buf.cxCount = false → s.buf.cxCount = false ∨ t.cx.Gone)
    (hagain : t.cx = .again false → s.buf.pxCount = 0) (hpushed : pushed out = [])
    (hdisconnected : .disconnected ∈ out →
      s.cx = .again false ∧ (received tr).length = (pushed tr).length)
    (hrefused : ∀ y val, .refused y val ∉ out) : Closing (tr ++ out) t where
  pxCount := by
    rw [hpx, hpxCount]
    exact h.pxCount
  cxCount := by
    intro hfalse
    rcases hcxCount hfalse with hfalse | hgone'
    · exact hgone (h.cxCount hfalse)
    · exact hgone'
  refuse := by
    intro x val hx
    rw [hpx] at hx
    exact hgone (h.refuse x val hx)
  again := by
    intro hpc
    rw [hpxCount]
    exact hagain hpc
  disconnected := by
    intro hmem
    rw [hpxCount]
    rcases List.mem_append.mp hmem with hmem | hmem
    · exact (h.disconnected hmem).imp_right (received_eq hv hpushed)
    · obtain ⟨hpc, hlength⟩ := hdisconnected hmem
      exact ⟨h.again hpc, received_eq hv hpushed hlength⟩
  refused := by
    intro x val hmem
    rcases List.mem_append.mp hmem with hmem | hmem
    · exact hgone (h.refused x val hmem)
    · exact absurd hmem (hrefused x val)

/-- Behind the end of the producers, none of them is left. -/
theorem gone (h : Closing tr s) (hcount : s.buf.pxCount = 0) : ∀ p ∈ s.px, p.Gone := by
  intro p hp
  obtain ⟨x, hx⟩ := List.mem_iff_getElem?.mp hp
  have hzero : p.count = 0 := by
    by_contra hne
    exact h.pxCount_ne_zero hx (Nat.pos_of_ne_zero hne) hcount
  cases p <;> first | exact trivial | simp [PushBack.count] at hzero

/-- A producer lets go of its reference, or the consumer. -/
theorem release {px : List (PushBack T)} {cx : PopFront T} (h : Closing tr s)
    (hcount : (px.map PushBack.count).sum = (s.px.map PushBack.count).sum)
    (hrefuse : ∀ (x : ℕ) val, px[x]? = some (.refuse val) → s.px[x]? = some (.refuse val))
    (hcx : s.cx.Gone → cx.Gone) (hagain : cx = .again false → s.cx = .again false) :
    Closing (tr ++ (State.release { s with px, cx }).2) (State.release { s with px, cx }).1 := by
  have hout : ∀ event ∈ (State.release { s with px, cx }).2, ∃ res, event = .freed res := by
    intro event hevent
    rw [State.release, RingBuffer.drop] at hevent
    split_ifs at hevent
    · split at hevent
      · simp at hevent
      · obtain ⟨pos, -, rfl⟩ := List.mem_map.mp hevent
        exact ⟨_, rfl⟩
    · simp at hevent
  generalize (State.release { s with px, cx }).2 = out at hout
  have hreceived : received out = [] := filterMap_eq_nil_of_kind hout fun _ => rfl
  have hpushed : pushed out = [] := filterMap_eq_nil_of_kind hout fun _ => rfl
  constructor
  · exact h.pxCount.trans hcount.symm
  · exact fun hfalse => hcx (h.cxCount hfalse)
  · exact fun x val hx => hcx (h.refuse x val (hrefuse x val hx))
  · exact fun hpc => h.again (hagain hpc)
  · intro hmem
    rw [received_append, pushed_append, hreceived, hpushed, List.append_nil, List.append_nil]
    rcases List.mem_append.mp hmem with hmem | hmem
    · exact h.disconnected hmem
    · obtain ⟨res, heq⟩ := hout _ hmem
      simp at heq
  · intro x val hmem
    rcases List.mem_append.mp hmem with hmem | hmem
    · exact hcx (h.refused x val hmem)
    · obtain ⟨res, heq⟩ := hout _ hmem
      simp at heq

/-- **One step of any side.** -/
theorem step {a : Action T} (h : Closing tr s) (hs : Valid tr s) (ht : Valid (tr ++ out) t)
    (hstep : step s a = some (t, out)) : Closing (tr ++ out) t := by
  cases a with
  | push x =>
    obtain ⟨p, q, hspec⟩ := push_spec hstep
    have hcount := hspec.pxCount
    obtain ⟨hp, hq⟩ := hspec.count
    exact h.withProducer (n := 0) hspec.at_x (hspec.px.trans (List.append_nil _).symm) (by omega)
      (by omega) hspec.cx hspec.cxCount hspec.refuse hspec.disconnected hspec.refused
  | pop =>
    have hspec := pop_spec hstep
    refine h.withConsumer ht hspec.px hspec.pxCount (fun hgone => absurd hgone hspec.gone.1) ?_
      hspec.again hspec.pushed ?_ hspec.refused
    · rw [hspec.cxCount]
      exact .inl
    · intro hmem
      obtain ⟨hpc, hempty⟩ := hspec.disconnected hmem
      refine ⟨hpc, ?_⟩
      have hlen := hs.buf.len
      have hlength : (values tr).length = (pushed tr).length := List.length_map _
      omega
  | send x val =>
    simp only [MpscBounded.step] at hstep
    split at hstep
    next hx =>
      obtain ⟨rfl, rfl⟩ := by simpa using hstep
      exact h.withProducer (n := 0) hx (List.append_nil _).symm one_pos rfl rfl rfl (by simp) (by simp)
        (by simp)
    · simp at hstep
  | clone x =>
    simp only [MpscBounded.step] at hstep
    split at hstep
    next hx =>
      obtain ⟨rfl, rfl⟩ := by simpa using hstep
      exact h.withProducer (n := 0) hx (List.append_nil _).symm one_pos rfl rfl rfl (by simp) (by simp)
        (by simp)
    · simp at hstep
  | cloneBuf x =>
    simp only [MpscBounded.step] at hstep
    split at hstep
    next hx =>
      obtain ⟨rfl, rfl⟩ := by simpa using hstep
      -- what has been counted twice is now two producers
      exact h.withProducer (q := .idle) (n := 1) hx rfl two_pos rfl rfl rfl (by simp) (by simp)
        (by simp)
    · simp at hstep
  | dropProducer x =>
    simp only [MpscBounded.step] at hstep
    split at hstep
    case h_3 => simp at hstep
    all_goals
      next hx =>
        obtain ⟨rfl, rfl⟩ := by simpa using hstep
        have hpos : 0 < s.buf.pxCount := Nat.pos_of_ne_zero (h.pxCount_ne_zero hx one_pos)
        refine h.withProducer (n := 0) hx (List.append_nil _).symm one_pos ?_ rfl rfl (by simp)
          (by simp) (by simp)
        show s.buf.pxCount - 1 + 1 = s.buf.pxCount + 0 + 0
        omega
  | releaseProducer x =>
    simp only [MpscBounded.step] at hstep
    split at hstep
    next hx =>
      obtain ⟨rfl, rfl⟩ := Prod.mk.inj (Option.some.inj hstep)
      refine h.release ?_ ?_ id id
      · have := sum_map_set hx .dropped PushBack.count
        simpa [PushBack.count] using this
      · intro y val hy
        by_cases hne : x = y
        · subst hne
          obtain ⟨hlt, -⟩ := List.getElem?_eq_some_iff.mp hx
          rw [List.getElem?_set_self hlt] at hy
          simp at hy
        · rwa [List.getElem?_set_ne hne] at hy
    · simp at hstep
  | recv =>
    simp only [MpscBounded.step] at hstep
    split at hstep
    next hpc =>
      obtain ⟨rfl, rfl⟩ := by simpa using hstep
      exact h.withConsumer ht rfl rfl (by rw [hpc]; exact False.elim) .inl (by simp) rfl (by simp)
        (by simp)
    · simp at hstep
  | dropConsumer =>
    simp only [MpscBounded.step] at hstep
    split at hstep
    next hpc =>
      obtain ⟨rfl, rfl⟩ := by simpa using hstep
      exact h.withConsumer ht rfl rfl (fun _ => trivial) (fun _ => .inr trivial) (by simp) rfl
        (by simp) (by simp)
    · simp at hstep
  | releaseConsumer =>
    simp only [MpscBounded.step] at hstep
    split at hstep
    · obtain ⟨rfl, rfl⟩ := Prod.mk.inj (Option.some.inj hstep)
      exact h.release rfl (fun _ _ => id) (fun _ => trivial) (by simp)
    · simp at hstep

/-- A channel that closes as its counters say loses nothing. -/
theorem disconnects (h : Closing tr s) (hs : Valid tr s) : Disconnects tr s where
  disconnected := by
    intro hmem
    obtain ⟨hcount, hlength⟩ := h.disconnected hmem
    have hgone := h.gone hcount
    refine ⟨hgone, ?_⟩
    have hholder : s.buf.tail.holder = none := by
      by_contra hne
      obtain ⟨x, hx⟩ := Option.ne_none_iff_exists'.mp hne
      obtain ⟨p, hp⟩ : ∃ p, s.px[x]? = some p :=
        ⟨_, List.getElem?_eq_getElem (hs.pushing.holder_lt hx)⟩
      have hinside := (hs.pushing.inside_iff hp).mpr hx
      have hpgone := hgone p (List.mem_of_getElem? hp)
      cases p <;> first | exact hinside | exact hpgone
    have hsent : pushed tr = sent tr := by
      have hreturned := hs.returned
      rw [hholder] at hreturned
      simpa [returning] using hreturned
    have hall : (values tr).take (received tr).length = values tr :=
      List.take_of_length_le (hlength ▸ (List.length_map _).le)
    rw [hs.buf.received, hall, ← hsent, values, List.map_map]
    rfl
  refused := h.refused

end Closing

theorem closing_init (cap : ℕ) : Closing [] (mpscBounded T cap).init where
  pxCount := rfl
  cxCount := nofun
  refuse := by
    intro x val hx
    simp [mpscBounded, List.getElem?_singleton] at hx
  again := nofun
  disconnected := nofun
  refused := nofun

end MpscBounded

/-! ## Along every run -/

/-- **The disconnection loses nothing**: along every run of the two channels, of every capacity, a
call fails only when the other side has gone, and `recv` only when everything has been received. -/
theorem bounded_disconnects (T : Type u) (cap : ℕ) :
    (∀ tr s, (SpscBoundedCached.spscBoundedCached T cap).Run Machine.unguarded tr s →
      SpscBoundedCached.Disconnects tr s) ∧
    ∀ tr s, (MpscBounded.mpscBounded T cap).Run Machine.unguarded tr s →
      MpscBounded.Disconnects tr s := by
  constructor
  · intro tr s hrun
    have hvalid : ∀ {tr s}, (SpscBoundedCached.spscBoundedCached T cap).Run Machine.unguarded tr s →
        SpscBoundedCached.Valid tr s := fun hrun =>
      hrun.invariant (SpscBoundedCached.valid_init cap) fun _ _ _ _ _ ih _ hstep => ih.step hstep
    have hclosing := hrun.invariant_over hvalid (SpscBoundedCached.closing_init cap)
      fun _ _ _ _ _ hs ht ih hstep => ih.step hs ht hstep
    exact hclosing.disconnects (hvalid hrun)
  · intro tr s hrun
    have hvalid : ∀ {tr s}, (MpscBounded.mpscBounded T cap).Run Machine.unguarded tr s →
        MpscBounded.Valid tr s := fun hrun =>
      hrun.invariant (MpscBounded.valid_init cap) fun _ _ _ _ _ ih _ hstep => ih.step hstep
    have hclosing := hrun.invariant_over hvalid (MpscBounded.closing_init cap)
      fun _ _ _ _ _ hs ht ih hstep => ih.step hs ht hstep
    exact hclosing.disconnects (hvalid hrun)

/-- `recv` has failed. -/
def SpscBoundedCached.Event.isDisconnected {T : Type u} : SpscBoundedCached.Event T → Bool
  | .disconnected => true
  | _ => false

/-- `send` has failed. -/
def MpscBounded.Event.isRefused {T : Type u} : MpscBounded.Event T → Bool
  | .refused _ _ => true
  | _ => false

/-- A value is received behind the end of its producer, and then `recv` fails; a value that finds the
only slot taken is refused behind the end of the consumer. -/
theorem bounded_disconnects_twice :
    (∃ tr s, (SpscBoundedCached.spscBoundedCached ℕ 1).Run Machine.unguarded tr s ∧
      .disconnected ∈ tr ∧ SpscBoundedCached.Disconnects tr s) ∧
    ∃ tr s x val, (MpscBounded.mpscBounded ℕ 1).Run Machine.unguarded tr s ∧
      .refused x val ∈ tr ∧ MpscBounded.Disconnects tr s := by
  constructor
  · have h : ((SpscBoundedCached.spscBoundedCached ℕ 1).exec
        ([.send 1, .push, .push, .dropProducer, .recv, .pop, .pop, .pop, .pop, .recv, .pop,
          .pop] : List (SpscBoundedCached.Action ℕ))).map (fun result => result.2.any (·.isDisconnected)) =
            some true := by decide +kernel
    obtain ⟨⟨s, tr⟩, hexec, hany⟩ := Option.map_eq_some_iff.mp h
    obtain ⟨event, hmem, hevent⟩ := List.any_eq_true.mp hany
    have hrun := Machine.run_exec hexec
    refine ⟨tr, s, hrun, ?_, (bounded_disconnects ℕ 1).1 tr s hrun⟩
    cases event <;> first | exact hmem | simp [SpscBoundedCached.Event.isDisconnected] at hevent
  · have h : ((MpscBounded.mpscBounded ℕ 1).exec
        (MpscBounded.sendCall 0 1 ++ [.dropConsumer, .send 0 2, .push 0, .push 0, .push 0,
          .push 0])).map (fun result => result.2.any (·.isRefused)) = some true := by decide +kernel
    obtain ⟨⟨s, tr⟩, hexec, hany⟩ := Option.map_eq_some_iff.mp h
    obtain ⟨event, hmem, hevent⟩ := List.any_eq_true.mp hany
    have hrun := Machine.run_exec hexec
    cases event with
    | refused x val => exact ⟨tr, s, x, val, hrun, hmem, (bounded_disconnects ℕ 1).2 tr s hrun⟩
    | _ => simp [MpscBounded.Event.isRefused] at hevent

end Channel
