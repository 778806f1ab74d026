import RustPractices.Channel.MpscBoundedCached.Invariant

/-!
# The steps of the channel with slices

Each step of each side keeps the invariant.

## Main results

* `Valid.push`, `Valid.pop`: the steps of a producer and of the consumer
* `Valid.closed`: nothing is on its way when no producer is counted
* `Valid.release`: the end of a handle, and of the buffer with the last one
* `Valid.step`: one step of any side
-/

open Transition Allocation

namespace Channel

namespace MpscBoundedCached

universe u

variable {T : Type u}

namespace Valid

variable {tr out : List (Event T)} {s t : State T} {x : ℕ} {p q : Producer T}

/-! ## The steps of a producer -/

/-- A producer in `apply`, or between two calls of it. -/
theorem push_apply (h : Valid tr s) (hx : s.px[x]? = some p) (hstep : push s x = some (t, out))
    (happly : match p.pc with
      | .lock _ | .free _ | .advance _ _ | .addReserved _ _ | .subFree _ _ | .applied _ _ | .full _
      | .cxExists _ => True
      | _ => False) :
    Valid (tr ++ out) t := by
  have hvalid := h.px x p hx
  have hcalls := h.accounts.calls x p hx
  have hpcs := pcs_eq hx
  have htail := h.applying.tail_lt
  have hturn : p.pc.Inside → s.buf.tail.holder = some x := h.applying.locked.holder_eq hpcs
  have hknows := h.applying.locked.of_inside hpcs
  have hreserved := h.reserved_le hx
  have hunread : Unread ([] : List (Event T)) := ⟨rfl, rfl, by simp⟩
  unfold push at hstep
  rw [hx] at hstep
  obtain ⟨pc, bufLocal, allocatedSlice⟩ := p
  cases pc <;> dsimp only at happly hstep hknows
  case lock val =>
    obtain ⟨rfl, rfl⟩ : allocatedSlice = none ∧ bufLocal = [] := hvalid
    have hcalls' : called x tr = answered x tr ++ [val] := hcalls
    split at hstep
    · simp at hstep
    next hnone =>
    split_ifs at hstep <;> obtain ⟨rfl, rfl⟩ := by simpa using hstep
    · refine h.quiet hx one_ne_zero _ hunread rfl rfl rfl ⟨rfl, rfl⟩ ?_ rfl rfl rfl ?_ rfl rfl
      · exact h.applying.outside hpcs id id
      · refine h.accounts.move hx ?_ rfl rfl
        simp [Producer.Calls, hcalls']
    · refine h.quiet hx one_ne_zero _ hunread rfl rfl rfl ⟨rfl, rfl⟩ ?_ rfl rfl rfl ?_ rfl rfl
      · exact h.applying.set (.inl hnone) htail (.inr rfl) (iff_of_true trivial rfl)
          (fun hknows => by cases hknows) fun _ => h.applying.locked.free hnone
      · exact h.accounts.move hx hcalls rfl rfl
  case free val =>
    obtain ⟨rfl, rfl⟩ : allocatedSlice = none ∧ bufLocal = [] := hvalid
    have hfree : s.buf.free + s.buf.tail.data = s.buf.capacity + (popped tr).length :=
      hknows trivial
    have hgo : ∀ pc' : Send T, pc'.Inside →
        pc'.Knows s.buf.free s.buf.tail.data s.buf.capacity (popped tr).length →
        Applying s.buf.tail s.buf.free s.buf.capacity (popped tr).length
          (Function.update (pcs s.px) x (some pc')) := by
      intro pc' hinside hknows'
      refine h.applying.set (.inr (hturn trivial)) htail (.inr (hturn trivial))
        (iff_of_true hinside (hturn trivial)) (fun _ => hfree) fun _ => hknows'
    split_ifs at hstep with hge hpos <;> obtain ⟨rfl, rfl⟩ := by simpa using hstep
    · refine h.quiet hx one_ne_zero _ hunread rfl rfl rfl ⟨rfl, rfl⟩ (hgo _ trivial ?_) rfl rfl rfl
        ?_ rfl rfl
      · exact ⟨hfree, by decide, hge⟩
      · exact h.accounts.move hx hcalls rfl rfl
    · refine h.quiet hx one_ne_zero _ hunread rfl rfl rfl ⟨rfl, rfl⟩ (hgo _ trivial ?_) rfl rfl rfl
        ?_ rfl rfl
      · exact ⟨hfree, hpos, le_rfl⟩
      · exact h.accounts.move hx hcalls rfl rfl
    · refine h.quiet hx one_ne_zero _ hunread rfl rfl rfl ⟨rfl, rfl⟩ (hgo _ trivial hfree) rfl rfl
        rfl ?_ rfl rfl
      exact h.accounts.move hx hcalls rfl rfl
  case advance val size =>
    obtain ⟨rfl, rfl⟩ : allocatedSlice = none ∧ bufLocal = [] := hvalid
    obtain ⟨hfree, hpos, hsize⟩ := hknows trivial
    have hcalls' : called x tr = answered x tr ++ [val] := hcalls
    split at hstep
    · obtain ⟨rfl, rfl⟩ := by simpa using hstep
      refine h.quiet hx one_ne_zero _ hunread rfl rfl rfl ⟨rfl, rfl⟩ ?_ rfl rfl rfl ?_ rfl rfl
      · exact h.applying.set (.inr (hturn trivial)) htail (.inl rfl) (iff_of_false id (by simp))
          (fun _ => hfree) fun hin => hin.elim
      · refine h.accounts.move hx ?_ rfl rfl
        simp [Producer.Calls, hcalls']
    · next hadd =>
      have hlt := checkedAdd_lt hadd
      obtain rfl := checkedAdd_eq_some hadd
      obtain ⟨rfl, rfl⟩ := by simpa using hstep
      have hown : view s.px Producer.own x = none := by
        rw [view_eq hx]
        rfl
      refine h.withProducer hx one_ne_zero hunread rfl rfl le_rfl ⟨rfl, rfl⟩ ?_ ?_ ?_ ?_ ?_ ?_ rfl
        rfl fun _ _ => by rw [List.append_nil]
      · refine h.applying.set (.inr (hturn trivial)) hlt (.inr (hturn trivial))
          (iff_of_true trivial (hturn trivial)) (fun hnone => ?_) fun _ => ?_
        · exact absurd ((hturn trivial).symm.trans hnone) (by simp)
        · simp only [Send.Knows]
          omega
      · show Merging _ _ _ _ (Function.update _ _ none)
        rw [← show _ = none from merging_eq hx, Function.update_eq_self]
        exact h.merging
      · rw [List.append_nil]
        exact h.layout.apply hown hpos
      · simp only [Producer.unreserved, Producer.excess]
        omega
      · exact (h.accounts.apply (Nat.le_add_right _ _) h.layout.fresh).move hx hcalls rfl rfl
      · simpa using h.nodup
  case addReserved val slice =>
    obtain ⟨rfl, rfl⟩ : allocatedSlice = none ∧ bufLocal = [] := hvalid
    obtain ⟨rfl, rfl⟩ := by simpa using hstep
    have hadd : wrappingAdd s.buf.reserved slice.len = s.buf.reserved + slice.len :=
      wrappingAdd_of_lt (by simp only [Producer.unreserved] at hreserved; omega)
    refine h.quiet hx one_ne_zero _ hunread rfl rfl rfl ⟨rfl, rfl⟩ ?_ rfl rfl hadd ?_ rfl rfl
    · refine h.applying.set (.inr (hturn trivial)) htail (.inr (hturn trivial))
        (iff_of_true trivial (hturn trivial)) (fun hnone => ?_) hknows
      exact absurd ((hturn trivial).symm.trans hnone) (by simp)
    · exact h.accounts.move hx hcalls rfl rfl
  case subFree val slice =>
    obtain ⟨rfl, rfl⟩ : allocatedSlice = none ∧ bufLocal = [] := hvalid
    obtain ⟨rfl, rfl⟩ := by simpa using hstep
    obtain ⟨hdebt, hle⟩ := hknows trivial
    have hfree := h.free_le
    have hcap := h.capacity_lt
    have hsub : wrappingSub s.buf.free slice.len = s.buf.free - slice.len :=
      wrappingSub_of_le hle (by omega)
    have hfree' : wrappingSub s.buf.free slice.len + s.buf.tail.data =
        s.buf.capacity + (popped tr).length := by omega
    refine h.quiet hx one_ne_zero _ hunread rfl rfl rfl ⟨rfl, rfl⟩ ?_ rfl rfl rfl ?_ rfl rfl
    · exact h.applying.set (.inr (hturn trivial)) htail (.inr (hturn trivial))
        (iff_of_true trivial (hturn trivial)) (fun _ => hfree') fun _ => hfree'
    · exact h.accounts.move hx hcalls rfl rfl
  case applied val slice =>
    obtain ⟨rfl, rfl⟩ : allocatedSlice = none ∧ bufLocal = [] := hvalid
    have hcalls' : called x tr = answered x tr ++ [val] := hcalls
    have hown : view s.px Producer.own x = some (slice, 0) := view_eq hx _
    have hpos := (h.layout.own_bounds hown).2.2
    have hsettles := settles_send ⟨.applied val slice, [], some slice⟩ x val rfl hpos
    obtain ⟨rfl, rfl⟩ := Prod.mk.inj (Option.some.inj hstep)
    refine h.quiet hx one_ne_zero _ hsettles.unread hsettles.stored rfl rfl hsettles.valid ?_
      hsettles.merging hsettles.own ?_ ?_ ?_ hsettles.references
    · refine h.applying.set (.inr (hturn trivial)) htail (.inl rfl)
        (iff_of_false hsettles.outside (by simp)) (fun _ => hknows trivial) fun hin => ?_
      exact absurd hin hsettles.outside
    · exact congrArg (s.buf.reserved + ·) hsettles.unreserved
    · refine h.accounts.keep hx [val] ?_ hsettles.sent hsettles.unstored hsettles.silent
        hsettles.stored
      rw [called_append, answered_append, hsettles.called, List.append_nil]
      exact hsettles.calls _ _ hcalls'
    · exact congrArg (s.buf.pxCount + ·) hsettles.count.symm
  case full val =>
    obtain ⟨rfl, rfl⟩ : allocatedSlice = none ∧ bufLocal = [] := hvalid
    obtain ⟨rfl, rfl⟩ := by simpa using hstep
    refine h.quiet hx one_ne_zero _ hunread rfl rfl rfl ⟨rfl, rfl⟩ ?_ rfl rfl rfl ?_ rfl rfl
    · exact h.applying.set (.inr (hturn trivial)) htail (.inl rfl) (iff_of_false id (by simp))
        (fun _ => hknows trivial) fun hin => hin.elim
    · exact h.accounts.move hx hcalls rfl rfl
  case cxExists val =>
    obtain ⟨rfl, rfl⟩ : allocatedSlice = none ∧ bufLocal = [] := hvalid
    have hcalls' : called x tr = answered x tr ++ [val] := hcalls
    split_ifs at hstep <;> obtain ⟨rfl, rfl⟩ := by simpa using hstep
    · refine h.quiet hx one_ne_zero _ hunread rfl rfl rfl ⟨rfl, rfl⟩ ?_ rfl rfl rfl ?_ rfl rfl
      · exact h.applying.outside hpcs id id
      · exact h.accounts.move hx hcalls rfl rfl
    · refine h.quiet hx one_ne_zero _ ⟨rfl, rfl, by simp⟩ rfl rfl rfl rfl ?_ rfl rfl rfl ?_ rfl rfl
      · exact h.applying.outside hpcs id id
      · refine h.accounts.keep hx [] ?_ rfl rfl (fun y hne => ?_) rfl
        · show called x (tr ++ [.refused x val]) = answered x (tr ++ [.refused x val])
          rw [called_append, answered_append, hcalls']
          simp [called, answered]
        · simp [Silent, called, answered, sent, Ne.symm hne]

/-- A producer copies its slice. -/
theorem push_store (h : Valid tr s) {slice : Slice} {copied : ℕ} {vals : List (Option T)}
    {after : After T} (hx : s.px[x]? = some p) (hpc : p.pc = .store slice copied vals after)
    (hstep : push s x = some (t, out)) : Valid (tr ++ out) t := by
  obtain ⟨pc, bufLocal, allocatedSlice⟩ := p
  obtain rfl : pc = _ := hpc
  obtain ⟨rfl, rfl, hlength⟩ : allocatedSlice = some slice ∧ bufLocal = [] ∧ _ := h.px x _ hx
  have hown : view s.px Producer.own x = some (slice, copied) := view_eq hx _
  have hcalls : after.Calls (called x tr) (answered x tr) := h.accounts.calls x _ hx
  unfold push at hstep
  rw [hx] at hstep
  cases vals with
  | cons val vals =>
    obtain ⟨rfl, rfl⟩ := by simpa using hstep
    rw [List.length_cons] at hlength
    have hcopied : copied < slice.len := by omega
    have hloaded := h.loaded_le
    obtain ⟨htill, htail, -⟩ := h.layout.own_bounds hown
    have htail' := h.applying.tail_le
    have hnone : written tr (slice.start + copied) = none :=
      h.layout.uncopied hown _ le_rfl (by omega)
    have hslot : s.buf.storeSlot slice.start copied = (slice.start + copied) % s.buf.capacity :=
      storeSlot_eq h.capacity (by omega)
    have hwritten := written_store x val hnone
    refine h.withProducer hx one_ne_zero ⟨rfl, rfl, by simp⟩ rfl rfl le_rfl ⟨rfl, rfl, ?_⟩ ?_ ?_ ?_
      rfl ?_ (nodup_store h.nodup hnone) rfl rfl ?_
    · omega
    · exact h.applying.outside (pcs_eq hx) id id
    · show Merging _ _ _ _ (Function.update _ _ none)
      rw [← show _ = none from merging_eq hx, Function.update_eq_self]
      exact h.merging
    · rw [hwritten]
      dsimp only
      rw [hslot]
      exact h.layout.store hown hcopied (by omega) val
    · have hstream : stream (written (tr ++ [.stored x (slice.start + copied) val])) x
          s.buf.tail.data = stream (written tr) x s.buf.tail.data ++ [val] := by
        rw [hwritten]
        refine stream_update (by omega) (fun q hle _ v hq => ?_) val
        exact absurd (h.layout.ahead hown q v hq) (by omega)
      refine h.accounts.set hx ?_ ?_ ?_ ?_ ?_
      · simpa [Producer.Calls, called, answered] using hcalls
      · have htaken := h.accounts.taken x _ hx
        have hsending : sent x [Event.stored x (slice.start + copied) val] ++
            Producer.sending ⟨.store slice (copied + 1) vals after, [], some slice⟩ =
            Producer.sending ⟨.store slice copied (val :: vals) after, [], some slice⟩ := by
          cases after <;> rfl
        rw [hstream, sent_append, List.append_assoc, hsending, htaken, List.reduceOption_append,
          List.append_assoc]
        cases val <;> rfl
      · intro y _
        exact ⟨rfl, rfl, rfl⟩
      · intro y hne
        rw [hwritten]
        exact stream_update_of_ne (Ne.symm hne) hnone val _
      · intro y hne pos v hpos
        rw [hwritten] at hpos
        by_cases heq : pos = slice.start + copied
        · rw [heq, Function.update_self] at hpos
          exact absurd (Prod.mk.inj (Option.some.inj hpos)).1.symm hne
        · rwa [Function.update_of_ne heq] at hpos
    · intro pos hpos
      rw [hwritten, Function.update_of_ne (by omega)]
  | nil =>
    obtain rfl : copied = slice.len := by simpa using hlength
    obtain ⟨rfl, rfl⟩ := by simpa using hstep
    refine h.withProducer hx one_ne_zero ⟨rfl, rfl, by simp⟩ rfl rfl le_rfl ⟨rfl, rfl⟩ ?_ ?_ ?_ rfl
      ?_ ?_ rfl rfl ?_
    · exact h.applying.outside (pcs_eq hx) id id
    · exact h.merging.start (merging_eq hx) (some slice)
    · rw [List.append_nil]
      show Layout _ _ _ _ _ _ (Function.update _ _ (some (slice, slice.len))) _
      rw [← hown, Function.update_eq_self]
      exact h.layout
    · refine h.accounts.move hx hcalls ?_ rfl
      cases after <;> rfl
    · simpa using h.nodup
    · intro pos _
      rw [List.append_nil]

/-- A producer merges the filled slices. -/
theorem push_merge (h : Valid tr s) {merge : Merge} {after : After T} (hx : s.px[x]? = some p)
    (hpc : p.pc = .merge merge after) (hstep : push s x = some (t, out)) : Valid (tr ++ out) t := by
  obtain ⟨pc, bufLocal, allocatedSlice⟩ := p
  obtain rfl : pc = _ := hpc
  obtain ⟨rfl, rfl⟩ : allocatedSlice = none ∧ bufLocal = [] := h.px x _ hx
  have hown : view s.px Producer.own x = merge.own := view_eq hx _
  have hcalls : after.Calls (called x tr) (answered x tr) := h.accounts.calls x _ hx
  have hexcess : merge.excess ≤ s.buf.reserved := h.excess_le hx
  have hreserved := h.reserved_le hx
  have htail := h.applying.tail_lt
  unfold push at hstep
  rw [hx] at hstep
  dsimp only at hstep
  cases hmerge : s.buf.merge (.px x) merge with
  | none => simp [hmerge] at hstep
  | some result =>
    obtain ⟨buf', result⟩ := result
    rw [hmerge] at hstep
    obtain ⟨hresult, hlen, hmerging, hlayout⟩ :=
      merge_valid h.merging h.layout htail (merging_eq hx) hown hmerge
    have hsum := merge_reserved hmerge hexcess (by omega) hresult
    have hframe := merge_frame hmerge
    have htail' : buf'.tail = s.buf.tail := by rw [hframe]
    have hfree : buf'.free = s.buf.free := by rw [hframe]
    have hinner : buf'.inner = s.buf.inner := by rw [hframe]
    have hcount : buf'.pxCount = s.buf.pxCount := by rw [hframe]
    have hcapacity : buf'.capacity = s.buf.capacity := by rw [hframe]
    have hhead : buf'.head = s.buf.head := by rw [hframe]
    cases result with
    | panicked => exact absurd rfl hresult
    | next merge' =>
      obtain ⟨rfl, rfl⟩ := by simpa using hstep
      refine h.withProducer hx one_ne_zero ⟨rfl, rfl, by simp⟩ hcapacity hhead hlen ⟨rfl, rfl⟩ ?_
        hmerging ?_ ?_ ?_ ?_ ?_ rfl ?_
      · rw [htail', hfree]
        exact h.applying.outside (pcs_eq hx) id id
      · rw [List.append_nil, hinner, htail']
        exact hlayout
      · rw [htail']
        simp only [Merged.merge?, Option.elim_some] at hsum
        simp only [Producer.unreserved, Producer.excess]
        omega
      · rw [htail']
        refine h.accounts.move hx hcalls ?_ rfl
        cases after <;> rfl
      · simpa using h.nodup
      · rw [hcount]
        rfl
      · intro pos _
        rw [List.append_nil]
    | done =>
      have hsettles := settles_finish ⟨.merge merge after, [], none⟩ x after rfl rfl
      obtain ⟨rfl, rfl⟩ := Prod.mk.inj (Option.some.inj hstep)
      have hwritten : written (tr ++ ((Producer.finish _ x after).2)) = written tr :=
        written_append_of_stored hsettles.stored
      refine h.withProducer hx one_ne_zero hsettles.unread hcapacity hhead hlen hsettles.valid ?_ ?_
        ?_ ?_ ?_ ?_ ?_ hsettles.references ?_
      · rw [htail', hfree]
        exact h.applying.outside (pcs_eq hx) id hsettles.outside
      · rw [hsettles.merging]
        exact hmerging
      · rw [hsettles.own, hwritten, hinner, htail']
        exact hlayout
      · rw [htail', hsettles.unreserved, hsettles.excess]
        simp only [Merged.merge?, Option.elim_none] at hsum
        simp only [Producer.unreserved, Producer.excess]
        omega
      · rw [htail']
        refine h.accounts.keep hx [] ?_ ?_ ?_ hsettles.silent hsettles.stored
        · rw [called_append, answered_append, hsettles.called, List.append_nil]
          exact hsettles.calls _ _ hcalls
        · rw [hsettles.sent, List.append_nil]
          cases after <;> rfl
        · exact hsettles.unstored
      · rw [stored_append, hsettles.stored, List.append_nil]
        exact h.nodup
      · rw [hcount, hsettles.count]
        rfl
      · intro pos _
        rw [hwritten]

/-- One step of a producer keeps the invariant. -/
theorem push (h : Valid tr s) (hstep : push s x = some (t, out)) : Valid (tr ++ out) t := by
  cases hx : s.px[x]? with
  | none => simp [MpscBoundedCached.push, hx] at hstep
  | some p =>
    cases hpc : p.pc with
    | lock _ | free _ | advance _ _ | addReserved _ _ | subFree _ _ | applied _ _ | full _
    | cxExists _ => exact h.push_apply hx hstep (by rw [hpc]; trivial)
    | store slice copied vals after => exact h.push_store hx hpc hstep
    | merge merge after => exact h.push_merge hx hpc hstep
    | subPxCount =>
      obtain ⟨pc, bufLocal, allocatedSlice⟩ := p
      obtain rfl : pc = _ := hpc
      obtain ⟨rfl, rfl⟩ : allocatedSlice = none ∧ bufLocal = [] := h.px x _ hx
      have hcalls := h.accounts.calls x _ hx
      have hopen := h.pxCount_pos hx one_ne_zero
      simp only [MpscBoundedCached.push, hx] at hstep
      obtain ⟨rfl, rfl⟩ := by simpa using hstep
      refine h.quiet hx one_ne_zero _ ⟨rfl, rfl, by simp⟩ rfl rfl rfl ⟨rfl, rfl⟩ ?_ rfl rfl rfl ?_
        ?_ rfl
      · exact h.applying.outside (pcs_eq hx) id id
      · exact h.accounts.move hx hcalls rfl rfl
      · simp only [Producer.count]
        omega
    | idle | clone | panicked | released | dropped =>
      simp [MpscBoundedCached.push, hx, hpc] at hstep

/-- A call of `flush` begins, after events of the producer in which nothing is copied. -/
theorem settles (h : Valid tr s) (hx : s.px[x]? = some p) (pre : List (Event T)) (new : List T)
    (hlive : p.count = 1) (hpc : ¬ p.pc.Inside) (hmerging : p.merging = none)
    (hunreserved : p.unreserved = 0) {r : Producer T} {after : After T}
    (hsettles : r.Settles x after q out)
    (hown : p.own = r.allocatedSlice.map fun slice => (slice, 0))
    (hreferences : p.references = 1) (hpre : Unread pre) (hstored : stored pre = [])
    (hsilent : ∀ y, y ≠ x → Silent pre y) (hsent : sent x pre = [])
    (hcalls : after.Calls (called x (tr ++ pre)) (answered x (tr ++ pre)))
    (hsending : after.vals = p.sending ++ new)
    (hunstored : r.bufLocal.reduceOption = p.unstored ++ new) :
    Valid (tr ++ (pre ++ out)) (s.setPx x q) := by
  obtain ⟨hpopped, hfreed, hnone⟩ := hsettles.unread
  have hunread : Unread (pre ++ out) := by
    refine ⟨?_, ?_, ?_⟩
    · rw [popped_append, hpre.1, hpopped, List.append_nil]
    · rw [freed_append, hpre.2.1, hfreed, List.append_nil]
    · exact fun hmem => (List.mem_append.mp hmem).elim hpre.2.2 hnone
  have hstored' : stored (pre ++ out) = [] := by
    rw [stored_append, hstored, hsettles.stored, List.append_nil]
  refine h.quiet hx (by omega) s.buf hunread hstored' rfl rfl hsettles.valid ?_
    (hsettles.merging.trans hmerging.symm) (hsettles.own.trans hown.symm) ?_ ?_ ?_
    (hsettles.references.trans hreferences.symm)
  · exact h.applying.outside (pcs_eq hx) hpc hsettles.outside
  · rw [hsettles.unreserved, hunreserved]
  · refine h.accounts.keep hx new ?_ ?_ ?_ ?_ hstored'
    · rw [← List.append_assoc, called_append, answered_append, hsettles.called, List.append_nil]
      exact hsettles.calls _ _ hcalls
    · rw [sent_append, hsent, List.nil_append, hsettles.sent, hsending]
    · rw [hsettles.unstored, hunstored]
    · intro y hne
      obtain ⟨hcalled, hanswered, hsent'⟩ := hsilent y hne
      obtain ⟨hcalled', hanswered', hsent''⟩ := hsettles.silent y hne
      refine ⟨?_, ?_, ?_⟩
      · rw [called_append, hcalled, hcalled', List.append_nil]
      · rw [answered_append, hanswered, hanswered', List.append_nil]
      · rw [sent_append, hsent', hsent'', List.append_nil]
  · rw [hsettles.count, hlive]

/-- A producer in no call starts one of `send`. -/
theorem send (h : Valid tr s) {val : T} (hstep : step s (.send x val) = some (t, out)) :
    Valid (tr ++ out) t := by
  cases hx : s.px[x]? with
  | none => simp [step, hx] at hstep
  | some p =>
    obtain ⟨pc, bufLocal, allocatedSlice⟩ := p
    have hvalid := h.px x _ hx
    have hcalls := h.accounts.calls x _ hx
    cases pc <;> simp only [step, hx, reduceCtorEq] at hstep
    obtain ⟨rfl, rfl⟩ := Prod.mk.inj (Option.some.inj hstep)
    have hcalls' : called x tr = answered x tr := hcalls
    have hcalled : called x (tr ++ [.called x val]) =
        answered x (tr ++ [.called x val]) ++ [val] := by
      rw [called_append, answered_append, hcalls']
      simp [called, answered]
    have hunread : Unread [Event.called x val] := ⟨rfl, rfl, by simp⟩
    have hsilent : ∀ y, y ≠ x → Silent [Event.called x val] y := by
      intro y hne
      simp [Silent, called, answered, sent, Ne.symm hne]
    cases allocatedSlice with
    | none =>
      obtain rfl : bufLocal = [] := hvalid
      refine h.quiet hx one_ne_zero s.buf hunread rfl rfl rfl ⟨rfl, rfl⟩ ?_ rfl rfl rfl ?_
        rfl rfl
      · exact h.applying.outside (pcs_eq hx) id id
      · exact h.accounts.keep hx [] hcalled rfl rfl hsilent rfl
    | some slice =>
      have hlt : bufLocal.length < slice.len := hvalid
      have hsettles := settles_send ⟨.idle, bufLocal, some slice⟩ x val rfl hlt
      refine h.settles hx [.called x val] [val] rfl id rfl rfl hsettles rfl rfl hunread rfl hsilent
        rfl hcalled rfl ?_
      exact List.reduceOption_append _ _

/-- A call of `flush` or of `drop` begins. -/
theorem flush (h : Valid tr s) (hx : s.px[x]? = some p) (hpc : p.pc = .idle ∨ p.pc = .panicked)
    {after : After T} (hvals : after.vals = [])
    (hcalls : p.Calls (called x tr) (answered x tr) → after.Calls (called x tr) (answered x tr)) :
    Valid (tr ++ (p.flush x after).2) (s.setPx x (p.flush x after).1) := by
  have hvalid := h.px x p hx
  have hcalls' := hcalls (h.accounts.calls x p hx)
  have hsettles : p.Settles x after (p.flush x after).1 (p.flush x after).2 := by
    refine settles_flush p x after ?_ ?_
    · intro hnone
      rcases hpc with hpc | hpc
      · simpa [Producer.Valid, hpc, hnone] using hvalid
      · simp only [Producer.Valid, hpc] at hvalid
        exact hvalid.2
    · intro slice hsome
      rcases hpc with hpc | hpc
      · have hlt : p.bufLocal.length < slice.len := by
          simpa [Producer.Valid, hpc, hsome] using hvalid
        exact hlt.le
      · simp [Producer.Valid, hpc, hsome] at hvalid
  have hquiet : p.count = 1 ∧ ¬ p.pc.Inside ∧ p.merging = none ∧ p.unreserved = 0 ∧
      p.own = p.allocatedSlice.map (fun slice => (slice, 0)) ∧ p.references = 1 ∧
      p.sending = [] ∧ p.bufLocal.reduceOption = p.unstored := by
    rcases hpc with hpc | hpc <;>
      simp [Producer.count, Producer.merging, Producer.unreserved, Producer.own,
        Producer.references, Producer.sending, Producer.unstored, Send.Inside, hpc]
  obtain ⟨hcount, hinside, hmerging, hunreserved, hown, hreferences, hsending, hunstored⟩ := hquiet
  refine h.settles hx [] [] hcount hinside hmerging hunreserved hsettles hown hreferences
    ⟨rfl, rfl, by simp⟩ rfl (fun _ _ => ⟨rfl, rfl, rfl⟩) rfl ?_ ?_ ?_
  · rwa [List.append_nil]
  · rw [hvals, hsending]
    rfl
  · rw [hunstored, List.append_nil]

/-- A new producer comes with the reference it holds. -/
theorem append (h : Valid tr s) (hx : s.px[x]? = some p) (hlive : p.count ≠ 0) :
    Valid tr { s with
      buf := { s.buf with pxCount := s.buf.pxCount + 1 }
      references := s.references + 1
      px := s.px ++ [.new] } := by
  have hopen := h.pxCount_pos hx hlive
  have hheld : p.references ≠ 0 := by
    obtain ⟨pc, bufLocal, allocatedSlice⟩ := p
    cases pc <;> simp_all [Producer.count, Producer.references]
  have hfreed := (h.freed_eq_nil hx hheld).2
  have hown : view (s.px ++ [.new]) Producer.own = view s.px Producer.own := view_append_of_none rfl
  refine { h with
    px := ?_, applying := ?_, merging := ?_, layout := ?_, reserved := ?_, cx := ?_,
    accounts := h.accounts.clone, count := ?_, references := ?_, freed_eq := ?_,
    disconnected := ?_ }
  · intro y r hy
    rw [List.getElem?_append] at hy
    split_ifs at hy
    · exact h.px y r hy
    · obtain ⟨-, rfl⟩ := by simpa [List.getElem?_singleton] using hy
      rfl
  · refine ⟨h.applying.tail_lt, ?_⟩
    show Locked _ (view (s.px ++ [.new]) _) _ _ _
    rw [view_append]
    refine h.applying.locked.outside (fun pc hpc => ?_) fun pc hpc => ?_
    · exact absurd ((view_length _).symm.trans hpc) (by simp)
    · obtain rfl := Option.some.inj hpc
      exact id
  · show Merging _ _ _ _ (MpscBoundedCached.merging (s.px ++ [.new]))
    rw [merging_append rfl]
    exact h.merging
  · rw [hown]
    exact h.layout
  · have hbefore : Reserved _ _ _ s.px := h.reserved
    simpa [Reserved, Producer.unreserved, Producer.excess, Producer.new] using hbefore
  · have hcx := h.cx_of_live hopen { s.buf with pxCount := s.buf.pxCount + 1 } rfl le_rfl
      fun _ _ => rfl
    exact hcx
  · have hbefore : s.buf.pxCount = (s.px.map Producer.count).sum := h.count
    simp [MpscBoundedCached.count, Producer.new, Producer.count, hbefore]
  · have hbefore : s.references = (s.px.map Producer.references).sum + _ := h.references
    simp only [MpscBoundedCached.references, List.map_append, List.map_cons, List.map_nil,
      List.sum_append, List.sum_singleton, hbefore, Producer.new, Producer.references]
    omega
  · rw [hfreed, if_neg (Nat.succ_ne_zero _)]
  · intro hmem
    exact absurd (h.disconnected hmem).1 hopen.ne'

/-- A producer is cloned, and its clone gets its reference. -/
theorem clone (h : Valid tr s) {a : Action T} (ha : a = .clone x ∨ a = .cloneBuf x)
    (hstep : step s a = some (t, out)) : Valid (tr ++ out) t := by
  cases hx : s.px[x]? with
  | none => rcases ha with rfl | rfl <;> simp [step, hx] at hstep
  | some p =>
    obtain ⟨pc, bufLocal, allocatedSlice⟩ := p
    have hvalid := h.px x _ hx
    have hcalls := h.accounts.calls x _ hx
    rcases ha with rfl | rfl
    · cases pc <;> simp only [step, hx, reduceCtorEq] at hstep
      obtain ⟨rfl, rfl⟩ := Prod.mk.inj (Option.some.inj hstep)
      refine h.quiet hx one_ne_zero _ ⟨rfl, rfl, by simp⟩ rfl rfl rfl hvalid ?_ rfl rfl rfl ?_ ?_
        rfl
      · exact h.applying.outside (pcs_eq hx) id id
      · exact h.accounts.move hx hcalls rfl rfl
      · simp [Producer.count]
    · cases pc <;> simp only [step, hx, reduceCtorEq] at hstep
      obtain ⟨rfl, rfl⟩ := Prod.mk.inj (Option.some.inj hstep)
      have hopen := h.pxCount_pos hx two_ne_zero
      -- the count of the clone passes to the new producer
      have hone := h.quiet (q := ⟨.idle, bufLocal, allocatedSlice⟩) hx two_ne_zero
        { s.buf with pxCount := s.buf.pxCount - 1 } ⟨rfl, rfl, by simp⟩ rfl rfl rfl
        hvalid (h.applying.outside (pcs_eq hx) id id) rfl rfl rfl
        (h.accounts.move hx hcalls rfl rfl) (by simp only [Producer.count]; omega) rfl
      obtain ⟨hlt, -⟩ := List.getElem?_eq_some_iff.mp hx
      have htwo := hone.append (x := x) (p := ⟨.idle, bufLocal, allocatedSlice⟩)
        (by simp [State.setPx, hlt]) one_ne_zero
      have hcount : s.buf.pxCount - 1 + 1 = s.buf.pxCount := by omega
      simpa only [State.setPx, hcount] using htwo

/-! ## The steps of the consumer -/

/-- When no producer is counted, all of them have been dropped. -/
theorem gone (h : Valid tr s) (hcount : s.buf.pxCount = 0) (hx : s.px[x]? = some p) :
    p.pc = .released ∨ p.pc = .dropped := by
  have hzero : p.count = 0 := by
    by_contra hne
    exact (h.pxCount_pos hx hne).ne' hcount
  obtain ⟨pc, bufLocal, allocatedSlice⟩ := p
  cases pc <;> simp_all [Producer.count]

/-- When no producer is counted, everything has been published, and nothing is reserved. -/
theorem closed (h : Valid tr s) (hcount : s.buf.pxCount = 0) :
    s.buf.reserved = 0 ∧ s.buf.readableTill = s.buf.tail.data ∧
      s.buf.len + ((popped tr).length + s.cx.left) = s.buf.readableTill := by
  have hquiet : ∀ p ∈ s.px, p.own = none ∧ p.merging = none ∧ p.unreserved = 0 ∧ p.excess = 0 := by
    intro p hp
    obtain ⟨x, hx⟩ := List.mem_iff_getElem?.mp hp
    have hvalid := h.px x p hx
    rcases h.gone hcount hx with hpc | hpc
    all_goals
      obtain ⟨halloc, -⟩ : p.allocatedSlice = none ∧ p.bufLocal = [] := by
        simpa [Producer.Valid, hpc] using hvalid
      simp [Producer.own, Producer.merging, Producer.unreserved, Producer.excess, hpc, halloc]
  have hown : ∀ x, view s.px Producer.own x = none := fun x =>
    Option.bind_eq_none_iff.mpr fun p hx => (hquiet p (List.mem_of_getElem? hx)).1
  obtain ⟨hsettled, hfirst⟩ :=
    h.merging.settled (merging_eq_none fun p hp => (hquiet p hp).2.1)
  have htill := h.layout.till_eq hown hfirst
  have hreserved := h.reserved_eq fun p hp => (hquiet p hp).2.2
  exact ⟨by omega, htill, hsettled.len⟩

/-- One step of the consumer keeps the invariant. -/
theorem pop (h : Valid tr s) (hstep : pop s = some (t, out)) : Valid (tr ++ out) t := by
  have hcx := h.cx
  have hloaded := h.loaded_le
  have htill := h.layout.till_le
  have htail := h.applying.tail_lt
  have hnone : ∀ y, Silent ([] : List (Event T)) y := fun _ => ⟨rfl, rfl, rfl⟩
  obtain ⟨buf, refs, px, cx⟩ := s
  unfold MpscBoundedCached.pop at hstep
  cases cx <;> dsimp only at hstep hcx hloaded htill htail
  case isEmpty =>
    split_ifs at hstep with hlen <;> obtain ⟨rfl, rfl⟩ := by simpa using hstep
    · rw [List.append_nil]
      exact { h with cx := hcx }
    · rw [List.append_nil]
      exact { h with cx := ⟨hcx, Nat.pos_of_ne_zero hlen⟩ }
  case pxExist =>
    obtain ⟨rfl, rfl⟩ := by simpa using hstep
    rw [List.append_nil]
    exact { h with cx := ⟨hcx, fun hgone => by simpa using hgone⟩ }
  case again exist =>
    split_ifs at hstep with hlen hexist <;> obtain ⟨rfl, rfl⟩ := by simpa using hstep
    · rw [List.append_nil]
      exact { h with cx := hcx.1 }
    · rw [List.append_nil]
      exact { h with cx := ⟨hcx.1, hcx.2 (by simpa using hexist), hlen⟩ }
    · rw [List.append_nil]
      exact { h with cx := ⟨hcx.1, Nat.pos_of_ne_zero hlen⟩ }
  case reserved =>
    obtain ⟨hhead, hcount, hlen⟩ := hcx
    obtain ⟨hreserved, -, hsettled⟩ := h.closed hcount
    dsimp only at hreserved hsettled
    rw [if_neg (by omega)] at hstep
    obtain ⟨rfl, rfl⟩ := by simpa using hstep
    have hpopped : popped (tr ++ [.disconnected]) = popped tr := by simp [popped]
    have hwritten : written (tr ++ [.disconnected]) = written tr := written_append_of_stored rfl
    constructor
    case capacity => exact h.capacity
    case capacity_lt => exact h.capacity_lt
    case px => exact h.px
    case applying => exact hpopped ▸ h.applying
    case merging => exact hpopped ▸ h.merging
    case layout => exact hpopped ▸ hwritten ▸ h.layout
    case reserved => exact h.reserved
    case cx => exact hpopped ▸ hhead
    case accounts => exact h.accounts.other (fun _ => ⟨rfl, rfl, rfl⟩) rfl
    case nodup => simpa [stored] using h.nodup
    case popped_eq =>
      rw [hpopped, hwritten]
      exact h.popped_eq
    case count => exact h.count
    case references => exact h.references
    case freed_eq =>
      rw [hpopped, hwritten, freed_append]
      exact (List.append_nil _).trans h.freed_eq
    case disconnected =>
      intro _
      rw [hpopped]
      refine ⟨hcount, ?_⟩
      simp only [Recv.left] at hsettled
      dsimp only
      omega
  case head =>
    obtain ⟨rfl, rfl⟩ := by simpa using hstep
    have hle := h.merging.len_le
    have hlen := hcx.2
    dsimp only at hle
    have hhead : wrappingAdd buf.head 1 = (popped tr).length + 1 := by
      rw [hcx.1]
      exact wrappingAdd_of_lt (by omega)
    rw [List.append_nil]
    exact { h with cx := ⟨hcx.1, hhead, hcx.2⟩ }
  case load pos =>
    obtain ⟨rfl, rfl⟩ := by simpa using hstep
    obtain ⟨rfl, hhead, hlen⟩ := hcx
    have hle := h.merging.len_le
    dsimp only at hle
    have hlt : (popped tr).length < buf.readableTill := by omega
    obtain ⟨⟨y, val⟩, hwritten⟩ := h.layout.published _ hlt
    have hslot : buf.slot (popped tr).length = (popped tr).length % buf.capacity :=
      slotOf_eq h.capacity _
    have hheld : buf.inner ((popped tr).length % buf.capacity) = some val :=
      h.layout.holds _ y val le_rfl hwritten
    rw [List.append_nil]
    refine { h with layout := h.layout.load hlt, cx := ⟨rfl, hhead, hlen, ?_⟩ }
    rw [hslot, hheld, hwritten]
    rfl
  case subLen pos res =>
    obtain ⟨rfl, hhead, hlen, hres⟩ := hcx
    have hle := h.merging.len_le
    dsimp only at hle
    rw [wrappingSub_of_le hlen (by omega)] at hstep
    obtain ⟨rfl, rfl⟩ := by simpa using hstep
    have hmerging := h.merging.leave hlen
    rw [List.append_nil]
    exact { h with merging := hmerging, cx := ⟨rfl, hhead, hres⟩ }
  case addFree pos res =>
    obtain ⟨rfl, hhead, hres⟩ := hcx
    simp only [Recv.loaded] at hloaded
    have hfree := h.free_le
    have hcap := h.capacity_lt
    simp only [Recv.loaded] at hfree hcap
    rw [wrappingAdd_of_lt (by omega)] at hstep
    obtain ⟨rfl, rfl⟩ := by simpa using hstep
    have hwritten : written (tr ++ [.popped (popped tr).length res]) = written tr :=
      written_append_of_stored rfl
    have hpopped : popped (tr ++ [.popped (popped tr).length res]) =
        popped tr ++ [((popped tr).length, res)] := by simp [popped]
    have hlength : (popped (tr ++ [.popped (popped tr).length res])).length =
        (popped tr).length + 1 := by
      rw [hpopped, List.length_append, List.length_singleton]
    have hreferences : refs = (px.map Producer.references).sum + 1 := h.references
    have hnext : ∀ cx' : Recv T, cx' = .isEmpty ∨ cx' = .idle →
        Valid (tr ++ [.popped (popped tr).length res])
          { buf := { buf with free := buf.free + 1 }
            references := refs
            px := px
            cx := cx' } := by
      intro cx' hcx'
      have hquiet : cx'.loaded = 0 ∧ cx'.left = 0 ∧ cx'.references = 1 := by
        rcases hcx' with rfl | rfl <;> exact ⟨rfl, rfl, rfl⟩
      obtain ⟨hload, hleft, hreferences'⟩ := hquiet
      constructor
      case capacity => exact h.capacity
      case capacity_lt => exact h.capacity_lt
      case px => exact h.px
      case applying => exact hlength ▸ h.applying.addFree
      case merging =>
        rw [hlength, hleft]
        exact h.merging
      case layout =>
        rw [hlength, hload, hwritten]
        exact h.layout
      case reserved => exact h.reserved
      case cx =>
        rw [hlength]
        rcases hcx' with rfl | rfl <;> exact hhead
      case accounts => exact h.accounts.other (fun _ => ⟨rfl, rfl, rfl⟩) rfl
      case nodup => simpa [stored] using h.nodup
      case popped_eq =>
        rw [hlength, hwritten, reads, List.range'_concat, List.map_append, ← reads, ← h.popped_eq,
          hpopped]
        simp [hres]
      case count => exact h.count
      case references =>
        dsimp only
        rw [MpscBoundedCached.references, hreferences', hreferences]
      case freed_eq =>
        have hfreed := h.freed_eq
        dsimp only at hfreed ⊢
        rw [if_neg (by omega)] at hfreed ⊢
        simpa [freed] using hfreed
      case disconnected =>
        intro hmem
        have hmem' : .disconnected ∈ tr := by simpa using hmem
        have := (h.disconnected hmem').2
        dsimp only at this
        omega
    rcases res with (_ | _ | val)
    · exact hnext _ (.inr rfl)
    · exact hnext _ (.inl rfl)
    · exact hnext _ (.inr rfl)
  case merge => exact hcx.elim
  case idle | panicked | released | dropped => simp at hstep

/-! ## The end of the handles -/

theorem filterMap_drop {α : Type*} (f : Event T → Option α)
    (hf : ∀ pos res, f (.freed pos res) = none) (buf : RingBuffer T) : buf.drop.filterMap f = [] := by
  rw [RingBuffer.drop, List.filterMap_map]
  simp [hf]

/-- What the buffer drops is what has been published and not been read. -/
theorem freed_drop (h : Valid tr s) (hloaded : s.cx.loaded = 0)
    (hhead : s.buf.head = (popped tr).length) :
    freed s.buf.drop = reads (written tr) (popped tr).length
      (s.buf.readableTill - (popped tr).length) := by
  rw [RingBuffer.drop, freed, List.filterMap_map, reads, hhead, ← List.filterMap_eq_map]
  refine List.filterMap_congr fun pos hpos => ?_
  obtain ⟨hle, hlt⟩ := List.mem_range'_1.mp hpos
  obtain ⟨⟨y, val⟩, hwritten⟩ := h.layout.published pos (by omega)
  have hslot : s.buf.slot pos = pos % s.buf.capacity := slotOf_eq h.capacity pos
  have hheld : s.buf.inner (pos % s.buf.capacity) = some val :=
    h.layout.holds pos y val (by omega) hwritten
  simp [hslot, hheld, hwritten]

/-- A reference goes, and the side that has held it is done. -/
theorem release (h : Valid tr s) {px' : List (Producer T)} {cx' : Recv T}
    (hpx : ∀ (x : ℕ) (p : Producer T), px'[x]? = some p → p.Valid)
    (happlying : Applying s.buf.tail s.buf.free s.buf.capacity (popped tr).length (pcs px'))
    (hmerging : MpscBoundedCached.merging px' = MpscBoundedCached.merging s.px)
    (hown : view px' Producer.own = view s.px Producer.own)
    (hreserved : Reserved s.buf.reserved s.buf.readableTill s.buf.tail.data px')
    (hcount : MpscBoundedCached.count px' = MpscBoundedCached.count s.px)
    (haccounts : Accounts tr s.buf.tail.data px')
    (hcx : cx'.Valid s.buf (popped tr).length (written tr))
    (hloaded : cx'.loaded = s.cx.loaded) (hleft : cx'.left = s.cx.left)
    (hreferences : s.references = MpscBoundedCached.references px' cx' + 1)
    (hlast : cx'.references = 0 → s.cx.loaded = 0 ∧ s.buf.head = (popped tr).length) :
    Valid (tr ++ (State.release { s with px := px', cx := cx' }).2)
      (State.release { s with px := px', cx := cx' }).1 := by
  have hfreed : freed tr = [] := by rw [h.freed_eq, if_neg (by omega)]
  obtain ⟨out, hout⟩ : ∃ out, out = (State.release { s with px := px', cx := cx' }).2 := ⟨_, rfl⟩
  have hdrop : out = [] ∨ out = s.buf.drop := by
    rw [hout, State.release]
    dsimp only
    split_ifs
    · exact .inr rfl
    · exact .inl rfl
  have hnone : popped out = [] ∧ stored out = [] ∧ (∀ y, Silent out y) ∧ .disconnected ∉ out := by
    rcases hdrop with rfl | rfl
    · exact ⟨rfl, rfl, fun _ => ⟨rfl, rfl, rfl⟩, by simp⟩
    · refine ⟨filterMap_drop _ (fun _ _ => rfl) _, filterMap_drop _ (fun _ _ => rfl) _, fun y => ?_,
        ?_⟩
      · exact ⟨filterMap_drop _ (fun _ _ => rfl) _, filterMap_drop _ (fun _ _ => rfl) _,
          filterMap_drop _ (fun _ _ => rfl) _⟩
      · simp [RingBuffer.drop]
  obtain ⟨hpopped, hstored, hsilent, hconnected⟩ := hnone
  have hpopped' : popped (tr ++ out) = popped tr := by rw [popped_append, hpopped, List.append_nil]
  have hwritten : written (tr ++ out) = written tr := written_append_of_stored hstored
  rw [← hout]
  constructor
  case capacity => exact h.capacity
  case capacity_lt => exact h.capacity_lt
  case px => exact hpx
  case applying => exact hpopped' ▸ happlying
  case merging =>
    rw [hpopped']
    show Merging _ _ _ (_ + cx'.left) (MpscBoundedCached.merging px')
    rw [hleft, hmerging]
    exact h.merging
  case layout =>
    rw [hpopped', hwritten]
    show Layout _ _ (_ + cx'.loaded) _ _ _ (view px' Producer.own) _
    rw [hloaded, hown]
    exact h.layout
  case reserved => exact hreserved
  case cx => exact hpopped' ▸ hwritten ▸ hcx
  case accounts => exact haccounts.other hsilent hstored
  case nodup =>
    rw [stored_append, hstored, List.append_nil]
    exact h.nodup
  case popped_eq =>
    rw [hpopped', hwritten]
    exact h.popped_eq
  case count => exact h.count.trans hcount.symm
  case references => exact Nat.sub_eq_of_eq_add hreferences
  case freed_eq =>
    rw [freed_append, hfreed, List.nil_append, hpopped', hwritten, hout]
    show freed (if s.references = 1 then s.buf.drop else []) = if s.references - 1 = 0 then _ else _
    by_cases hone : s.references = 1
    · have hzero : cx'.references = 0 := by
        have : s.references = (px'.map Producer.references).sum + cx'.references + 1 := hreferences
        omega
      rw [if_pos hone, if_pos (by omega)]
      exact h.freed_drop (hlast hzero).1 (hlast hzero).2
    · rw [if_neg hone, if_neg (by omega)]
      rfl
  case disconnected =>
    intro hmem
    rw [hpopped']
    exact h.disconnected ((List.mem_append.mp hmem).resolve_right hconnected)

/-- One step of any side keeps the invariant. -/
theorem step {a : Action T} (h : Valid tr s) (hstep : step s a = some (t, out)) :
    Valid (tr ++ out) t := by
  cases a with
  | push x => exact h.push hstep
  | pop => exact h.pop hstep
  | send x val => exact h.send hstep
  | clone x => exact h.clone (.inl rfl) hstep
  | cloneBuf x => exact h.clone (.inr rfl) hstep
  | flush x =>
    cases hx : s.px[x]? with
    | none => simp [MpscBoundedCached.step, hx] at hstep
    | some p =>
      simp only [MpscBoundedCached.step, hx] at hstep
      split at hstep
      · next hpc =>
        obtain ⟨rfl, rfl⟩ := Prod.mk.inj (Option.some.inj hstep)
        refine h.flush hx (.inl hpc) rfl fun hcalls => ?_
        have heq : called x tr = answered x tr := by simpa only [Producer.Calls, hpc] using hcalls
        exact heq
      · simp at hstep
  | dropProducer x =>
    cases hx : s.px[x]? with
    | none => simp [MpscBoundedCached.step, hx] at hstep
    | some p =>
      simp only [MpscBoundedCached.step, hx] at hstep
      split at hstep
      · next hpc =>
        obtain ⟨rfl, rfl⟩ := Prod.mk.inj (Option.some.inj hstep)
        refine h.flush hx (.inl hpc) rfl fun hcalls => ?_
        have heq : called x tr = answered x tr := by simpa only [Producer.Calls, hpc] using hcalls
        exact heq ▸ List.prefix_rfl
      · next hpc =>
        obtain ⟨rfl, rfl⟩ := Prod.mk.inj (Option.some.inj hstep)
        refine h.flush hx (.inr hpc) rfl fun hcalls => ?_
        have hbegin : answered x tr <+: called x tr := by
          simpa only [Producer.Calls, hpc] using hcalls
        exact hbegin
      · simp at hstep
  | releaseProducer x =>
    cases hx : s.px[x]? with
    | none => simp [MpscBoundedCached.step, hx] at hstep
    | some p =>
      obtain ⟨pc, bufLocal, allocatedSlice⟩ := p
      cases pc <;> simp only [MpscBoundedCached.step, hx, reduceCtorEq] at hstep
      obtain ⟨rfl, rfl⟩ := Prod.mk.inj (Option.some.inj hstep)
      have hvalid := h.px x _ hx
      have hcalls := h.accounts.calls x _ hx
      obtain ⟨hlt, -⟩ := List.getElem?_eq_some_iff.mp hx
      refine h.release ?_ ?_ ?_ ?_ ?_ ?_ ?_ h.cx rfl rfl ?_ ?_
      · intro y r hy
        by_cases hne : y = x
        · subst hne
          obtain rfl : _ = r := by simpa [hlt] using hy
          exact hvalid
        · rw [List.getElem?_set_ne (Ne.symm hne)] at hy
          exact h.px y r hy
      · rw [pcs_set hx]
        exact h.applying.outside (pcs_eq hx) id id
      · exact merging_set_of_eq hx rfl
      · exact view_set_of_eq hx rfl
      · have hbefore : Reserved _ _ _ s.px := h.reserved
        have hunreserved := sum_map_set hx ⟨.dropped, bufLocal, allocatedSlice⟩ Producer.unreserved
        have hexcess := sum_map_set hx ⟨.dropped, bufLocal, allocatedSlice⟩ Producer.excess
        simp only [Producer.unreserved, Producer.excess, Nat.add_zero] at hunreserved hexcess
        rw [Reserved, hunreserved, hexcess]
        exact hbefore
      · exact sum_map_set hx ⟨.dropped, bufLocal, allocatedSlice⟩ Producer.count
      · simpa using h.accounts.move hx (q := ⟨.dropped, bufLocal, allocatedSlice⟩) hcalls rfl rfl
      · have hbefore : s.references = (s.px.map Producer.references).sum + _ := h.references
        have hsum := sum_map_set hx ⟨.dropped, bufLocal, allocatedSlice⟩ Producer.references
        simp only [Producer.references] at hsum
        rw [hbefore, MpscBoundedCached.references]
        omega
      · intro hzero
        have hcx := h.cx
        generalize s.cx = cx at hcx hzero
        cases cx <;> simp only [Recv.references, one_ne_zero] at hzero
        exact ⟨rfl, hcx⟩
  | recv =>
    obtain ⟨buf, refs, px, cx⟩ := s
    have hcx := h.cx
    cases cx <;> simp only [MpscBoundedCached.step, reduceCtorEq] at hstep
    obtain ⟨rfl, rfl⟩ := Prod.mk.inj (Option.some.inj hstep)
    rw [List.append_nil]
    exact { h with cx := hcx }
  | dropConsumer =>
    obtain ⟨buf, refs, px, cx⟩ := s
    have hcx := h.cx
    cases cx <;> simp only [MpscBoundedCached.step, reduceCtorEq] at hstep
    all_goals
      obtain ⟨rfl, rfl⟩ := Prod.mk.inj (Option.some.inj hstep)
      rw [List.append_nil]
      exact { h with cx := hcx }
  | releaseConsumer =>
    obtain ⟨buf, refs, px, cx⟩ := s
    have hcx := h.cx
    have hreferences : refs = (px.map Producer.references).sum + _ := h.references
    cases cx <;> simp only [MpscBoundedCached.step, reduceCtorEq] at hstep
    obtain ⟨rfl, rfl⟩ := Prod.mk.inj (Option.some.inj hstep)
    exact h.release h.px h.applying rfl rfl h.reserved rfl h.accounts hcx rfl rfl hreferences
      fun _ => ⟨rfl, hcx⟩

end Valid

end MpscBoundedCached

end Channel
