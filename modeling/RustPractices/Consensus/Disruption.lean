import RustPractices.Consensus.Cluster

/-!
# The daemon

A daemon takes nodes of the network offline and brings them back. Its scheduler holds events with their
times: a `Disrupt` takes a random node out of the pool of nodes that are online, puts it into a partition
and schedules its `Restore`, and it schedules the next `Disrupt` as well. A `Restore` puts the node back
into the partition 0 and into the pool.

The times are milliseconds, and all that is drawn at random is an argument of the step. Events of the same
time may be popped in any order.

## Main definitions

* `Daemon`: the pool, the scheduler and the partitions
* `daemon`: how the daemon starts
* `disrupting`: the loop of the daemon, as a machine

## Main results

* `Daemon.Keeps.step`: each round keeps the nodes
* `Daemon.daemon_keeps`: no node is lost, and the loop never ends
* `Daemon.moves_partitions`: a run of the daemon is a run of the cluster
-/

open Transition

namespace Consensus

variable {n : ℕ}

/-- What happens at the time of an event. -/
inductive Daemon.EventType (n : ℕ)
  | disrupt
  | restore (channel : Fin n)
  deriving DecidableEq, Repr

/-- An event of the scheduler. -/
structure Daemon.Event (n : ℕ) where
  time : ℕ
  kind : Daemon.EventType n
  deriving DecidableEq, Repr

/-- The state of the loop: the pool of nodes that are online, the events of the scheduler, the end of the
range that partitions are drawn from, the time, and the partition numbers of the nodes. -/
structure Daemon (n : ℕ) where
  channels : List (Fin n)
  sched : List (Daemon.Event n)
  bound : ℕ
  clock : ℕ
  part : Partitions n

/-- How a call of `daemon` goes on. -/
inductive Daemon.Launch (n : ℕ)
  | returned
  | panicked
  | loops (d : Daemon n)

/-- `daemon` up to its loop. There is nothing to do when one of the rates is zero; `delay` is the first
one that is drawn. -/
def daemon (idle : Bool) (channels : List (Fin n)) (start delay : ℕ) (part : Partitions n) :
    Daemon.Launch n :=
  if idle then .returned
  else if channels.length = 0 then .panicked
  -- the range of a uniform distribution must not be empty
  else if channels.length ≤ 1 then .panicked
  else .loops {
    channels
    sched := [{ time := start + delay, kind := .disrupt }]
    bound := channels.length
    clock := start
    part }

namespace Daemon

/-- What is not decided by the daemon: which of the first events the scheduler pops, the time at which it
is popped, the node that is shuffled to the end, and what is drawn from the distributions. -/
structure Draw where
  event : ℕ
  now : ℕ
  chosen : ℕ
  partition : ℕ
  duration : ℕ
  delay : ℕ

/-- `partial_shuffle` of one element, and `pop`: the element `k` and the last one change places, and the
new last one is removed. -/
def popShuffled (channels : List (Fin n)) (k : ℕ) : Option (Fin n × List (Fin n)) :=
  match channels[k]?, channels.getLast? with
  | some channel, some last => some (channel, (channels.set k last).dropLast)
  | _, _ => none

/-- The arm `Disrupt`. Both new events are timed from `now`, which is read before the thread sleeps. -/
def disrupt (d : Daemon n) (draw : Draw) : Option (Daemon n) :=
  let next : Event n := { time := draw.now + draw.delay, kind := .disrupt }
  match d.channels with
  | [] => some { d with sched := next :: d.sched }
  | _ :: _ =>
    match popShuffled d.channels draw.chosen with
    | none => none
    | some (channel, channels) =>
      if 1 ≤ draw.partition ∧ draw.partition < d.bound then
        some { d with
          channels
          part := Function.update d.part channel draw.partition
          sched := next :: { time := draw.now + draw.duration, kind := .restore channel } :: d.sched }
      else none

/-- The arm `Restore`. -/
def restore (d : Daemon n) (channel : Fin n) : Daemon n :=
  { d with channels := d.channels ++ [channel], part := Function.update d.part channel 0 }

/-- **A round of the loop**: one of the first events is popped, the thread sleeps until its time, and the
event is dispatched. -/
def step (d : Daemon n) (draw : Draw) : Option (Daemon n × List (Event n)) :=
  match d.sched[draw.event]? with
  | none => none
  | some event =>
    if d.clock ≤ draw.now ∧ ∀ e ∈ d.sched, event.time ≤ e.time then
      let d := { d with
        sched := d.sched.eraseIdx draw.event
        clock := max draw.now event.time }
      match event.kind with
      | .disrupt => (d.disrupt draw).map fun d => (d, [event])
      | .restore channel => some (d.restore channel, [event])
    else none

end Daemon

/-- **The loop of the daemon** from a start, with the events that have been dispatched. -/
def disrupting (d : Daemon n) : Machine (Daemon n) Daemon.Draw (Daemon.Event n) where
  init := d
  step := Daemon.step

namespace Daemon

/-- The node that an event restores. -/
def Event.channel? (event : Event n) : Option (Fin n) :=
  match event.kind with
  | .disrupt => none
  | .restore channel => some channel

/-- The nodes that wait for their restoration. -/
def offline (sched : List (Event n)) : List (Fin n) := sched.filterMap Event.channel?

/-- **Each node is in the pool or waits for its restoration**, and one disruption is scheduled. The nodes
in the pool are in the partition 0, and the others are not. -/
structure Keeps (channels : List (Fin n)) (d : Daemon n) : Prop where
  nodes : (d.channels ++ offline d.sched).Perm channels
  disruption : d.sched.countP (fun e => e.kind = .disrupt) = 1
  bound : d.bound = channels.length
  online : ∀ c ∈ d.channels, d.part c = 0
  offline : ∀ c ∈ offline d.sched, 1 ≤ d.part c ∧ d.part c < channels.length

theorem offline_cons_disrupt {event : Event n} {sched : List (Event n)} (h : event.kind = .disrupt) :
    offline (event :: sched) = offline sched :=
  List.filterMap_cons_none (by simp [Event.channel?, h])

theorem offline_cons_restore {event : Event n} {sched : List (Event n)} {c : Fin n}
    (h : event.kind = .restore c) : offline (event :: sched) = c :: offline sched :=
  List.filterMap_cons_some (by simp [Event.channel?, h])

section Steps

variable {channels : List (Fin n)} {d d' : Daemon n} {draw : Draw} {c : Fin n} {rest : List (Fin n)}

/-- Popping a shuffled pool takes one node out of it. -/
theorem perm_of_popShuffled {k : ℕ} (h : popShuffled channels k = some (c, rest)) :
    channels.Perm (c :: rest) := by
  unfold popShuffled at h
  split at h
  next channel last hk hlast =>
    obtain ⟨rfl, rfl⟩ := Prod.mk.inj (Option.some.inj h)
    obtain ⟨init, rfl⟩ : ∃ init, channels = init ++ [last] :=
      ⟨channels.dropLast, (List.dropLast_append_getLast? last hlast).symm⟩
    rcases lt_or_ge k init.length with hlt | hge
    · rw [List.getElem?_append_left hlt] at hk
      obtain ⟨_, rfl⟩ := List.getElem?_eq_some_iff.mp hk
      rw [List.set_append_left _ _ hlt, List.dropLast_concat]
      have hsplit := List.take_concat_get' init k hlt
      have hset : init.set k last = init.take k ++ last :: init.drop (k + 1) :=
        List.set_eq_take_append_cons_drop.trans (if_pos hlt)
      have hinit : init = init.take k ++ init[k] :: init.drop (k + 1) := by
        rw [List.getElem_cons_drop, List.take_append_drop]
      rw [hset]
      calc init ++ [last] = init.take k ++ init[k] :: init.drop (k + 1) ++ [last] := by rw [← hinit]
        _ |>.Perm (init[k] :: (init.take k ++ last :: init.drop (k + 1))) := by
          rw [List.append_assoc]
          refine List.perm_middle.trans (List.Perm.cons _ (List.Perm.append_left _ ?_))
          exact List.perm_append_singleton _ _
    · have hk' : k = init.length := by
        obtain ⟨hlt, -⟩ := List.getElem?_eq_some_iff.mp hk
        rw [List.length_append, List.length_singleton] at hlt
        omega
      subst hk'
      rw [List.getElem?_concat_length] at hk
      obtain rfl := Option.some.inj hk
      simp only [List.set_append_right _ _ le_rfl, Nat.sub_self, List.set_cons_zero,
        List.dropLast_concat]
      exact List.perm_append_singleton _ _
  next => cases h

/-- A round pops an event of the least time, and dispatches it on what is left of the scheduler. -/
theorem step_cases {out : List (Event n)} (h : d.step draw = some (d', out)) :
    ∃ event sched, d.sched.Perm (event :: sched) ∧ out = [event] ∧
      (∀ e ∈ d.sched, event.time ≤ e.time) ∧
      let popped := { d with sched, clock := max draw.now event.time }
      (event.kind = .disrupt ∧ popped.disrupt draw = some d' ∨
        ∃ c, event.kind = .restore c ∧ d' = popped.restore c) := by
  unfold step at h
  split at h
  · cases h
  next event hevent =>
    split_ifs at h with hfirst
    obtain ⟨hlt, rfl⟩ := List.getElem?_eq_some_iff.mp hevent
    refine ⟨_, d.sched.eraseIdx draw.event, (List.getElem_cons_eraseIdx_perm hlt).symm, ?_⟩
    simp only at h
    split at h
    next hkind =>
      obtain ⟨d₁, hdisrupt, heq⟩ := Option.map_eq_some_iff.mp h
      obtain ⟨rfl, rfl⟩ := Prod.mk.inj heq
      exact ⟨rfl, hfirst.2, .inl ⟨hkind, hdisrupt⟩⟩
    next c hkind =>
      obtain ⟨rfl, rfl⟩ := Prod.mk.inj (Option.some.inj h)
      exact ⟨rfl, hfirst.2, .inr ⟨c, hkind, rfl⟩⟩

/-- A disruption finds the pool empty, or takes a node out of it. -/
theorem disrupt_cases (h : d.disrupt draw = some d') :
    (d.channels = [] ∧
      d' = { d with sched := { time := draw.now + draw.delay, kind := .disrupt } :: d.sched }) ∨
    ∃ c rest, d.channels.Perm (c :: rest) ∧ 1 ≤ draw.partition ∧ draw.partition < d.bound ∧
      d' = { d with
        channels := rest
        part := Function.update d.part c draw.partition
        sched := { time := draw.now + draw.delay, kind := .disrupt } ::
          { time := draw.now + draw.duration, kind := .restore c } :: d.sched } := by
  unfold disrupt at h
  split at h
  next hempty => exact .inl ⟨hempty, (Option.some.inj h).symm⟩
  next =>
    split at h
    · cases h
    next c rest hpop =>
      split_ifs at h with hpart
      exact .inr ⟨c, rest, perm_of_popShuffled hpop, hpart.1, hpart.2, (Option.some.inj h).symm⟩

/-- What a permutation of the scheduler leaves. -/
theorem Keeps.of_perm {sched : List (Event n)} {clock : ℕ} (h : Keeps channels d)
    (hperm : d.sched.Perm sched) : Keeps channels { d with sched, clock } where
  nodes := ((hperm.filterMap _).append_left _).symm.trans h.nodes
  disruption := (hperm.countP_eq _).symm.trans h.disruption
  bound := h.bound
  online := h.online
  offline c hc := h.offline c ((hperm.filterMap _).mem_iff.mpr hc)

/-- A disruption keeps the nodes. -/
theorem Keeps.disrupt {event : Event n} (hnodup : channels.Nodup) (hkind : event.kind = .disrupt)
    (h : Keeps channels { d with sched := event :: d.sched }) (hd : d.disrupt draw = some d') :
    Keeps channels d' := by
  have hevent : Daemon.offline (event :: d.sched) = Daemon.offline d.sched := offline_cons_disrupt hkind
  have hnodes : (d.channels ++ Daemon.offline d.sched).Perm channels := hevent ▸ h.nodes
  have hcount : d.sched.countP (fun e => e.kind = .disrupt) = 0 := by
    simpa [hkind] using h.disruption
  have hoffline := h.offline
  simp only [hevent] at hoffline
  rcases disrupt_cases hd with ⟨-, rfl⟩ | ⟨c, rest, hperm, hpos, hlt, rfl⟩
  · exact {
      nodes := hnodes
      disruption := by simp [hcount]
      bound := h.bound
      online := h.online
      offline := hoffline }
  · have hmoved : (c :: rest ++ Daemon.offline d.sched).Perm channels :=
      (hperm.append_right _).symm.trans hnodes
    have hfresh : c ∉ rest ++ Daemon.offline d.sched :=
      (List.nodup_cons.mp (hmoved.nodup_iff.mpr hnodup)).1
    rw [List.mem_append, not_or] at hfresh
    exact {
      nodes := List.perm_middle.trans hmoved
      disruption := by simp [hcount]
      bound := h.bound
      online := fun x hx => by
        have hne : x ≠ c := fun heq => hfresh.1 (heq ▸ hx)
        exact (Function.update_of_ne hne ..).trans
          (h.online x (hperm.mem_iff.mpr (List.mem_cons_of_mem _ hx)))
      offline := fun x hx => by
        show 1 ≤ Function.update d.part c draw.partition x ∧
          Function.update d.part c draw.partition x < channels.length
        rcases List.mem_cons.mp hx with rfl | hx
        · rw [Function.update_self]
          exact ⟨hpos, h.bound ▸ hlt⟩
        · have hne : x ≠ c := fun heq => hfresh.2 (heq ▸ hx)
          rw [Function.update_of_ne hne]
          exact hoffline x hx }

/-- A restoration keeps the nodes. -/
theorem Keeps.restore {event : Event n} (hnodup : channels.Nodup) (hkind : event.kind = .restore c)
    (h : Keeps channels { d with sched := event :: d.sched }) : Keeps channels (d.restore c) := by
  have hevent : Daemon.offline (event :: d.sched) = c :: Daemon.offline d.sched :=
    offline_cons_restore hkind
  have hnodes : (d.channels ++ c :: Daemon.offline d.sched).Perm channels := hevent ▸ h.nodes
  have hfresh : c ∉ d.channels ++ Daemon.offline d.sched :=
    (List.nodup_cons.mp ((List.perm_middle.symm.trans hnodes).nodup_iff.mpr hnodup)).1
  rw [List.mem_append, not_or] at hfresh
  exact {
    nodes := by
      show (d.channels ++ [c] ++ Daemon.offline d.sched).Perm channels
      rwa [List.append_assoc, List.singleton_append]
    disruption := by
      have hcount := h.disruption
      rwa [List.countP_cons_of_neg (by simp [hkind])] at hcount
    bound := h.bound
    online := fun x hx => by
      rcases List.mem_append.mp hx with hx | hx
      · have hne : x ≠ c := fun heq => hfresh.1 (heq ▸ hx)
        exact (Function.update_of_ne hne ..).trans (h.online x hx)
      · rw [List.mem_singleton.mp hx]
        exact Function.update_self ..
    offline := fun x hx => by
      have hne : x ≠ c := fun heq => hfresh.2 (heq ▸ hx)
      have hpart : (d.restore c).part x = d.part x := Function.update_of_ne hne ..
      rw [hpart]
      exact h.offline x (hevent ▸ List.mem_cons_of_mem _ hx) }

/-- **Each round keeps the nodes.** -/
theorem Keeps.step {out : List (Event n)} (hnodup : channels.Nodup) (h : Keeps channels d)
    (hd : d.step draw = some (d', out)) : Keeps channels d' := by
  obtain ⟨event, sched, hperm, -, -, hkind⟩ := step_cases hd
  have hpopped : Keeps channels { d with sched := event :: sched, clock := max draw.now event.time } :=
    h.of_perm hperm
  rcases hkind with ⟨hkind, hdisrupt⟩ | ⟨c, hkind, rfl⟩
  · exact Keeps.disrupt (d := { d with sched, clock := _ }) hnodup hkind hpopped hdisrupt
  · exact Keeps.restore (d := { d with sched, clock := _ }) hnodup hkind hpopped

/-- What starts the loop. -/
theorem Keeps.of_daemon {idle : Bool} {start delay : ℕ} {part : Partitions n}
    (hpart : ∀ c ∈ channels, part c = 0) (h : daemon idle channels start delay part = .loops d) :
    Keeps channels d ∧ 2 ≤ channels.length := by
  unfold daemon at h
  split_ifs at h with _ _ hlen
  obtain rfl := Launch.loops.inj h
  refine ⟨?_, by omega⟩
  exact {
    nodes := by
      rw [offline_cons_disrupt rfl]
      exact .of_eq (List.append_nil _)
    disruption := by simp
    bound := rfl
    online := hpart
    offline := fun c hc => by
      rw [offline_cons_disrupt rfl] at hc
      cases hc }

/-- As one disruption is scheduled, the scheduler is never empty. -/
theorem Keeps.exists_step (h : Keeps channels d) (hlen : 2 ≤ channels.length) :
    ∃ draw, (d.step draw).isSome := by
  obtain ⟨e, he, -⟩ := List.countP_pos_iff.mp (h.disruption.ge : 0 < _)
  obtain ⟨event, hevent⟩ : ∃ event, event ∈ List.argmin Event.time d.sched := by
    cases hmin : List.argmin Event.time d.sched with
    | none => exact absurd (List.argmin_eq_none.mp hmin ▸ he) List.not_mem_nil
    | some event => exact ⟨event, rfl⟩
  have hfirst : ∀ e ∈ d.sched, event.time ≤ e.time := fun e he => List.le_of_mem_argmin he hevent
  obtain ⟨k, hk, rfl⟩ := List.getElem_of_mem (List.argmin_mem hevent)
  refine ⟨{ event := k, now := d.clock, chosen := 0, partition := 1, duration := 0, delay := 0 }, ?_⟩
  simp only [Daemon.step, List.getElem?_eq_getElem hk, le_refl, true_and]
  rw [if_pos hfirst]
  split
  · have hbound : 1 < d.bound := h.bound ▸ hlen
    cases hpool : d.channels with
    | nil => simp [Daemon.disrupt]
    | cons c rest =>
      have hlast : (c :: rest).getLast? = some ((c :: rest).getLast (List.cons_ne_nil c rest)) :=
        List.getLast?_eq_some_getLast _
      simp [Daemon.disrupt, popShuffled, hlast, hbound]
  · rfl

end Steps

/-- **No node is lost.** After any number of rounds each node is in the pool of the daemon or waits for
its restoration, once. Two nodes of the pool are in the same partition, and a node that waits is not in
theirs. One disruption is scheduled, so that the loop never ends. -/
theorem daemon_keeps {channels : List (Fin n)} {idle : Bool} {start delay : ℕ} {part : Partitions n}
    {d₀ d : Daemon n} {tr : List (Event n)} (hnodup : channels.Nodup)
    (hpart : ∀ c ∈ channels, part c = 0) (h₀ : daemon idle channels start delay part = .loops d₀)
    (hrun : (disrupting d₀).Run Machine.unguarded tr d) :
    (d.channels ++ offline d.sched).Perm channels ∧
      d.sched.countP (fun e => e.kind = .disrupt) = 1 ∧
      (∀ x ∈ d.channels, ∀ y ∈ d.channels, d.part x = d.part y) ∧
      (∀ x ∈ d.channels, ∀ y ∈ offline d.sched, d.part x ≠ d.part y) ∧
      ∃ draw, ((disrupting d₀).step d draw).isSome := by
  obtain ⟨hstart, hlen⟩ := Keeps.of_daemon hpart h₀
  have h : Keeps channels d :=
    hrun.invariant (P := fun _ d => Keeps channels d) hstart
      fun _ _ _ _ _ hkeeps _ hstep => hkeeps.step hnodup hstep
  refine ⟨h.nodes, h.disruption, ?_, ?_, h.exists_step hlen⟩
  · intro x hx y hy
    rw [h.online x hx, h.online y hy]
  · intro x hx y hy
    have hpos := (h.offline y hy).1
    rw [h.online x hx]
    omega

/-- Two of three nodes have gone offline, and the first of them has been restored. -/
theorem daemon_keeps_three :
    let d₀ : Daemon 3 := {
      channels := [0, 1, 2]
      sched := [{ time := 5, kind := .disrupt }]
      bound := 3
      clock := 0
      part := fun _ => 0 }
    ∃ tr d, (disrupting d₀).Run Machine.unguarded tr d ∧ d.channels = [2, 0] ∧
      offline d.sched = [1] ∧ (d.channels ++ offline d.sched).Perm [0, 1, 2] ∧
      ∃ draw, ((disrupting d₀).step d draw).isSome := by
  intro d₀
  have hexec : ((disrupting d₀).exec [
      { event := 0, now := 2, chosen := 0, partition := 2, duration := 9, delay := 6 },
      { event := 0, now := 7, chosen := 1, partition := 1, duration := 12, delay := 9 },
      { event := 2, now := 14, chosen := 0, partition := 1, duration := 0, delay := 0 }]).isSome := by
    decide
  obtain ⟨⟨d, tr⟩, heq⟩ := Option.isSome_iff_exists.mp hexec
  have hrun := Machine.run_exec heq
  obtain ⟨rfl, rfl⟩ := Prod.mk.inj (Option.some.inj heq)
  have hstart : daemon false [0, 1, 2] 0 5 (fun _ => 0) = .loops d₀ := rfl
  obtain ⟨hperm, -, -, -, hnext⟩ := daemon_keeps (by decide) (fun _ _ => rfl) hstart hrun
  exact ⟨_, _, hrun, rfl, rfl, hperm, hnext⟩

/-- A round changes the partition of at most one node. -/
theorem part_of_step {d d' : Daemon n} {draw : Draw} {out : List (Event n)}
    (h : d.step draw = some (d', out)) : d'.part = d.part ∨ ∃ c p, d'.part = Function.update d.part c p := by
  obtain ⟨event, sched, -, -, -, ⟨-, hdisrupt⟩ | ⟨c, -, rfl⟩⟩ := step_cases h
  · rcases disrupt_cases hdisrupt with ⟨-, rfl⟩ | ⟨c, rest, -, -, -, rfl⟩
    · exact .inl rfl
    · exact .inr ⟨c, draw.partition, rfl⟩
  · exact .inr ⟨c, 0, rfl⟩

/-- **The daemon is one of the environments of the cluster**: where a run of the cluster has the partitions
of the daemon, it goes on with those after a round. -/
theorem moves_partitions {start w : World n} {tr : List (Consensus.Event n)} {d d' : Daemon n}
    {draw : Draw} {out : List (Event n)} (hrun : (cluster start).Run Machine.unguarded tr w)
    (hpart : w.partition = d.part) (h : d.step draw = some (d', out)) :
    (cluster start).Run Machine.unguarded tr { w with partition := d'.part } := by
  rcases part_of_step h with hsame | ⟨c, p, hmoved⟩
  · rwa [hsame, ← hpart]
  · have hset : (cluster start).step w (.setPartition c p) =
        some ({ w with partition := d'.part }, []) := by
      rw [hmoved, ← hpart]
      rfl
    have hnext := Machine.Run.step hrun trivial hset
    rwa [List.append_nil] at hnext

end Daemon

end Consensus
