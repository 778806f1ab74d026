import RustPractices.Consensus.LogMatching

/-!
# Responses to a leader

A response names an index of the log of the node that has sent the entry. As long as no leader is
asked for a vote that it does not give, this node is still the leader of the term of the response,
or the response is ignored: the index lies within its log. A leader then has an entry pending for
every node that has not answered the last entry of its log, unless it was elected with an empty log
and some pending commands, which become entries behind the back of the pending ones.

## Main definitions

* `AppendEntryResponse.InRange`: the indices that a response uses are in range
* `processed`: the responses that the nodes have processed
* `Replicated`: a leader without a pending entry has an answer to its last one

## Main results

* `response_inRange`: every response that is processed is in range, in runs with steady steps
* `leader_replicates`: leaders without a pending entry have replicated their log, in runs with
  steady steps and no election of a node with an empty log and pending commands
* `response_out_of_range`, `leader_forgets`: runs in which this is not so
-/

open Transition Replication

namespace Consensus

variable {n : ℕ}

/-! ## The indices of a response -/

/-- The indices that a node uses when it processes the response are in range. -/
structure AppendEntryResponse.InRange (s : RaftNode n) (r : AppendEntryResponse n) : Prop where
  /-- The success set that is updated. -/
  success : r.success = true → s.committed ≤ r.index → r.index < s.logEntrySuccess.length
  /-- The entries that are applied. -/
  applied : r.success = true → ∀ idx, s.committed ≤ idx → idx ≤ r.index → idx < s.log.length
  /-- The entry that is sent next after a failure. -/
  failure : r.success = false → 1 ≤ r.index

/-- A response that is not ignored has come to the leader of its term, and names an index of its
log. -/
theorem Matching.response {hist : ℕ → List LogEntry} {tr : List (Event n)} {w : World n}
    (h : Matching hist tr w) {x : Fin n} {src : Option (Fin n)} {r : AppendEntryResponse n}
    (hmem : .appendEntryResponse r ∈ w.inbox x src) (hterm : (w.node x).term = r.term) :
    (w.node x).role = .leader ∧ r.index < (w.node x).log.length ∧
      (r.success = false → r.index ≠ 0) := by
  cases src with
  | none =>
    obtain ⟨cmd, hcmd⟩ := h.connected.client x _ hmem
    cases hcmd
  | some y =>
    obtain ⟨helected, hlt, hfailure⟩ := h.histories.inbox x y _ hmem
    rw [← hterm] at helected hlt
    have hrole := h.histories.elected x helected
    rw [h.histories.leader x hrole] at hlt
    exact ⟨hrole, hlt, hfailure⟩

/-- **Every response that is processed is in range**, in a run with steady steps. -/
theorem response_inRange {tr : List (Event n)} {w : World n}
    (h : (cluster (World.connected n)).Run World.Steady tr w) {x : Fin n} {src : Option (Fin n)}
    {r : AppendEntryResponse n} {rest : List (Message n)}
    (hinbox : w.inbox x src = .appendEntryResponse r :: rest) (hterm : (w.node x).term = r.term) :
    r.InRange (w.node x) := by
  obtain ⟨hist, hmatching⟩ := Matching.of_run (fun _ _ => id) h
  have hmem : .appendEntryResponse r ∈ w.inbox x src := hinbox ▸ List.mem_cons_self
  obtain ⟨-, hlt, hfailure⟩ := hmatching.response hmem hterm
  constructor
  · intro _ _
    rwa [hmatching.histories.success x]
  · intro _ idx _ hidx
    exact hidx.trans_lt hlt
  · intro hfail
    exact Nat.one_le_iff_ne_zero.mpr (hfailure hfail)

/-- An entry of the leader is taken over, and the response comes back. -/
theorem response_inRange_one :
    ∃ tr w r rest, (cluster (World.connected 3)).Run World.Steady tr w ∧
      w.inbox 0 (some 1) = .appendEntryResponse r :: rest ∧ (w.node 0).term = r.term ∧
      r.InRange (w.node 0) := by
  have hexec : (((cluster (World.connected 3)).guard World.Steady).exec (electionOfZero ++
      ([.submit 0 (.openAccount "a"), .deliver 0 none [], .deliver 1 (some 0) [],
        .deliver 1 (some 0) []] : List (Action 3)))).map
        (fun r => (r.1.inbox 0 (some 1), (r.1.node 0).term)) =
      some ([.appendEntryResponse ⟨1, 1, 0, true⟩], 1) := by
    decide +kernel
  obtain ⟨⟨w, tr⟩, hexec, hend⟩ := Option.map_eq_some_iff.mp hexec
  obtain ⟨hinbox, hterm⟩ := Prod.mk.inj hend
  have hrun := Machine.Run.of_guard (Machine.run_exec hexec)
  exact ⟨tr, w, _, _, hrun, hinbox, hterm, response_inRange hrun hinbox hterm⟩

/-- **A response can be out of range**: its index is behind the log that is left. -/
theorem response_out_of_range :
    ¬ ∀ tr w, (cluster (World.connected 3)).Run Machine.unguarded tr w →
      ∀ x src r rest, w.inbox x src = .appendEntryResponse r :: rest →
        (w.node x).term = r.term → r.InRange (w.node x) := by
  intro h
  have hexec : ((cluster (World.connected 3)).exec truncationOfZero).map
      (fun r => (r.1.inbox 0 (some 2), (r.1.node 0).term, (r.1.node 0).committed,
        (r.1.node 0).logEntrySuccess.length)) =
      some ([.appendEntryResponse ⟨2, 2, 1, true⟩], 2, 1, 1) := by
    decide +kernel
  obtain ⟨⟨w, tr⟩, hexec, hend⟩ := Option.map_eq_some_iff.mp hexec
  obtain ⟨hinbox, hterm, hcommitted, hlength⟩ := by simpa only [Prod.mk.injEq] using hend
  have hrange := h tr w (Machine.run_exec hexec) 0 (some 2) _ _ hinbox hterm
  have hlt := hrange.success rfl hcommitted.le
  rw [hlength] at hlt
  exact absurd hlt (by decide)

/-! ## The pending entries of a leader -/

/-- The message makes a node with an empty log and some pending commands the leader. -/
def Message.LeadsFromNothing (s : RaftNode n) : Message n → Prop
  | .vote v => s.role = .candidate ∧ s.term = v.term ∧ (s.nodes.length + 1) / 2 < s.votes + 1 ∧
      s.log = [] ∧ s.pendingCmds ≠ []
  | _ => False

instance (s : RaftNode n) : (msg : Message n) → Decidable (msg.LeadsFromNothing s)
  | .vote _ => inferInstanceAs (Decidable (_ ∧ _))
  | .accept _ | .appendEntry _ | .appendEntryResponse _ | .command _ | .requestVote _ => .isFalse id

/-- The step is steady and elects no node with an empty log and some pending commands. -/
def World.Replicating (w : World n) (a : Action n) : Prop :=
  w.Steady a ∧ match a with
    | .deliver x src _ => ∀ msg ∈ (w.inbox x src).head?, ¬ msg.LeadsFromNothing (w.node x)
    | _ => True

instance (w : World n) : (a : Action n) → Decidable (w.Replicating a)
  | .deliver .. => inferInstanceAs (Decidable (_ ∧ _))
  | .submit .. | .timeout .. | .setPartition .. => inferInstanceAs (Decidable (_ ∧ True))

/-- A response that a node has processed, with the term of the node. -/
structure Processed (n : ℕ) where
  node : Fin n
  term : ℕ
  response : AppendEntryResponse n

/-- The responses that the nodes have processed after one more step. -/
def processed (g : List (Processed n)) (w : World n) (a : Action n) (_ : World n) :
    List (Processed n) :=
  match a with
  | .deliver x src _ =>
    match (w.inbox x src).head? with
    | some (.appendEntryResponse r) => g ++ [⟨x, (w.node x).term, r⟩]
    | _ => g
  | _ => g

/-- **A leader without a pending entry for a node has the answer of this node to the last entry of
its log**, and has got it in its term. -/
def Replicated (g : List (Processed n)) (w : World n) : Prop :=
  ∀ x y, (w.node x).role = .leader → (w.node x).log ≠ [] → y ≠ x →
    (w.node x).pendingEntry y = none → ∃ r, ⟨x, (w.node x).term, r⟩ ∈ g ∧ r.nodeId = y ∧
      r.term = (w.node x).term ∧ r.success = true ∧ r.index + 1 = (w.node x).log.length

theorem RaftNode.newEntryData_eq_none {s : RaftNode n} {i : ℕ} :
    s.newEntryData i = none ↔ s.log.length ≤ i := by
  simp [newEntryData]

/-- How a leader can have no pending entry for a node that it knows after a turn: it had none before
and keeps its log, or the node has answered, or it was elected with an empty log. -/
theorem Message.execute_pendingEntry_none (up : ℕ → Fin n → Bool) (s : RaftNode n)
    (msg : Message n) (haccept : ∀ a, msg ≠ .accept a)
    (hrole : (msg.execute up s).node.role = .leader) {y : Fin n} (hy : y ∈ s.nodes)
    (hnone : (msg.execute up s).node.pendingEntry y = none) :
    ((msg.execute up s).node.log = s.log ∧ s.role = .leader ∧ s.pendingEntry y = none) ∨
    ((msg.execute up s).node.log = s.log ∧ ∃ r, msg = .appendEntryResponse r ∧ r.nodeId = y ∧
      r.term = s.term ∧ (r.success = true ∧ s.log.length ≤ r.index + 1 ∨
        r.success = false ∧ s.log.length < r.index)) ∨
    msg.LeadsFromNothing s ∨ (msg.execute up s).node.log = [] := by
  cases msg with
  | accept msg => exact absurd rfl (haccept msg)
  | command cmd =>
    obtain ⟨-, heq⟩ | ⟨hnot, _, _, _, _, -, -, heq⟩ := cmd.execute_cases up s <;>
      simp only [execute, heq] at hrole hnone ⊢
    · by_cases hbefore : s.pendingEntry y = none
      · rw [if_pos ⟨hy, hbefore⟩, RaftNode.newEntryData_eq_none] at hnone
        simp [RaftNode.pushLogEntry] at hnone
      · rw [if_neg fun h => hbefore h.2] at hnone
        exact absurd hnone hbefore
    · exact absurd hrole hnot
  | appendEntry msg =>
    obtain ⟨-, heq⟩ | ⟨-, _, _, _, -, -, heq⟩ := msg.execute_cases up s
    · simp only [execute, heq] at hrole hnone ⊢
      exact .inl ⟨trivial, hrole, hnone⟩
    · obtain ⟨_, _, _, _, _, hanswer⟩ := msg.answer_node up (msg.follow s)
      simp only [execute, heq, hanswer] at hrole
      cases hrole
  | appendEntryResponse msg =>
    obtain ⟨_, _, _, _, _, hnode⟩ := msg.execute_node up s
    have hlog : (msg.execute up s).node.log = s.log := congrArg (·.log) hnode
    have hrole' : s.role = .leader := (congrArg (·.role) hnode).symm.trans hrole
    simp only [execute] at hnone ⊢
    have hsend : ∀ index (s' : RaftNode n), s'.log = s.log → s'.pendingEntry = s.pendingEntry →
        (msg.sendEntry index up s').node.pendingEntry y = none →
        s.pendingEntry y = none ∨ msg.nodeId = y ∧ s.log.length ≤ index := by
      intro index s' hlog' hpending hnone
      rw [msg.sendEntry_pendingEntry, hpending] at hnone
      split_ifs at hnone
      · by_cases hy' : y = msg.nodeId
        · subst hy'
          rw [Function.update_self, RaftNode.newEntryData_eq_none, hlog'] at hnone
          exact .inr ⟨rfl, hnone⟩
        · rw [Function.update_of_ne hy'] at hnone
          exact .inl hnone
      · exact .inl hnone
    obtain ⟨_, _, _, _, hack⟩ := msg.acknowledge_node s
    unfold AppendEntryResponse.execute at hnone
    split_ifs at hnone with hterm hsuccess
    · unfold Turn.andThen at hnone
      split_ifs at hnone
      · rw [hack] at hnone
        exact .inl ⟨hlog, hrole', hnone⟩
      · rcases hsend _ _ (by rw [hack]) (by rw [hack]) hnone with hbefore | ⟨hnode', hle⟩
        · exact .inl ⟨hlog, hrole', hbefore⟩
        · exact .inr (.inl ⟨hlog, msg, rfl, hnode', hterm.symm, .inl ⟨hsuccess, hle⟩⟩)
    · split at hnone
      · exact .inl ⟨hlog, hrole', hnone⟩
      next index hindex =>
        rcases hsend _ s rfl rfl hnone with hbefore | ⟨hnode', hle⟩
        · exact .inl ⟨hlog, hrole', hbefore⟩
        · refine .inr (.inl ⟨hlog, msg, rfl, hnode', hterm.symm, .inr ⟨?_, ?_⟩⟩)
          · simpa using hsuccess
          · rw [hindex]
            exact Nat.lt_succ_of_le hle
    · exact .inl ⟨hlog, hrole', hnone⟩
  | requestVote msg =>
    obtain ⟨-, heq⟩ | ⟨-, -, _, heq⟩ | ⟨-, -, -, heq⟩ := msg.execute_cases up s <;>
      simp only [execute, heq] at hrole hnone ⊢
    · exact .inl ⟨trivial, hrole, hnone⟩
    · exact .inl ⟨trivial, hrole, hnone⟩
    · cases hrole
  | vote msg =>
    obtain ⟨-, heq⟩ | ⟨-, -, heq⟩ | ⟨⟨hcandidate, hterm⟩, hvotes, heq⟩ := msg.execute_cases up s <;>
      simp only [execute, heq] at hrole hnone ⊢
    · exact .inl ⟨trivial, hrole, hnone⟩
    · exact .inl ⟨trivial, hrole, hnone⟩
    -- the pending entries are set from the log before the pending commands become entries
    · right
      right
      have hlog : s.log = [] := by
        rw [RaftNode.lead] at hnone
        dsimp only at hnone
        rw [if_pos hy] at hnone
        unfold RaftNode.lastEntryData at hnone
        split at hnone
        next hlength => exact List.eq_nil_of_length_eq_zero hlength
        next len hlength =>
          rw [RaftNode.newEntryData_eq_none] at hnone
          omega
      by_cases hcmds : s.pendingCmds = []
      · right
        simp [RaftNode.lead, hlog, hcmds]
      · exact .inl ⟨hcandidate, hterm, hvotes, hlog, hcmds⟩

namespace Replicated

variable {g : List (Processed n)} {hist : ℕ → List LogEntry} {tr out : List (Event n)}
  {w w' : World n} {a : Action n}

theorem init : Replicated [] (World.connected n) := by
  intro x y hrole
  simp [World.connected, RaftNode.new] at hrole

theorem mono (h : Replicated g w) {g' : List (Processed n)} (hle : ∀ p ∈ g, p ∈ g') :
    Replicated g' w := by
  intro x y hrole hlog hy hnone
  obtain ⟨r, hr, hrest⟩ := h x y hrole hlog hy hnone
  exact ⟨r, hle _ hr, hrest⟩

theorem subset_processed (g : List (Processed n)) (w : World n) (a : Action n) (w' : World n) :
    ∀ p ∈ g, p ∈ processed g w a w' := by
  intro p hp
  unfold processed
  split
  · split
    · exact List.mem_append_left _ hp
    · exact hp
  · exact hp

/-- The turn of a node. -/
theorem afterTurn (h : Replicated g w) {x : Fin n} {t : Turn n} {moves : List (Partitions n)}
    (hturn : t.node.role = .leader → t.node.log ≠ [] → ∀ y, y ≠ x → t.node.pendingEntry y = none →
      ∃ r, ⟨x, t.node.term, r⟩ ∈ g ∧ r.nodeId = y ∧ r.term = t.node.term ∧ r.success = true ∧
        r.index + 1 = t.node.log.length) :
    Replicated g (w.afterTurn x t moves) := by
  intro y z hrole hlog hz hnone
  by_cases hy : y = x
  · subst hy
    rw [World.afterTurn_node_self] at hrole hlog hnone ⊢
    exact hturn hrole hlog z hz hnone
  · rw [World.afterTurn_node_ne hy] at hrole hlog hnone ⊢
    exact h y z hrole hlog hz hnone

/-- One step keeps what the leaders have replicated. -/
theorem step (h : Replicated g w) (hmatching : Matching hist tr w) (hok : w.Replicating a)
    (hstep : step w a = some (w', out)) : Replicated (processed g w a w') w' := by
  have hg := h.mono (subset_processed g w a w')
  rcases step_cases hstep with ⟨x, command, -, -, rfl, rfl⟩ |
    ⟨x, src, moves, msg, rest, rfl, -, hinbox, rfl, rfl⟩ | ⟨x, moves, -, -, rfl, rfl⟩ |
    ⟨x, partition, -, rfl, rfl⟩
  · exact hg
  · have hmem : msg ∈ w.inbox x src := hinbox ▸ List.mem_cons_self
    have hhead : msg ∈ (w.inbox x src).head? := by rw [hinbox, List.head?_cons, Option.mem_some]
    have hdequeue : Replicated (processed g w (.deliver x src moves) _)
        (w.dequeue x src rest) := hg
    apply hdequeue.afterTurn
    intro hrole hlog y hy hnone
    have hterm' : (w.node x).role = .leader →
        (msg.execute (w.up x moves) (w.node x)).node.term = (w.node x).term := by
      intro hrole'
      rcases msg.execute_leader (w.up x moves) (w.node x)
        (fun hleader => hok.1 hleader msg hhead) hrole with ⟨-, hterm⟩ | helected
      · exact hterm
      · have hcandidate := ((msg.execute_electoral _ _).elected_mem helected).2.2.1
        simp [hrole'] at hcandidate
    rcases msg.execute_pendingEntry_none (w.up x moves) (w.node x)
      (fun a => hmatching.connected.not_accept hmem a) hrole (hmatching.connected.mem_nodes.mpr hy)
      hnone with ⟨hkeep, hrole', hnone'⟩ | ⟨hkeep, r, rfl, rfl, hterm, hanswer⟩ | hnothing | hempty
    · rw [hkeep] at hlog ⊢
      rw [hterm' hrole']
      exact hg x y hrole' hlog hy hnone'
    · obtain ⟨hrole', hlt, -⟩ := hmatching.response hmem hterm.symm
      rw [hterm' hrole', hkeep]
      rcases hanswer with ⟨hsuccess, hle⟩ | ⟨-, hlt'⟩
      · refine ⟨r, ?_, rfl, hterm, hsuccess, le_antisymm hlt hle⟩
        simp [processed, hinbox]
      · exact absurd hlt' hlt.le.not_gt
    · exact absurd hnothing (hok.2 msg hhead)
    · exact absurd hempty hlog
  · apply hg.afterTurn
    intro hrole hlog y hy hnone
    obtain ⟨hrole', heq⟩ | ⟨-, heq⟩ | ⟨hnot, heq⟩ := (w.node x).timedOut_cases (w.up x moves)
    · rw [heq] at hlog hnone ⊢
      exact hg x y hrole' hlog hy hnone
    · rw [heq] at hrole
      cases hrole
    · rw [heq] at hrole
      exact absurd hrole hnot
  · exact hg

end Replicated

/-- **Leaders without a pending entry have replicated their log**, in a run with steady steps that
elects no node with an empty log and some pending commands. -/
theorem leader_replicates {tr : List (Event n)} {w : World n} {g : List (Processed n)}
    (h : (cluster (World.connected n)).GhostRun World.Replicating [] processed tr w g) :
    Replicated g w := by
  have hinv := h.invariant
    (P := fun tr w g => (∃ hist, Matching hist tr w) ∧ Replicated g w) ?_ ?_
  · exact hinv.2
  · exact ⟨⟨_, .init⟩, .init⟩
  · rintro tr w g a w' out ⟨⟨hist, hmatching⟩, hreplicated⟩ hok hstep
    obtain ⟨hist', -, hmatching'⟩ := hmatching.step hok.1 hstep
    exact ⟨⟨hist', hmatching'⟩, hreplicated.step hmatching hok hstep⟩

/-- The cluster with the responses that have been processed. -/
def clusterProcessed (n : ℕ) : Machine (World n × List (Processed n)) (Action n) (Event n) :=
  (cluster (World.connected n)).ghost [] processed

/-- An entry of the leader is taken over, and the response is processed. -/
theorem leader_replicates_one :
    ∃ tr w g, (cluster (World.connected 3)).GhostRun World.Replicating [] processed tr w g ∧
      (w.node 0).role = .leader ∧ (w.node 0).log.length = 1 ∧ (w.node 0).pendingEntry 1 = none ∧
      Replicated g w := by
  have hexec : (((clusterProcessed 3).guard fun s a => World.Replicating s.1 a).exec
      (electionOfZero ++ ([.submit 0 (.openAccount "a"), .deliver 0 none [], .deliver 1 (some 0) [],
        .deliver 1 (some 0) [], .deliver 0 (some 1) []] : List (Action 3)))).map
        (fun r => ((r.1.1.node 0).role, (r.1.1.node 0).log.length,
          (r.1.1.node 0).pendingEntry 1)) = some (.leader, 1, none) := by
    decide +kernel
  obtain ⟨⟨⟨w, g⟩, tr⟩, hexec, hend⟩ := Option.map_eq_some_iff.mp hexec
  obtain ⟨hrole, hlength, hpending⟩ := by simpa only [Prod.mk.injEq] using hend
  have hrun := Machine.GhostRun.of_ghost (Machine.Run.of_guard (Machine.run_exec hexec))
  exact ⟨tr, w, g, hrun, hrole, hlength, hpending, leader_replicates hrun⟩

/-- **A leader can forget an entry**: a command that has come before the election is an entry of the
new leader, and it is pending for nobody. -/
theorem leader_forgets :
    ¬ ∀ tr w g, (cluster (World.connected 3)).GhostRun Machine.unguarded [] processed tr w g →
      Replicated g w := by
  intro h
  have hexec : ((clusterProcessed 3).exec
      (.submit 0 (.openAccount "a") :: .deliver 0 none [] :: electionOfZero)).map
        (fun r => ((r.1.1.node 0).role, (r.1.1.node 0).log.length, (r.1.1.node 0).pendingEntry 1,
          r.1.2.length)) = some (.leader, 1, none, 0) := by
    decide +kernel
  obtain ⟨⟨⟨w, g⟩, tr⟩, hexec, hend⟩ := Option.map_eq_some_iff.mp hexec
  obtain ⟨hrole, hlength, hpending, hg⟩ := by simpa only [Prod.mk.injEq] using hend
  have hlog : (w.node 0).log ≠ [] := by
    intro hnil
    rw [hnil] at hlength
    exact absurd hlength (by decide)
  have hrun : (cluster (World.connected 3)).GhostRun Machine.unguarded [] processed tr w g :=
    Machine.GhostRun.of_ghost (s := (w, g)) (Machine.run_exec hexec)
  obtain ⟨r, hr, -⟩ := h tr w g hrun 0 1 hrole hlog (by decide) hpending
  rw [List.eq_nil_of_length_eq_zero hg] at hr
  cases hr

end Consensus
