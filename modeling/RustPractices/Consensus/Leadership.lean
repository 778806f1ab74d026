import RustPractices.Consensus.Election

/-!
# Leaders

A leader is a node that has been elected, but a request for a vote raises its term without taking
its role away: it then leads a term in which another node may be elected. As long as no leader is
asked for a vote that it does not give, every leader has been elected in its own term, and no two
nodes lead the same term.

## Main definitions

* `World.Steady`: the steps in which a leader does not move to a later term
* `LeaderInv`: the invariant of leaders

## Main results

* `Message.execute_leader`: how a node can be a leader after a turn
* `leader_unique`: no two leaders have the same term in runs with steady steps
* `leader_not_unique`: a run that ends with two leaders of the same term
-/

open Transition

namespace Consensus

variable {n : ℕ}

/-- The message is a request of a later term than the node, and the node does not give its vote. -/
def Message.RefusedBy (up : ℕ → Fin n → Bool) (s : RaftNode n) : Message n → Prop
  | .requestVote r => s.term < r.term ∧
      ¬ (s.latestLogInfo ≤ r.latestLogInfo ∧ r.nodeId ∈ s.nodes ∧ up 0 r.nodeId = true)
  | _ => False

instance (up : ℕ → Fin n → Bool) (s : RaftNode n) : (msg : Message n) →
    Decidable (msg.RefusedBy up s)
  | .requestVote _ => inferInstanceAs (Decidable (_ ∧ _))
  | .accept _ | .command _ | .appendEntry _ | .appendEntryResponse _ | .vote _ => .isFalse id

/-- The step does not let a leader refuse its vote in a later term. -/
def World.Steady (w : World n) : Action n → Prop
  | .deliver x src moves => (w.node x).role = .leader →
      ∀ msg ∈ (w.inbox x src).head?, ¬ msg.RefusedBy (w.up x moves) (w.node x)
  | _ => True

instance (w : World n) : (a : Action n) → Decidable (w.Steady a)
  | .deliver .. => inferInstanceAs (Decidable (_ → _))
  | .submit .. | .timeout .. | .setPartition .. => .isTrue trivial

/-- A leader has been a leader before in the same term, or it is elected. -/
theorem Message.execute_leader (up : ℕ → Fin n → Bool) (s : RaftNode n) (msg : Message n)
    (hsteady : s.role = .leader → ¬ msg.RefusedBy up s)
    (hrole : (msg.execute up s).node.role = .leader) :
    s.role = .leader ∧ (msg.execute up s).node.term = s.term ∨
      .elected s.id (msg.execute up s).node.term ∈ (msg.execute up s).events := by
  have helectoral := msg.execute_electoral up s
  generalize ht : msg.execute up s = t at hrole helectoral ⊢
  generalize hmsg : some msg = m at helectoral
  cases helectoral with
  | quiet hrole' hterm _ _ => exact .inl ⟨hrole'.symm.trans hrole, hterm⟩
  | follow hrole' _ _ => simp [hrole'] at hrole
  | @raise r hterm hterm' _ =>
    obtain rfl := Option.some.inj hmsg
    obtain ⟨hle, -⟩ | ⟨-, hrefused, _, heq⟩ | ⟨-, -, -, heq⟩ := r.execute_cases up s
    · omega
    · have hrole' : t.node.role = s.role := congrArg (·.node.role) (ht.symm.trans heq)
      exact absurd ⟨hterm, hrefused⟩ (hsteady (hrole'.symm.trans hrole))
    · have hrole' : t.node.role = .follower := congrArg (·.node.role) (ht.symm.trans heq)
      simp [hrole'] at hrole
  | grant hrole' _ _ _ _ => simp [hrole'] at hrole
  | @count v hcandidate _ _ _ hno =>
    obtain rfl := Option.some.inj hmsg
    obtain ⟨hnot, heq⟩ | ⟨-, -, heq⟩ | ⟨-, -, heq⟩ := v.execute_cases up s
    · have hrole' : t.node.role = s.role := congrArg (·.node.role) (ht.symm.trans heq)
      simp [hrole', hcandidate] at hrole
    · have hrole' : t.node.role = s.role := congrArg (·.node.role) (ht.symm.trans heq)
      simp [hrole', hcandidate] at hrole
    · have helected : .elected s.id s.term ∈ t.events := by
        rw [← ht]
        exact (congrArg (·.events) heq) ▸ List.mem_cons_self
      simpa [Event.isElection] using hno.events _ helected
  | elect _ _ hterm _ _ _ hevents _ =>
    right
    rw [hevents, hterm]
    exact List.mem_cons_self
  | candidacy hrole' _ _ _ _ => simp [hrole'] at hrole

/-- A timeout makes no leader. -/
theorem RaftNode.timedOut_leader (up : ℕ → Fin n → Bool) (s : RaftNode n)
    (hrole : (s.timedOut up).node.role = .leader) :
    s.role = .leader ∧ (s.timedOut up).node.term = s.term := by
  obtain ⟨hleader, heq⟩ | ⟨-, heq⟩ | ⟨hnot, heq⟩ := s.timedOut_cases up
  · exact ⟨hleader, congrArg (·.node.term) heq⟩
  · simp [heq] at hrole
  · exact absurd ((congrArg (·.node.role) heq).symm.trans hrole) hnot

/-- **The invariant of leaders**: a leader has been elected in its term. -/
def LeaderInv (tr : List (Event n)) (w : World n) : Prop :=
  ∀ x, (w.node x).role = .leader → .elected x (w.node x).term ∈ tr

namespace LeaderInv

variable {tr : List (Event n)} {w w' : World n} {a : Action n} {out : List (Event n)}

theorem init : LeaderInv [] (World.connected n) := by
  intro x hrole
  simp [World.connected, RaftNode.new] at hrole

/-- The turn of a node. -/
theorem afterTurn (h : LeaderInv tr w) {x : Fin n} {t : Turn n} {moves : List (Partitions n)}
    (hleader : t.node.role = .leader → (w.node x).role = .leader ∧ t.node.term = (w.node x).term ∨
      .elected x t.node.term ∈ t.events) :
    LeaderInv (tr ++ t.events) (w.afterTurn x t moves) := by
  intro y hrole
  by_cases hy : y = x
  · subst hy
    rw [World.afterTurn_node_self] at hrole ⊢
    rcases hleader hrole with ⟨hrole', hterm⟩ | helected
    · rw [hterm]
      exact List.mem_append_left _ (h y hrole')
    · exact List.mem_append_right _ helected
  · rw [World.afterTurn_node_ne hy] at hrole ⊢
    exact List.mem_append_left _ (h y hrole)

/-- One steady step of the cluster keeps the invariant. -/
theorem step (h : LeaderInv tr w) (hconnected : Connected w) (hsteady : w.Steady a)
    (hstep : step w a = some (w', out)) : LeaderInv (tr ++ out) w' := by
  rcases step_cases hstep with ⟨x, command, -, -, rfl, rfl⟩ |
    ⟨x, src, moves, msg, rest, rfl, -, hinbox, rfl, rfl⟩ | ⟨x, moves, -, -, rfl, rfl⟩ |
    ⟨x, partition, -, rfl, rfl⟩
  · rw [List.append_nil]
    exact h
  · have hdequeue : LeaderInv tr (w.dequeue x src rest) := h
    apply hdequeue.afterTurn
    intro hrole
    have hleader := msg.execute_leader (w.up x moves) (w.node x) ?_ hrole
    · rwa [hconnected.id x] at hleader
    · intro hleader
      exact hsteady hleader msg (by rw [hinbox, List.head?_cons, Option.mem_some])
  · apply h.afterTurn
    intro hrole
    exact .inl (RaftNode.timedOut_leader _ _ hrole)
  · rw [List.append_nil]
    exact h

end LeaderInv

/-- The invariant holds along every run with steady steps. -/
theorem LeaderInv.of_run {tr : List (Event n)} {w : World n}
    (h : (cluster (World.connected n)).Run World.Steady tr w) : LeaderInv tr w := by
  have hinv := Machine.Run.invariant (P := fun tr w => Connected w ∧ LeaderInv tr w)
    ⟨Connected.init, LeaderInv.init⟩
    (fun tr w a w' out ⟨hconnected, hinv⟩ hsteady hstep =>
      ⟨hconnected.step hstep, hinv.step hconnected hsteady hstep⟩) h
  exact hinv.2

/-- **No two leaders have the same term** in a run with steady steps. -/
theorem leader_unique {tr : List (Event n)} {w : World n}
    (h : (cluster (World.connected n)).Run World.Steady tr w) {x y : Fin n}
    (hx : (w.node x).role = .leader) (hy : (w.node y).role = .leader)
    (hterm : (w.node x).term = (w.node y).term) : x = y := by
  have hinv := LeaderInv.of_run h
  have helected := hinv x hx
  rw [hterm] at helected
  exact (ElectionInv.of_run h).2.eq_of_elected helected (hinv y hy)

/-- Node 0 is elected. -/
def electionOfZero : List (Action 3) :=
  [.timeout 0 [], .deliver 1 (some 0) [], .deliver 0 (some 1) []]

/-- The run in which one of three nodes is elected. -/
theorem leader_unique_three :
    ∃ tr w, (cluster (World.connected 3)).Run World.Steady tr w ∧ (w.node 0).role = .leader ∧
      ∀ x y, (w.node x).role = .leader → (w.node y).role = .leader →
        (w.node x).term = (w.node y).term → x = y := by
  have hexec : (((cluster (World.connected 3)).guard World.Steady).exec electionOfZero).map
      (fun r => (r.1.node 0).role) = some .leader := by
    decide +kernel
  obtain ⟨⟨w, tr⟩, hexec, hrole⟩ := Option.map_eq_some_iff.mp hexec
  have hrun := Machine.Run.of_guard (Machine.run_exec hexec)
  exact ⟨tr, w, hrun, hrole, fun x y hx hy hterm => leader_unique hrun hx hy hterm⟩

/-- Node 0 has been elected and has got a command. Node 1 asks for votes in the next term: node 0
refuses its vote, since its log is longer, and node 2 gives its vote. -/
def electionOfOne : List (Action 3) :=
  electionOfZero ++ [.submit 0 (.openAccount "a"), .deliver 0 none [], .timeout 1 [],
    .deliver 0 (some 1) [], .deliver 2 (some 1) [], .deliver 1 (some 2) []]

/-- **Two leaders can have the same term.** -/
theorem leader_not_unique :
    ¬ ∀ tr w, (cluster (World.connected 3)).Run Machine.unguarded tr w →
      ∀ x y, (w.node x).role = .leader → (w.node y).role = .leader →
        (w.node x).term = (w.node y).term → x = y := by
  intro h
  have hexec : ((cluster (World.connected 3)).exec electionOfOne).map
      (fun r => ((r.1.node 0).role, (r.1.node 1).role, (r.1.node 0).term, (r.1.node 1).term)) =
      some (.leader, .leader, 2, 2) := by
    decide +kernel
  obtain ⟨⟨w, tr⟩, hexec, hend⟩ := Option.map_eq_some_iff.mp hexec
  obtain ⟨hrole₀, hrole₁, hterm₀, hterm₁⟩ := by simpa only [Prod.mk.injEq] using hend
  have hsame := h tr w (Machine.run_exec hexec) 0 1 hrole₀ hrole₁ (hterm₀.trans hterm₁.symm)
  exact absurd hsame (by decide)

/-! ## Runs of three nodes -/

/-- Node 0 leads the term of node 1, and node 2 takes over two of its entries. Then node 0 takes
over the first entry of node 1, before it gets the response to its own second one. -/
def truncationOfZero : List (Action 3) :=
  electionOfOne ++ ([.submit 0 (.openAccount "b"), .deliver 0 none [], .timeout 0 [],
    .submit 1 (.openAccount "c"), .deliver 1 none [],
    .deliver 2 (some 0) [], .deliver 2 (some 0) [], .deliver 2 (some 0) [], .deliver 2 (some 0) [],
    .deliver 0 (some 2) [], .deliver 2 (some 0) [], .deliver 0 (some 1) [],
    .deliver 0 (some 1) []] : List (Action 3))

/-- Node 1 sends its first command to node 0, which is deposed by node 2 before the command comes,
and its second one to node 2. Node 0 passes the first command on to node 2. -/
def overtaking : List (Action 3) :=
  electionOfZero ++ ([.deliver 1 (some 0) [], .submit 1 (.openAccount "a"), .deliver 1 none [],
    .timeout 2 [], .timeout 2 [], .deliver 1 (some 2) [], .deliver 1 (some 2) [],
    .deliver 0 (some 2) [], .deliver 0 (some 2) [], .deliver 2 (some 1) [], .deliver 1 (some 2) [],
    .deliver 0 (some 2) [], .submit 1 (.openAccount "b"), .deliver 1 none [],
    .deliver 2 (some 1) [], .deliver 0 (some 1) [], .deliver 2 (some 0) [], .deliver 2 (some 0) [],
    .deliver 2 (some 0) [], .deliver 2 (some 0) [], .deliver 1 (some 2) [], .deliver 2 (some 1) [],
    .deliver 1 (some 2) [], .deliver 2 (some 1) []] : List (Action 3))

end Consensus
