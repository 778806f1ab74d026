import RustPractices.Consensus.Placement

/-!
# What the nodes have applied

A node writes each entry that it applies to its log file, and only entries of its log. The log file
outlives the log: the node may take over entries at indices that it has applied.

## Main definitions

* `Turn.Recorded`: a turn writes what it applies to the log file
* `Recorded`: the log files are what the nodes have applied

## Main results

* `Message.execute_applied`: what a turn applies is in the log
* `Recorded.step`: one step of the cluster
-/

open Transition

namespace Consensus

variable {n : ℕ}

/-- The turn of the node `s` writes the commands that it applies to the log file. -/
def Turn.Recorded (s : RaftNode n) (t : Turn n) : Prop :=
  t.node.networkNode.logFile.map Prod.snd =
    s.networkNode.logFile.map Prod.snd ++ (appliedBy s.id t.events).map Prod.snd

section Turns

variable {up : ℕ → Fin n → Bool} {s : RaftNode n} {t : Turn n}

/-- A turn that applies nothing. -/
theorem Turn.Recorded.of_quiet (hevents : ∀ e ∈ t.events, ∀ x i cmd, e ≠ .applied x i cmd)
    (hnode : t.node.networkNode = s.networkNode) : t.Recorded s := by
  have hnil : appliedBy s.id t.events = [] := by
    apply List.eq_nil_iff_forall_not_mem.mpr
    rintro ⟨i, cmd⟩ hmem
    exact hevents _ (mem_appliedBy.mp hmem) s.id i cmd rfl
  rw [Recorded, hnode, hnil, List.map_nil, List.append_nil]

/-- Turns that write to the log file, one after the other. -/
theorem Turn.Recorded.andThen {f : RaftNode n → Turn n} (h : t.Recorded s) (hid : t.node.id = s.id)
    (hf : t.panicked = false → (f t.node).Recorded t.node) : (t.andThen f).Recorded s := by
  cases hpanicked : t.panicked with
  | true =>
    rw [Turn.andThen_of_panicked hpanicked]
    exact h
  | false =>
    have hrest := hf hpanicked
    rw [Turn.andThen_of_not_panicked hpanicked]
    unfold Recorded at h hrest ⊢
    rw [hid, h] at hrest
    rw [appliedBy_append, List.map_append, ← List.append_assoc]
    exact hrest

theorem NetworkNode.append_logFile {net net' : NetworkNode} {cmd : Request}
    (h : net.append cmd = some net') :
    net'.logFile.map Prod.snd = net.logFile.map Prod.snd ++ [cmd] := by
  unfold append at h
  split_ifs at h
  obtain rfl := Option.some.inj h
  simp

theorem RaftNode.applyLog_recorded (s : RaftNode n) (index : ℕ) :
    (s.applyLog index).Recorded s := by
  unfold applyLog
  split
  · exact .of_quiet (by simp [Turn.panic]) rfl
  next entry _ =>
    split
    · exact .of_quiet (by simp [Turn.panic]) rfl
    next net hnet =>
      -- the line is written before the book is asked
      have hline : (appliedBy s.id [.applied s.id index entry.entry]).map Prod.snd =
          [entry.entry] := by
        simp [appliedBy, Event.application]
      split
      · rw [Turn.Recorded, hline]
        exact NetworkNode.append_logFile hnet
      · rw [Turn.Recorded, hline]
        exact NetworkNode.append_logFile hnet

theorem RaftNode.applyLogs_recorded (index count : ℕ) (s : RaftNode n) :
    (applyLogs index count s).Recorded s := by
  induction count generalizing index s with
  | zero => exact .of_quiet (by simp [applyLogs]) rfl
  | succ count ih =>
    obtain ⟨networkNode, book, hnode⟩ := applyLog_node s index
    apply (applyLog_recorded s index).andThen
    · rw [hnode]
    · exact fun _ => ih (index + 1) { (s.applyLog index).node with
        committed := (s.applyLog index).node.committed + 1 }

/-- The turns that are recorded are closed under what the handlers do. -/
theorem Turn.Recorded.applies : Turn.Applies (n := n) Turn.Recorded where
  quiet hevents _ hnode := .of_quiet hevents hnode
  andThen := Turn.Recorded.andThen
  applyLogs count s := RaftNode.applyLogs_recorded s.committed count s
  congr h hid _ hnet hevents _ hnode _ := by
    unfold Turn.Recorded at h ⊢
    rw [hnode, hevents, ← hnet, ← hid]
    exact h

/-- A turn writes what it applies to the log file. -/
theorem Message.execute_recorded (msg : Message n) (up : ℕ → Fin n → Bool) (s : RaftNode n) :
    (msg.execute up s).Recorded s :=
  Turn.Recorded.applies.execute up s msg

theorem RaftNode.timedOut_recorded (up : ℕ → Fin n → Bool) (s : RaftNode n) :
    (s.timedOut up).Recorded s :=
  Turn.Recorded.applies.timedOut up s

/-- What a turn applies is in the log that it leaves. -/
theorem Message.execute_applied {msg : Message n} {x : Fin n} {i : ℕ} {cmd : Request}
    (h : .applied x i cmd ∈ (msg.execute up s).events) :
    ∃ e, (msg.execute up s).node.log[i]? = some e ∧ e.entry = cmd := by
  cases msg with
  | accept msg => simp [execute, Accept.execute] at h
  | command msg =>
    obtain ⟨-, heq⟩ | ⟨-, _, _, _, _, -, -, heq⟩ := msg.execute_cases up s <;>
      simp [execute, heq] at h
  | appendEntry msg =>
    obtain ⟨-, heq⟩ | ⟨-, cmds, pendingCmds, panicked, -, -, heq⟩ := msg.execute_cases up s <;>
      rw [execute, heq] at h ⊢
    · simp at h
    have h : .applied x i cmd ∈ (msg.answer up (msg.follow s)).events := by simpa using h
    show ∃ e, (msg.answer up (msg.follow s)).node.log[i]? = some e ∧ e.entry = cmd
    unfold AppendEntry.answer at h ⊢
    split at h
    next d hd =>
      rcases msg.respond_cases d up (msg.follow s) with
        ⟨-, heq⟩ | ⟨-, heq⟩ | ⟨-, -, heq⟩ | ⟨-, -, heq⟩ <;> simp [heq, Turn.panic] at h
    · split_ifs at h ⊢
      · obtain ⟨_, _, _, hnode⟩ := RaftNode.applyLogs_node (msg.follow s).committed
          (min msg.committed (msg.follow s).log.length - (msg.follow s).committed) (msg.follow s)
        obtain ⟨j, e, he, heq⟩ := RaftNode.applyLogs_events h
        obtain ⟨-, rfl, rfl⟩ : x = _ ∧ i = j ∧ cmd = e.entry := by simpa using heq
        exact ⟨e, by rw [hnode]; exact he, rfl⟩
      · simp at h
  | appendEntryResponse msg =>
    obtain ⟨_, _, _, _, _, hnode⟩ := msg.execute_node up s
    obtain ⟨j, e, he, heq⟩ := AppendEntryResponse.execute_events h
    obtain ⟨-, rfl, rfl⟩ : x = _ ∧ i = j ∧ cmd = e.entry := by simpa using heq
    exact ⟨e, (congrArg (fun s' => s'.log[i]?) hnode).trans he, rfl⟩
  | requestVote msg =>
    obtain ⟨-, heq⟩ | ⟨-, -, _, heq⟩ | ⟨-, -, -, heq⟩ := msg.execute_cases up s <;>
      simp [execute, heq] at h
  | vote msg =>
    obtain ⟨-, heq⟩ | ⟨-, -, heq⟩ | ⟨-, -, heq⟩ := msg.execute_cases up s <;>
      simp [execute, heq] at h

theorem RaftNode.not_timedOut_applied {x : Fin n} {i : ℕ} {cmd : Request} :
    .applied x i cmd ∉ (s.timedOut up).events := by
  obtain ⟨-, heq⟩ | ⟨-, heq⟩ | ⟨-, heq⟩ := s.timedOut_cases up <;> rw [heq] <;>
    simp [Turn.panic]

end Turns

/-- **The log files are what the nodes have applied.** -/
def Recorded (tr : List (Event n)) (w : World n) : Prop :=
  ∀ x, (w.node x).networkNode.logFile.map Prod.snd = (appliedBy x tr).map Prod.snd

namespace Recorded

variable {tr out : List (Event n)} {w w' : World n} {a : Action n}

theorem init : Recorded [] (World.connected n) := fun _ => rfl

theorem afterTurn (h : Recorded tr w) {x : Fin n} {t : Turn n} {moves : List (Partitions n)}
    (hid : (w.node x).id = x) (horder : t.InOrder (w.node x)) (ht : t.Recorded (w.node x)) :
    Recorded (tr ++ t.events) (w.afterTurn x t moves) := by
  intro y
  rw [appliedBy_append, List.map_append]
  by_cases hy : y = x
  · subst hy
    rw [Turn.Recorded, hid, h y] at ht
    rwa [World.afterTurn_node_self]
  · rw [World.afterTurn_node_ne hy, horder.own y (by rwa [hid]), List.map_nil, List.append_nil]
    exact h y

/-- One step of the cluster. -/
theorem step (h : Recorded tr w) (hconnected : Connected w) (hstep : step w a = some (w', out)) :
    Recorded (tr ++ out) w' := by
  rcases step_cases hstep with ⟨x, command, -, -, rfl, rfl⟩ |
    ⟨x, src, moves, msg, rest, -, -, -, rfl, rfl⟩ | ⟨x, moves, -, -, rfl, rfl⟩ |
    ⟨x, partition, -, rfl, rfl⟩
  · rw [List.append_nil]
    exact h
  · have hdequeue : Recorded tr (w.dequeue x src rest) := h
    exact hdequeue.afterTurn (hconnected.id x) (msg.execute_inOrder _ _)
      (msg.execute_recorded _ _)
  · exact h.afterTurn (hconnected.id x) (RaftNode.timedOut_inOrder _ _)
      (RaftNode.timedOut_recorded _ _)
  · rw [List.append_nil]
    exact h

end Recorded

/-! ## The indices of what has been applied -/

section Indices

variable {tr out : List (Event n)} {w : World n} {x : Fin n} {i k : ℕ} {cmd : Request}

/-- What a node has applied as its `k`-th entry had the index `k`. -/
theorem InOrder.index_eq (h : InOrder tr w) (hk : (appliedBy x tr)[k]? = some (i, cmd)) :
    i = k := by
  obtain ⟨m, hindices, -⟩ := h x
  have hfst : ((appliedBy x tr).map Prod.fst)[k]? = some i := by
    rw [List.getElem?_map, hk]
    rfl
  rw [hindices] at hfst
  obtain ⟨_, hget⟩ := List.getElem?_eq_some_iff.mp hfst
  rw [List.getElem_range] at hget
  exact hget.symm

/-- What a node has applied with the index `i` is its `i`-th entry. -/
theorem InOrder.getElem?_appliedBy (h : InOrder tr w) (hmem : (i, cmd) ∈ appliedBy x tr) :
    (appliedBy x tr)[i]? = some (i, cmd) := by
  obtain ⟨k, hk⟩ := List.mem_iff_getElem?.mp hmem
  obtain rfl := h.index_eq hk
  exact hk

/-- What a node has applied before has smaller indices. -/
theorem InOrder.lt_of_append (h : InOrder (tr ++ out) w) {j : ℕ} {cmd' : Request}
    (hi : (i, cmd) ∈ appliedBy x tr) (hj : (j, cmd') ∈ appliedBy x out) : i < j := by
  obtain ⟨m, hindices, -⟩ := h x
  have hlt : ((appliedBy x (tr ++ out)).map Prod.fst).Pairwise (· < ·) :=
    hindices ▸ List.pairwise_lt_range
  rw [appliedBy_append, List.map_append, List.pairwise_append] at hlt
  exact hlt.2.2 i (List.mem_map.mpr ⟨_, hi, rfl⟩) j (List.mem_map.mpr ⟨_, hj, rfl⟩)

end Indices

end Consensus
