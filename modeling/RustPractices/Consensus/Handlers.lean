import RustPractices.Consensus.Cluster

/-!
# What the handlers do

The parts of the handlers that many of them share, each described once: what a turn does when it
consists of two parts, which fields applying the log and forwarding commands leave alone, and which
messages a node can send at all.

## Main definitions

* `SentBy`: the messages that a node can send
* `Addressed`: messages name their senders
* `Connected`: the cluster stays fully connected

## Main results

* `applyLogs_node`, `sendPendingCmdsToLeader_node`: the fields that are left alone
* `execute_sent`, `timedOut_sent`: the messages that a turn sends
* `Addressed.step`, `Connected.step`: what one step of the cluster keeps
-/

open Transition

namespace Consensus

variable {n : ℕ}

/-! ## Turns -/

namespace Turn

variable {t : Turn n} {f : RaftNode n → Turn n}

theorem andThen_of_panicked (h : t.panicked = true) : t.andThen f = t := by
  simp [andThen, h]

theorem andThen_of_not_panicked (h : t.panicked = false) :
    t.andThen f =
      { f t.node with
        sent := t.sent ++ (f t.node).sent
        events := t.events ++ (f t.node).events } := by
  simp [andThen, h]

/-- A property of nodes that both parts of a turn preserve. -/
theorem andThen_node {P : RaftNode n → Prop} (ht : P t.node) (hf : P t.node → P (f t.node).node) :
    P (t.andThen f).node := by
  unfold andThen
  split_ifs
  · exact ht
  · exact hf ht

theorem mem_sent_andThen {m : Fin n × Message n} (h : m ∈ (t.andThen f).sent) :
    m ∈ t.sent ∨ m ∈ (f t.node).sent := by
  unfold andThen at h
  split_ifs at h
  · exact .inl h
  · exact List.mem_append.mp h

theorem mem_events_andThen {e : Event n} (h : e ∈ (t.andThen f).events) :
    e ∈ t.events ∨ e ∈ (f t.node).events := by
  unfold andThen at h
  split_ifs at h
  · exact .inl h
  · exact List.mem_append.mp h

end Turn

namespace RaftNode

variable {s : RaftNode n} {up : ℕ → Fin n → Bool}

/-! ## Applying the log -/

/-- Applying an entry changes the log file and the book. -/
theorem applyLog_node (s : RaftNode n) (index : ℕ) :
    ∃ networkNode book, (s.applyLog index).node = { s with networkNode, book } := by
  unfold applyLog
  split
  · exact ⟨s.networkNode, s.book, rfl⟩
  · split
    · exact ⟨s.networkNode, s.book, rfl⟩
    · split
      · exact ⟨_, s.book, rfl⟩
      · exact ⟨_, _, rfl⟩

/-- Applying entries changes the log file, the book and the number of applied entries. -/
theorem applyLogs_node (index count : ℕ) (s : RaftNode n) :
    ∃ networkNode book committed,
      (applyLogs index count s).node = { s with networkNode, book, committed } := by
  induction count generalizing index s with
  | zero => exact ⟨s.networkNode, s.book, s.committed, rfl⟩
  | succ count ih =>
    obtain ⟨networkNode, book, happly⟩ := applyLog_node s index
    rw [applyLogs, Turn.andThen]
    split_ifs
    · exact ⟨networkNode, book, s.committed, happly⟩
    · obtain ⟨networkNode', book', committed, hrest⟩ :=
        ih (index + 1) { (s.applyLog index).node with committed := (s.applyLog index).node.committed + 1 }
      refine ⟨networkNode', book', committed, ?_⟩
      simp only [hrest]
      rw [happly]

theorem applyLog_sent (s : RaftNode n) (index : ℕ) : (s.applyLog index).sent = [] := by
  unfold applyLog
  split
  · rfl
  · split
    · rfl
    · split <;> rfl

theorem applyLogs_sent (index count : ℕ) (s : RaftNode n) :
    (applyLogs index count s).sent = [] := by
  induction count generalizing index s with
  | zero => rfl
  | succ count ih =>
    rw [applyLogs, Turn.andThen]
    split_ifs
    · exact applyLog_sent s index
    · simp [applyLog_sent, ih]

theorem applyLog_events {index : ℕ} {e : Event n} (h : e ∈ (s.applyLog index).events) :
    ∃ entry, s.log[index]? = some entry ∧ e = .applied s.id index entry.entry := by
  unfold applyLog at h
  split at h
  · simp [Turn.panic] at h
  next entry hentry =>
    split at h
    · simp [Turn.panic] at h
    · split at h <;> exact ⟨entry, hentry, by simpa using h⟩

/-- Applying entries exhibits entries of the log, in any case. -/
theorem applyLogs_events {index count : ℕ} {e : Event n} (h : e ∈ (applyLogs index count s).events) :
    ∃ i entry, s.log[i]? = some entry ∧ e = .applied s.id i entry.entry := by
  induction count generalizing index s with
  | zero => simp [applyLogs] at h
  | succ count ih =>
    rcases Turn.mem_events_andThen h with h | h
    · obtain ⟨entry, hentry, rfl⟩ := applyLog_events h
      exact ⟨index, entry, hentry, rfl⟩
    · obtain ⟨networkNode, book, happly⟩ := applyLog_node s index
      simpa [happly] using ih h

/-! ## Sending -/

theorem mem_sendAll {dsts : List (Fin n)} {msg : Fin n → Message n} {dst : Fin n} {m : Message n}
    (h : (dst, m) ∈ sendAll up dsts msg) : dst ∈ dsts ∧ m = msg dst := by
  obtain ⟨⟨dst', k⟩, hmem, heq⟩ := List.mem_map.mp h
  obtain ⟨rfl, rfl⟩ : dst' = dst ∧ msg dst' = m := by simpa using heq
  exact ⟨List.fst_mem_of_mem_zipIdx (List.mem_filter.mp hmem).1, rfl⟩

theorem sendCmds_append (up : ℕ → Bool) (k : ℕ) (cmds : List Request) :
    (sendCmds up k cmds).1 ++ (sendCmds up k cmds).2 = cmds := by
  induction cmds generalizing k with
  | nil => rfl
  | cons cmd cmds ih =>
    rw [sendCmds]
    split_ifs
    · simp [ih]
    · rfl

/-- Forwarding sends some of the pending commands to the leader, in order, and keeps the others. -/
theorem sendPendingCmdsToLeader_cases (up : ℕ → Fin n → Bool) (s : RaftNode n) :
    ∃ cmds pendingCmds panicked, cmds ++ pendingCmds = s.pendingCmds ∧
      (∀ leader, s.leader = some leader → leader ∉ s.nodes → cmds = []) ∧
      ∀ leader, s.leader = some leader → s.sendPendingCmdsToLeader up = {
        node := { s with pendingCmds }
        sent := cmds.map fun cmd => (leader, .command cmd)
        panicked } := by
  obtain hleader | ⟨leader, hleader⟩ := Option.eq_none_or_eq_some s.leader
  · exact ⟨[], s.pendingCmds, false, rfl, by simp [hleader], by simp [hleader]⟩
  have heq : ∀ leader', s.leader = some leader' → leader' = leader := by
    intro leader' h
    exact Option.some.inj (h.symm.trans hleader)
  by_cases hnode : leader ∈ s.nodes
  · refine ⟨_, _, false, sendCmds_append (up · leader) 0 s.pendingCmds, ?_, ?_⟩
    · intro leader' h hne
      exact absurd hnode (heq leader' h ▸ hne)
    · intro leader' h
      obtain rfl := heq leader' h
      simp [sendPendingCmdsToLeader, h, hnode]
  · refine ⟨[], s.pendingCmds, true, rfl, fun _ _ _ => rfl, ?_⟩
    intro leader' h
    obtain rfl := heq leader' h
    have hpanic : s.sendPendingCmdsToLeader up = .panic s := by
      simp [sendPendingCmdsToLeader, h, hnode]
    rw [hpanic]
    rfl

end RaftNode

/-! ## The messages that a turn sends -/

/-- The messages that a node can send: they name the node as their sender, and none of them is a
new connection. -/
def SentBy (x : Fin n) : Message n → Prop
  | .accept _ => False
  | .command _ => True
  | .appendEntry msg => msg.nodeId = x
  | .appendEntryResponse msg => msg.nodeId = x
  | .requestVote msg => msg.nodeId = x
  | .vote _ => True

section Sent

variable {up : ℕ → Fin n → Bool} {s : RaftNode n} {dst : Fin n} {m : Message n}

/-- An entry is answered in one of four ways: there is no connection to the sender, the response
cannot be sent, the entry before it does not match, or it is taken over. -/
theorem AppendEntry.respond_cases (self : AppendEntry n) (entry : EntryData)
    (up : ℕ → Fin n → Bool) (s : RaftNode n) :
    self.nodeId ∉ s.nodes ∧ self.respond entry up s = .panic s ∨
    self.nodeId ∈ s.nodes ∧ self.respond entry up s = { node := s } ∨
    (self.nodeId ∈ s.nodes ∧ entry.prevTerm ≠ s.prevEntryTerm entry.index ∧
      self.respond entry up s = {
        node := s
        sent := [(self.nodeId, .appendEntryResponse ⟨s.id, self.term, entry.index, false⟩)] }) ∨
    (self.nodeId ∈ s.nodes ∧ entry.prevTerm = s.prevEntryTerm entry.index ∧
      self.respond entry up s = {
        node := (s.truncateLog entry.index).pushLogEntry
          { term := entry.term, entry := entry.command }
        sent := [(self.nodeId, .appendEntryResponse ⟨s.id, self.term, entry.index, true⟩)]
        events := [.accepted s.id self.nodeId self.term entry.index] }) := by
  by_cases hnode : self.nodeId ∈ s.nodes
  · by_cases hup : up 0 self.nodeId = true
    · by_cases hprev : entry.prevTerm = s.prevEntryTerm entry.index
      · simp [AppendEntry.respond, hnode, hup, hprev]
      · simp [AppendEntry.respond, hnode, hup, hprev]
    · simp [AppendEntry.respond, hnode, hup]
  · simp [AppendEntry.respond, hnode]

theorem AppendEntry.respond_sent {self : AppendEntry n} {entry : EntryData}
    (h : (dst, m) ∈ (self.respond entry up s).sent) :
    dst = self.nodeId ∧ dst ∈ s.nodes ∧ ∃ success, m =
      .appendEntryResponse ⟨s.id, self.term, entry.index, success⟩ := by
  rcases self.respond_cases entry up s with
    ⟨-, heq⟩ | ⟨-, heq⟩ | ⟨hnode, -, heq⟩ | ⟨hnode, -, heq⟩
  · simp [heq, Turn.panic] at h
  · simp [heq] at h
  · obtain ⟨rfl, rfl⟩ : dst = self.nodeId ∧ m = _ := by simpa [heq] using h
    exact ⟨rfl, hnode, _, rfl⟩
  · obtain ⟨rfl, rfl⟩ : dst = self.nodeId ∧ m = _ := by simpa [heq] using h
    exact ⟨rfl, hnode, _, rfl⟩

theorem AppendEntry.answer_sent {self : AppendEntry n} (h : (dst, m) ∈ (self.answer up s).sent) :
    dst ∈ s.nodes ∧ dst = self.nodeId ∧ ∃ entry success, self.entry = some entry ∧
      m = .appendEntryResponse ⟨s.id, self.term, entry.index, success⟩ := by
  unfold AppendEntry.answer at h
  split at h
  next entry hentry =>
    obtain ⟨hdst, hnode, success, hm⟩ := AppendEntry.respond_sent h
    exact ⟨hnode, hdst, entry, success, hentry, hm⟩
  · split_ifs at h
    · simp [RaftNode.applyLogs_sent] at h
    · simp at h

/-- Answering changes the log with its success sets, the log file, the book and the number of
applied entries. -/
theorem AppendEntry.answer_node (self : AppendEntry n) (up : ℕ → Fin n → Bool) (s : RaftNode n) :
    ∃ log logEntrySuccess networkNode book committed, (self.answer up s).node =
      { s with log, logEntrySuccess, networkNode, book, committed } := by
  unfold AppendEntry.answer
  split
  next entry _ =>
    rcases self.respond_cases entry up s with
      ⟨-, heq⟩ | ⟨-, heq⟩ | ⟨-, -, heq⟩ | ⟨-, -, heq⟩ <;> rw [heq] <;>
      exact ⟨_, _, s.networkNode, s.book, s.committed, rfl⟩
  · split_ifs
    · obtain ⟨networkNode, book, committed, hnode⟩ :=
        RaftNode.applyLogs_node s.committed (min self.committed s.log.length - s.committed) s
      exact ⟨s.log, s.logEntrySuccess, networkNode, book, committed, hnode⟩
    · exact ⟨s.log, s.logEntrySuccess, s.networkNode, s.book, s.committed, rfl⟩

/-- An `AppendEntry` of an earlier term is ignored. Otherwise the node follows its sender, answers,
and forwards some of its pending commands. -/
theorem AppendEntry.execute_cases (self : AppendEntry n) (up : ℕ → Fin n → Bool)
    (s : RaftNode n) :
    self.term < s.term ∧ self.execute up s = { node := s } ∨
    s.term ≤ self.term ∧ ∃ cmds pendingCmds panicked, cmds ++ pendingCmds = s.pendingCmds ∧
      (self.nodeId ∉ s.nodes → cmds = []) ∧
      self.execute up s = {
        node := { (self.answer up (self.follow s)).node with pendingCmds }
        sent := (self.answer up (self.follow s)).sent ++
          cmds.map fun cmd => (self.nodeId, .command cmd)
        events := .raised s.id self.term :: (self.answer up (self.follow s)).events
        panicked := (self.answer up (self.follow s)).panicked || panicked } := by
  rcases lt_or_ge self.term s.term with hterm | hterm
  · exact .inl ⟨hterm, by simp [AppendEntry.execute, not_le.mpr hterm]⟩
  refine .inr ⟨hterm, ?_⟩
  have hfirst : (⟨self.follow s, [], [.raised s.id self.term], false⟩ : Turn n).andThen
      (self.answer up) = { self.answer up (self.follow s) with
        events := .raised s.id self.term :: (self.answer up (self.follow s)).events } := by
    rw [Turn.andThen_of_not_panicked rfl]
    rfl
  rw [AppendEntry.execute, if_pos hterm]
  simp only [hfirst]
  obtain ⟨log, logEntrySuccess, networkNode, book, committed, hnode⟩ :=
    self.answer_node up (self.follow s)
  generalize self.answer up (self.follow s) = r at hnode ⊢
  have hcmds : r.node.pendingCmds = s.pendingCmds := by
    rw [hnode]
    rfl
  have hleader : r.node.leader = some self.nodeId := by
    rw [hnode]
    rfl
  have hnodes : r.node.nodes = s.nodes := by
    rw [hnode]
    rfl
  cases hpanicked : r.panicked with
  | true =>
    refine ⟨[], s.pendingCmds, false, rfl, fun _ => rfl, ?_⟩
    rw [Turn.andThen_of_panicked rfl, ← hcmds]
    simp
  | false =>
    rw [Turn.andThen_of_not_panicked rfl]
    by_cases hpending : r.node.pendingCmds = []
    · refine ⟨[], [], false, by rw [← hcmds, hpending]; rfl, fun _ => rfl, ?_⟩
      simp [hpending]
      rw [← hpending]
    · obtain ⟨cmds, pendingCmds, panicked, happend, hunknown, hsend⟩ :=
        RaftNode.sendPendingCmdsToLeader_cases (fun k => up (k + 1)) r.node
      refine ⟨cmds, pendingCmds, panicked, happend.trans hcmds, ?_, ?_⟩
      · intro hne
        exact hunknown _ hleader (hnodes ▸ hne)
      · simp only [ne_eq, hpending, not_false_eq_true, if_true, hsend _ hleader]
        simp

theorem AppendEntry.execute_sent {self : AppendEntry n} (h : (dst, m) ∈ (self.execute up s).sent) :
    dst ∈ s.nodes ∧ SentBy s.id m := by
  obtain ⟨-, heq⟩ | ⟨-, cmds, pendingCmds, panicked, -, hunknown, heq⟩ := self.execute_cases up s
  · simp [heq] at h
  · rw [heq] at h
    rcases List.mem_append.mp h with h | h
    · obtain ⟨hdst, -, entry, success, -, rfl⟩ := AppendEntry.answer_sent h
      exact ⟨hdst, rfl⟩
    · obtain ⟨cmd, hcmd, heq⟩ := List.mem_map.mp h
      obtain ⟨rfl, rfl⟩ : self.nodeId = dst ∧ Message.command cmd = m := by simpa using heq
      refine ⟨?_, trivial⟩
      by_contra hne
      simp [hunknown hne] at hcmd

theorem AppendEntryResponse.sendEntry_sent {self : AppendEntryResponse n} {index : ℕ}
    (h : (dst, m) ∈ (self.sendEntry index up s).sent) :
    dst = self.nodeId ∧ dst ∈ s.nodes ∧ ∃ entry, s.newEntryData index = some entry ∧
      m = s.newAppendEntryMsg (some entry) := by
  unfold AppendEntryResponse.sendEntry at h
  dsimp only at h
  split_ifs at h with hnode hsend
  · obtain ⟨entry, hentry⟩ := Option.isSome_iff_exists.mp hsend.1
    obtain ⟨rfl, rfl⟩ : dst = self.nodeId ∧ m = _ := by simpa using h
    exact ⟨rfl, hnode, entry, hentry, by rw [hentry]⟩
  · simp at h
  · simp [Turn.panic] at h

theorem AppendEntryResponse.acknowledge_sent (self : AppendEntryResponse n) (s : RaftNode n) :
    (self.acknowledge s).sent = [] := by
  unfold AppendEntryResponse.acknowledge
  split_ifs
  · split
    · rfl
    · dsimp only
      split_ifs
      · exact RaftNode.applyLogs_sent _ _ _
      · rfl
  · rfl

/-- Counting a response changes the success sets, the log file, the book and the number of applied
entries. -/
theorem AppendEntryResponse.acknowledge_node (self : AppendEntryResponse n) (s : RaftNode n) :
    ∃ logEntrySuccess networkNode book committed, (self.acknowledge s).node =
      { s with logEntrySuccess, networkNode, book, committed } := by
  unfold AppendEntryResponse.acknowledge
  split_ifs
  · split
    · exact ⟨s.logEntrySuccess, s.networkNode, s.book, s.committed, rfl⟩
    · dsimp only
      split_ifs
      · obtain ⟨networkNode, book, committed, hnode⟩ := RaftNode.applyLogs_node s.committed
          (self.index + 1 - s.committed) { s with
            logEntrySuccess := s.logEntrySuccess.set self.index (insert self.nodeId _) }
        exact ⟨_, networkNode, book, committed, hnode⟩
      · exact ⟨_, s.networkNode, s.book, s.committed, rfl⟩
  · exact ⟨s.logEntrySuccess, s.networkNode, s.book, s.committed, rfl⟩

/-- Sending an entry changes the pending entries. -/
theorem AppendEntryResponse.sendEntry_node (self : AppendEntryResponse n) (index : ℕ)
    (up : ℕ → Fin n → Bool) (s : RaftNode n) :
    ∃ pendingEntry, (self.sendEntry index up s).node = { s with pendingEntry } := by
  unfold AppendEntryResponse.sendEntry
  dsimp only
  split_ifs
  · exact ⟨_, rfl⟩
  · exact ⟨_, rfl⟩
  · exact ⟨s.pendingEntry, rfl⟩

/-- A response changes what the sender of the entries keeps about them: the success sets, the
pending entries, the log file, the book and the number of applied entries. -/
theorem AppendEntryResponse.execute_node (self : AppendEntryResponse n) (up : ℕ → Fin n → Bool)
    (s : RaftNode n) : ∃ logEntrySuccess pendingEntry networkNode book committed,
      (self.execute up s).node =
        { s with logEntrySuccess, pendingEntry, networkNode, book, committed } := by
  unfold AppendEntryResponse.execute
  split_ifs
  · obtain ⟨logEntrySuccess, networkNode, book, committed, hack⟩ := self.acknowledge_node s
    unfold Turn.andThen
    split_ifs
    · exact ⟨logEntrySuccess, s.pendingEntry, networkNode, book, committed, hack⟩
    · obtain ⟨pendingEntry, hsend⟩ :=
        self.sendEntry_node (self.index + 1) up (self.acknowledge s).node
      refine ⟨logEntrySuccess, pendingEntry, networkNode, book, committed, ?_⟩
      rw [hack] at hsend
      simp only [hack, hsend]
  · split
    · exact ⟨s.logEntrySuccess, s.pendingEntry, s.networkNode, s.book, s.committed, rfl⟩
    next index _ =>
      obtain ⟨pendingEntry, hsend⟩ := self.sendEntry_node index up s
      exact ⟨s.logEntrySuccess, pendingEntry, s.networkNode, s.book, s.committed, hsend⟩
  · exact ⟨s.logEntrySuccess, s.pendingEntry, s.networkNode, s.book, s.committed, rfl⟩

theorem AppendEntryResponse.execute_sent {self : AppendEntryResponse n}
    (h : (dst, m) ∈ (self.execute up s).sent) :
    dst ∈ s.nodes ∧ ∃ msg, m = .appendEntry msg ∧ msg.nodeId = s.id := by
  unfold AppendEntryResponse.execute at h
  split_ifs at h
  · rcases Turn.mem_sent_andThen h with h | h
    · simp [AppendEntryResponse.acknowledge_sent] at h
    · obtain ⟨_, _, _, _, hnode⟩ := self.acknowledge_node s
      obtain ⟨-, hdst, entry, -, rfl⟩ := AppendEntryResponse.sendEntry_sent h
      rw [hnode] at hdst ⊢
      exact ⟨hdst, _, rfl, rfl⟩
  · split at h
    · simp [Turn.panic] at h
    · obtain ⟨-, hdst, entry, -, rfl⟩ := AppendEntryResponse.sendEntry_sent h
      exact ⟨hdst, _, rfl, rfl⟩
  · simp at h

/-- A request of a term that is not later is ignored. Otherwise the term is raised, and the vote
is granted when the log of the candidate is up to date and the vote can be sent. -/
theorem RequestVote.execute_cases (self : RequestVote n) (up : ℕ → Fin n → Bool) (s : RaftNode n) :
    self.term ≤ s.term ∧ self.execute up s = { node := s } ∨
    (s.term < self.term ∧
      ¬ (s.latestLogInfo ≤ self.latestLogInfo ∧ self.nodeId ∈ s.nodes ∧ up 0 self.nodeId = true) ∧
      ∃ panicked, self.execute up s =
        { node := { s with term := self.term }, events := [.raised s.id self.term], panicked }) ∨
    (s.term < self.term ∧ s.latestLogInfo ≤ self.latestLogInfo ∧ self.nodeId ∈ s.nodes ∧
      self.execute up s = {
        node := { s with term := self.term, role := .follower, leader := none }
        sent := [(self.nodeId, .vote ⟨self.term⟩)]
        events := [.granted s.id self.nodeId self.term] }) := by
  unfold RequestVote.execute
  dsimp only
  have hinfo : RaftNode.latestLogInfo { s with term := self.term } = s.latestLogInfo := rfl
  rw [hinfo]
  split_ifs with hterm hlog hnode hup
  · exact .inr (.inr ⟨hterm, hlog, hnode, rfl⟩)
  · exact .inr (.inl ⟨hterm, fun h => hup h.2.2, false, rfl⟩)
  · exact .inr (.inl ⟨hterm, fun h => hnode h.2.1, true, rfl⟩)
  · exact .inr (.inl ⟨hterm, fun h => hlog h.1, false, rfl⟩)
  · exact .inl ⟨not_lt.mp hterm, rfl⟩

theorem RequestVote.execute_sent {self : RequestVote n} (h : (dst, m) ∈ (self.execute up s).sent) :
    dst ∈ s.nodes ∧ dst = self.nodeId ∧ m = .vote ⟨self.term⟩ := by
  obtain ⟨-, heq⟩ | ⟨-, -, _, heq⟩ | ⟨-, -, hnode, heq⟩ := self.execute_cases up s
  · simp [heq] at h
  · simp [heq] at h
  · obtain ⟨rfl, rfl⟩ : dst = self.nodeId ∧ m = _ := by simpa [heq] using h
    exact ⟨hnode, rfl, rfl⟩

/-- A new leader, after it has turned its pending commands into entries. -/
def RaftNode.lead (s : RaftNode n) : RaftNode n :=
  { s with
    role := .leader
    leader := none
    pendingEntry := fun y => if y ∈ s.nodes then s.lastEntryData else s.pendingEntry y
    log := s.log ++ s.pendingCmds.map fun cmd => ⟨s.term, cmd⟩
    logEntrySuccess := s.logEntrySuccess ++ List.replicate s.pendingCmds.length {s.id}
    pendingCmds := [] }

theorem Vote.lead_eq (up : ℕ → Fin n → Bool) (s : RaftNode n) :
    Vote.lead up s = {
      node := s.lead
      sent := RaftNode.sendAll up s.nodes fun dst => s.lead.newAppendEntryMsg (s.lead.pendingEntry dst)
      events := .elected s.id s.term :: s.pendingCmds.zipIdx.map fun (cmd, i) =>
        .created s.id s.term (s.log.length + i) cmd } := by
  simp only [Vote.lead, Turn.andThen, RaftNode.drainPendingCmdsToLog, Bool.false_eq_true, if_false,
    List.nil_append, List.append_nil, List.singleton_append]
  rfl

/-- A vote is ignored, or counted, or counted and makes the candidate the leader. -/
theorem Vote.execute_cases (self : Vote) (up : ℕ → Fin n → Bool) (s : RaftNode n) :
    ¬ (s.role = .candidate ∧ s.term = self.term) ∧ self.execute up s = { node := s } ∨
    (s.role = .candidate ∧ s.term = self.term) ∧ s.votes + 1 ≤ (s.nodes.length + 1) / 2 ∧
      self.execute up s = { node := { s with votes := s.votes + 1 } } ∨
    (s.role = .candidate ∧ s.term = self.term) ∧ (s.nodes.length + 1) / 2 < s.votes + 1 ∧
      self.execute up s = {
        node := { s with votes := s.votes + 1 }.lead
        sent := RaftNode.sendAll up s.nodes fun dst =>
          { s with votes := s.votes + 1 }.lead.newAppendEntryMsg
            ({ s with votes := s.votes + 1 }.lead.pendingEntry dst)
        events := .elected s.id s.term :: s.pendingCmds.zipIdx.map fun (cmd, i) =>
          .created s.id s.term (s.log.length + i) cmd } := by
  unfold Vote.execute
  by_cases hcandidate : s.role = .candidate ∧ s.term = self.term
  · rw [if_pos hcandidate]
    rcases lt_or_ge ((s.nodes.length + 1) / 2) (s.votes + 1) with hvotes | hvotes
    · exact .inr (.inr ⟨hcandidate, hvotes, (if_pos hvotes).trans (Vote.lead_eq up _)⟩)
    · exact .inr (.inl ⟨hcandidate, hvotes, if_neg (not_lt.mpr hvotes)⟩)
  · exact .inl ⟨hcandidate, if_neg hcandidate⟩

theorem Vote.execute_sent {self : Vote} (h : (dst, m) ∈ (self.execute up s).sent) :
    dst ∈ s.nodes ∧ ∃ entry, m = .appendEntry ⟨s.id, s.term, s.committed, entry⟩ := by
  rcases self.execute_cases up s with ⟨-, heq⟩ | ⟨-, -, heq⟩ | ⟨-, -, heq⟩
  · simp [heq] at h
  · simp [heq] at h
  · rw [heq] at h
    dsimp only at h
    obtain ⟨hdst, rfl⟩ := RaftNode.mem_sendAll h
    exact ⟨hdst, _, rfl⟩

/-- A leader turns a command into an entry. Another node keeps it, and forwards some of the commands
that it has kept. -/
theorem Request.execute_cases (self : Request) (up : ℕ → Fin n → Bool) (s : RaftNode n) :
    (s.role = .leader ∧ self.execute up s = {
      node := { s.pushLogEntry ⟨s.term, self⟩ with
        pendingEntry := fun y => if y ∈ s.nodes ∧ s.pendingEntry y = none then
          (s.pushLogEntry ⟨s.term, self⟩).newEntryData s.log.length else s.pendingEntry y }
      sent := RaftNode.sendAll up (s.nodes.filter fun y => s.pendingEntry y = none) fun _ =>
        (s.pushLogEntry ⟨s.term, self⟩).newAppendEntryMsg
          ((s.pushLogEntry ⟨s.term, self⟩).newEntryData s.log.length)
      events := [.created s.id s.term s.log.length self] }) ∨
    (s.role ≠ .leader ∧ ∃ dst cmds pendingCmds panicked, cmds ++ pendingCmds = s.pendingCmds ++ [self] ∧
      (dst ∉ s.nodes → cmds = []) ∧ self.execute up s = {
        node := { s with pendingCmds }
        sent := cmds.map fun cmd => (dst, .command cmd)
        panicked }) := by
  by_cases hrole : s.role = .leader
  · exact .inl ⟨hrole, by simp only [Request.execute, if_pos hrole]; rfl⟩
  refine .inr ⟨hrole, ?_⟩
  rw [Request.execute, if_neg hrole]
  obtain hleader | ⟨leader, hleader⟩ := Option.eq_none_or_eq_some s.leader
  · exact ⟨s.id, [], s.pendingCmds ++ [self], false, rfl, fun _ => rfl, by simp [hleader]⟩
  · obtain ⟨cmds, pendingCmds, panicked, happend, hunknown, hsend⟩ :=
      RaftNode.sendPendingCmdsToLeader_cases up { s with pendingCmds := s.pendingCmds ++ [self] }
    refine ⟨leader, cmds, pendingCmds, panicked, happend, hunknown leader hleader, ?_⟩
    exact (if_pos (by simp [hleader])).trans (hsend leader hleader)

theorem Request.execute_sent {self : Request} (h : (dst, m) ∈ (self.execute up s).sent) :
    dst ∈ s.nodes ∧ ((∃ entry, m = .appendEntry ⟨s.id, s.term, s.committed, entry⟩) ∨
      ∃ cmd, m = .command cmd) := by
  obtain ⟨-, heq⟩ | ⟨-, leader, cmds, pendingCmds, panicked, -, hunknown, heq⟩ :=
    self.execute_cases up s
  · rw [heq] at h
    dsimp only at h
    obtain ⟨hdst, rfl⟩ := RaftNode.mem_sendAll h
    exact ⟨(List.mem_filter.mp hdst).1, .inl ⟨_, rfl⟩⟩
  · rw [heq] at h
    obtain ⟨cmd, hcmd, heq⟩ := List.mem_map.mp h
    obtain ⟨rfl, rfl⟩ : leader = dst ∧ Message.command cmd = m := by simpa using heq
    refine ⟨?_, .inr ⟨cmd, rfl⟩⟩
    by_contra hne
    simp [hunknown hne] at hcmd

/-- Every message that a handler sends goes to a node that is known, and names its sender. -/
theorem Message.execute_sent {msg : Message n} (h : (dst, m) ∈ (msg.execute up s).sent) :
    dst ∈ s.nodes ∧ SentBy s.id m := by
  cases msg with
  | accept msg => simp [Message.execute, Accept.execute] at h
  | command cmd =>
    obtain ⟨hdst, ⟨_, rfl⟩ | ⟨_, rfl⟩⟩ := Request.execute_sent h
    · exact ⟨hdst, rfl⟩
    · exact ⟨hdst, trivial⟩
  | appendEntry msg => exact AppendEntry.execute_sent h
  | appendEntryResponse msg =>
    obtain ⟨hdst, _, rfl, hid⟩ := AppendEntryResponse.execute_sent h
    exact ⟨hdst, hid⟩
  | requestVote msg =>
    obtain ⟨hdst, -, rfl⟩ := RequestVote.execute_sent h
    exact ⟨hdst, trivial⟩
  | vote msg =>
    obtain ⟨hdst, _, rfl⟩ := Vote.execute_sent h
    exact ⟨hdst, rfl⟩

/-- After a timeout a leader sends its heartbeats, and another node starts an election unless its
term overflows. -/
theorem RaftNode.timedOut_cases (up : ℕ → Fin n → Bool) (s : RaftNode n) :
    (s.role = .leader ∧ s.timedOut up = {
      node := s
      sent := RaftNode.sendAll up s.nodes fun dst => s.newAppendEntryMsg (s.pendingEntry dst) }) ∨
    (s.role ≠ .leader ∧ s.timedOut up = {
      node := { s with term := s.term + 1, leader := none, votes := 1, role := .candidate }
      sent := RaftNode.sendAll up s.nodes fun _ =>
        .requestVote ⟨s.id, s.term + 1, s.latestLogInfo⟩
      events := [.candidacy s.id (s.term + 1)] }) ∨
    (s.role ≠ .leader ∧ s.timedOut up = .panic s) := by
  unfold RaftNode.timedOut
  split_ifs with hrole hterm
  · exact .inl ⟨hrole, rfl⟩
  · exact .inr (.inl ⟨hrole, rfl⟩)
  · exact .inr (.inr ⟨hrole, rfl⟩)

/-- Every message that a node sends after a timeout goes to a node that is known, and names its
sender. -/
theorem RaftNode.timedOut_sent (h : (dst, m) ∈ (s.timedOut up).sent) :
    dst ∈ s.nodes ∧ SentBy s.id m := by
  obtain ⟨-, heq⟩ | ⟨-, heq⟩ | ⟨-, heq⟩ := s.timedOut_cases up
  · rw [heq] at h
    dsimp only at h
    obtain ⟨hdst, rfl⟩ := RaftNode.mem_sendAll h
    exact ⟨hdst, rfl⟩
  · rw [heq] at h
    dsimp only at h
    obtain ⟨hdst, rfl⟩ := RaftNode.mem_sendAll h
    exact ⟨hdst, rfl⟩
  · simp [heq, Turn.panic] at h

end Sent

/-! ## What a turn exhibits -/

section Events

variable {up : ℕ → Fin n → Bool} {s : RaftNode n} {e : Event n}

/-- Answering exhibits the entry that is taken over, or entries of the log. -/
theorem AppendEntry.answer_events {self : AppendEntry n} (h : e ∈ (self.answer up s).events) :
    (∃ entry, self.entry = some entry ∧ e = .accepted s.id self.nodeId self.term entry.index) ∨
      ∃ i entry, s.log[i]? = some entry ∧ e = .applied s.id i entry.entry := by
  unfold AppendEntry.answer at h
  split at h
  next entry hentry =>
    rcases self.respond_cases entry up s with
      ⟨-, heq⟩ | ⟨-, heq⟩ | ⟨-, -, heq⟩ | ⟨-, -, heq⟩
    · simp [heq, Turn.panic] at h
    · simp [heq] at h
    · simp [heq] at h
    · exact .inl ⟨entry, hentry, by simpa [heq] using h⟩
  · split_ifs at h
    · exact .inr (RaftNode.applyLogs_events h)
    · simp at h

theorem AppendEntryResponse.acknowledge_events {self : AppendEntryResponse n}
    (h : e ∈ (self.acknowledge s).events) :
    ∃ i entry, s.log[i]? = some entry ∧ e = .applied s.id i entry.entry := by
  unfold AppendEntryResponse.acknowledge at h
  split_ifs at h
  · split at h
    · simp [Turn.panic] at h
    · dsimp only at h
      split_ifs at h
      · simpa using RaftNode.applyLogs_events h
      · simp at h
  · simp at h

theorem AppendEntryResponse.sendEntry_events (self : AppendEntryResponse n) (index : ℕ)
    (up : ℕ → Fin n → Bool) (s : RaftNode n) : (self.sendEntry index up s).events = [] := by
  unfold AppendEntryResponse.sendEntry
  dsimp only
  split_ifs <;> rfl

/-- A response exhibits entries of the log. -/
theorem AppendEntryResponse.execute_events {self : AppendEntryResponse n}
    (h : e ∈ (self.execute up s).events) :
    ∃ i entry, s.log[i]? = some entry ∧ e = .applied s.id i entry.entry := by
  unfold AppendEntryResponse.execute at h
  split_ifs at h
  · rcases Turn.mem_events_andThen h with h | h
    · exact AppendEntryResponse.acknowledge_events h
    · simp [AppendEntryResponse.sendEntry_events] at h
  · split at h
    · simp [Turn.panic] at h
    · simp [AppendEntryResponse.sendEntry_events] at h
  · simp at h

end Events

/-! ## Senders and connections -/

section Identity

variable (up : ℕ → Fin n → Bool) (s : RaftNode n)

/-- No handler changes the identity of its node, and only a new connection changes the others. -/
theorem Message.execute_id (msg : Message n) :
    (msg.execute up s).node.id = s.id ∧
      ((∀ a, msg ≠ .accept a) → (msg.execute up s).node.nodes = s.nodes) := by
  have hid : ∀ t : Turn n, t.node.id = s.id → t.node.nodes = s.nodes →
      t.node.id = s.id ∧ ((∀ a, msg ≠ .accept a) → t.node.nodes = s.nodes) :=
    fun t hid hnodes => ⟨hid, fun _ => hnodes⟩
  cases msg with
  | accept msg => exact ⟨rfl, fun h => absurd rfl (h msg)⟩
  | command cmd =>
    obtain ⟨-, heq⟩ | ⟨-, _, _, _, _, -, -, heq⟩ := cmd.execute_cases up s <;>
      exact hid _ (congrArg (·.node.id) heq) (congrArg (·.node.nodes) heq)
  | appendEntry msg =>
    obtain ⟨-, heq⟩ | ⟨-, _, _, _, -, -, heq⟩ := msg.execute_cases up s
    · exact hid _ (congrArg (·.node.id) heq) (congrArg (·.node.nodes) heq)
    · obtain ⟨_, _, _, _, _, hnode⟩ := msg.answer_node up (msg.follow s)
      rw [hnode] at heq
      exact hid _ (congrArg (·.node.id) heq) (congrArg (·.node.nodes) heq)
  | appendEntryResponse msg =>
    obtain ⟨_, _, _, _, _, heq⟩ := msg.execute_node up s
    exact hid _ (congrArg (·.id) heq) (congrArg (·.nodes) heq)
  | requestVote msg =>
    obtain ⟨-, heq⟩ | ⟨-, -, _, heq⟩ | ⟨-, -, -, heq⟩ := msg.execute_cases up s <;>
      exact hid _ (congrArg (·.node.id) heq) (congrArg (·.node.nodes) heq)
  | vote msg =>
    obtain ⟨-, heq⟩ | ⟨-, -, heq⟩ | ⟨-, -, heq⟩ := msg.execute_cases up s <;>
      exact hid _ (congrArg (·.node.id) heq) (congrArg (·.node.nodes) heq)

theorem RaftNode.timedOut_id :
    (s.timedOut up).node.id = s.id ∧ (s.timedOut up).node.nodes = s.nodes := by
  obtain ⟨-, heq⟩ | ⟨-, heq⟩ | ⟨-, heq⟩ := s.timedOut_cases up <;> rw [heq] <;> exact ⟨rfl, rfl⟩

end Identity

/-- **Messages name their senders.** No node is connected to itself, and the messages that come from
outside are commands and connections. -/
structure Addressed (w : World n) : Prop where
  id : ∀ x, (w.node x).id = x
  known : ∀ x y, y ∈ (w.node x).nodes → y ≠ x
  client : ∀ x m, m ∈ w.inbox x none → (∃ cmd, m = .command cmd) ∨ ∃ y, y ≠ x ∧ m = .accept ⟨y⟩
  sender : ∀ x y m, m ∈ w.inbox x (some y) → y ≠ x ∧ SentBy y m

namespace Addressed

variable {w w' : World n} {x : Fin n} {a : Action n} {out : List (Event n)}

/-- A turn of a node that keeps its identity and sends messages of its own. -/
theorem afterTurn (h : Addressed w) {t : Turn n} (moves : List (Partitions n))
    (hid : t.node.id = (w.node x).id) (hknown : ∀ y, y ∈ t.node.nodes → y ≠ x)
    (hsent : ∀ dst m, (dst, m) ∈ t.sent → dst ∈ (w.node x).nodes ∧ SentBy (w.node x).id m) :
    Addressed (w.afterTurn x t moves) where
  id y := by
    by_cases hy : y = x
    · subst hy
      rw [World.afterTurn_node_self, hid, h.id]
    · rw [World.afterTurn_node_ne hy, h.id]
  known y z hz := by
    by_cases hy : y = x
    · subst hy
      rw [World.afterTurn_node_self] at hz
      exact hknown z hz
    · rw [World.afterTurn_node_ne hy] at hz
      exact h.known y z hz
  client y m hm := by
    rcases World.mem_inbox_afterTurn.mp hm with hm | ⟨hsrc, -⟩
    · exact h.client y m hm
    · simp at hsrc
  sender y z m hm := by
    rcases World.mem_inbox_afterTurn.mp hm with hm | ⟨hsrc, hmem⟩
    · exact h.sender y z m hm
    · obtain rfl := Option.some.inj hsrc
      obtain ⟨hdst, hby⟩ := hsent y m hmem
      rw [h.id] at hby
      exact ⟨(h.known _ _ hdst).symm, hby⟩

theorem dequeue (h : Addressed w) {src : Option (Fin n)} {msg : Message n}
    {rest : List (Message n)} (hinbox : w.inbox x src = msg :: rest) :
    Addressed (w.dequeue x src rest) where
  id := h.id
  known := h.known
  client y m hm := h.client y m (World.mem_inbox_dequeue hinbox hm)
  sender y z m hm := h.sender y z m (World.mem_inbox_dequeue hinbox hm)

/-- One step of the cluster keeps what messages say about their senders. -/
theorem step (h : Addressed w) (hstep : step w a = some (w', out)) : Addressed w' := by
  rcases step_cases hstep with ⟨x, command, -, -, -, rfl⟩ |
    ⟨x, src, moves, msg, rest, -, -, hinbox, -, rfl⟩ | ⟨x, moves, -, -, -, rfl⟩ |
    ⟨x, partition, -, -, rfl⟩
  · refine ⟨h.id, h.known, ?_, ?_⟩
    · intro y m hm
      rcases World.mem_inbox_submit.mp hm with hm | ⟨-, -, rfl⟩
      · exact h.client y m hm
      · exact .inl ⟨_, rfl⟩
    · intro y z m hm
      rw [World.inbox_submit_some] at hm
      exact h.sender y z m hm
  · have hmsg : msg ∈ w.inbox x src := hinbox ▸ List.mem_cons_self
    have hid := msg.execute_id (w.up x moves) (w.node x)
    refine (h.dequeue hinbox).afterTurn moves hid.1 ?_ fun dst m hm => Message.execute_sent hm
    intro y hy
    by_cases haccept : ∃ c, msg = .accept c
    · obtain ⟨⟨c⟩, rfl⟩ := haccept
      have hc : c ≠ x := by
        cases src with
        | none =>
          obtain ⟨_, hcmd⟩ | ⟨z, hz, heq⟩ := h.client x _ hmsg
          · cases hcmd
          · obtain rfl : c = z := by simpa using heq
            exact hz
        | some z => exact (h.sender x z _ hmsg).2.elim
      dsimp only [Message.execute, Accept.execute] at hy
      split_ifs at hy
      · exact h.known x y hy
      · rcases List.mem_append.mp hy with hy | hy
        · exact h.known x y hy
        · obtain rfl := List.mem_singleton.mp hy
          exact hc
    · rw [hid.2 fun c hc => haccept ⟨c, hc⟩] at hy
      exact h.known x y hy
  · have hid := RaftNode.timedOut_id (w.up x moves) (w.node x)
    refine h.afterTurn moves hid.1 ?_ fun dst m hm => RaftNode.timedOut_sent hm
    rw [hid.2]
    exact h.known x
  · exact ⟨h.id, h.known, h.client, h.sender⟩

end Addressed

/-- **The cluster stays fully connected.** A message names its sender, and the clients send
commands. -/
structure Connected (w : World n) : Prop where
  id : ∀ x, (w.node x).id = x
  nodes : ∀ x, (w.node x).nodes = (List.finRange n).filter fun y => y ≠ x
  client : ∀ x m, m ∈ w.inbox x none → ∃ cmd, m = .command cmd
  sender : ∀ x y m, m ∈ w.inbox x (some y) → y ≠ x ∧ SentBy y m

namespace Connected

variable {w w' : World n} {x : Fin n} {a : Action n} {out : List (Event n)}

theorem mem_nodes (h : Connected w) {y : Fin n} : y ∈ (w.node x).nodes ↔ y ≠ x := by
  simp [h.nodes]

theorem length_nodes (h : Connected w) : (w.node x).nodes.length + 1 = n := by
  have hfilter : (List.finRange n).filter (fun y => y ≠ x) = (List.finRange n).erase x := by
    rw [(List.nodup_finRange n).erase_eq_filter x]
    exact List.filter_congr fun y _ => Bool.eq_iff_iff.mpr (by simp)
  have hpos : 0 < n := x.pos
  rw [h.nodes, hfilter, List.length_erase_of_mem (List.mem_finRange x), List.length_finRange]
  omega

theorem addressed (h : Connected w) : Addressed w where
  id := h.id
  known _ _ hy := h.mem_nodes.mp hy
  client x m hm := .inl (h.client x m hm)
  sender := h.sender

theorem not_accept (h : Connected w) {src : Option (Fin n)} {m : Message n}
    (hm : m ∈ w.inbox x src) (a : Accept n) : m ≠ .accept a := by
  rintro rfl
  cases src with
  | none =>
    obtain ⟨cmd, hcmd⟩ := h.client x _ hm
    cases hcmd
  | some y => exact (h.sender x y _ hm).2

/-- A turn of a node that keeps its identity and sends messages of its own. -/
theorem afterTurn (h : Connected w) {t : Turn n} (moves : List (Partitions n))
    (hid : t.node.id = (w.node x).id) (hnodes : t.node.nodes = (w.node x).nodes)
    (hsent : ∀ dst m, (dst, m) ∈ t.sent → dst ∈ (w.node x).nodes ∧ SentBy (w.node x).id m) :
    Connected (w.afterTurn x t moves) where
  id y := by
    by_cases hy : y = x
    · subst hy
      rw [World.afterTurn_node_self, hid, h.id]
    · rw [World.afterTurn_node_ne hy, h.id]
  nodes y := by
    by_cases hy : y = x
    · subst hy
      rw [World.afterTurn_node_self, hnodes, h.nodes]
    · rw [World.afterTurn_node_ne hy, h.nodes]
  client y m hm := by
    rcases World.mem_inbox_afterTurn.mp hm with hm | ⟨hsrc, -⟩
    · exact h.client y m hm
    · simp at hsrc
  sender y z m hm := by
    rcases World.mem_inbox_afterTurn.mp hm with hm | ⟨hsrc, hmem⟩
    · exact h.sender y z m hm
    · obtain rfl := Option.some.inj hsrc
      obtain ⟨hdst, hby⟩ := hsent y m hmem
      rw [h.id] at hby
      exact ⟨(h.mem_nodes.mp hdst).symm, hby⟩

theorem dequeue (h : Connected w) {src : Option (Fin n)} {msg : Message n}
    {rest : List (Message n)} (hinbox : w.inbox x src = msg :: rest) :
    Connected (w.dequeue x src rest) where
  id := h.id
  nodes := h.nodes
  client y m hm := h.client y m (World.mem_inbox_dequeue hinbox hm)
  sender y z m hm := h.sender y z m (World.mem_inbox_dequeue hinbox hm)

/-- One step of the cluster keeps it connected. -/
theorem step (h : Connected w) (hstep : step w a = some (w', out)) : Connected w' := by
  rcases step_cases hstep with ⟨x, command, -, -, -, rfl⟩ |
    ⟨x, src, moves, msg, rest, -, -, hinbox, -, rfl⟩ | ⟨x, moves, -, -, -, rfl⟩ |
    ⟨x, partition, -, -, rfl⟩
  · refine ⟨h.id, h.nodes, ?_, ?_⟩
    · intro y m hm
      rcases World.mem_inbox_submit.mp hm with hm | ⟨-, -, rfl⟩
      · exact h.client y m hm
      · exact ⟨_, rfl⟩
    · intro y z m hm
      rcases World.mem_inbox_submit.mp hm with hm | ⟨-, hsrc, -⟩
      · exact h.sender y z m hm
      · simp at hsrc
  · have hmsg : msg ∈ w.inbox x src := hinbox ▸ List.mem_cons_self
    have hid := msg.execute_id (w.up x moves) (w.node x)
    exact (h.dequeue hinbox).afterTurn moves hid.1 (hid.2 fun a => h.not_accept hmsg a)
      fun dst m hm => Message.execute_sent hm
  · have hid := RaftNode.timedOut_id (w.up x moves) (w.node x)
    exact h.afterTurn moves hid.1 hid.2 fun dst m hm => RaftNode.timedOut_sent hm
  · exact ⟨h.id, h.nodes, h.client, h.sender⟩

theorem init : Connected (World.connected n) where
  id _ := rfl
  nodes _ := rfl
  client _ _ hm := by simp [World.connected] at hm
  sender _ _ _ hm := by simp [World.connected] at hm

end Connected

end Consensus
