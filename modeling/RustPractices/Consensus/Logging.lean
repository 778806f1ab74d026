import RustPractices.Consensus.Handlers

/-!
# What a turn does to the log

A turn keeps the log, or a leader extends it by entries of its own term, or the node takes over an
entry of an `AppendEntry`. What a node sends about its log is what it keeps: the entry of an
`AppendEntry` is the pending entry of the receiver, and a pending entry is one of the log.

## Main definitions

* `Logged`: what a turn does to the log

## Main results

* `Message.execute_logged`, `RaftNode.timedOut_logged`: the turns of a node, as far as the log is
  concerned
* `Message.execute_pendingEntry`: the pending entries after a turn
* `Message.execute_appendEntry`, `Message.execute_appendEntryResponse`: what a turn sends about the
  log
-/

namespace Consensus

variable {n : ℕ}

/-- What a turn of the node `s` does to its log, where `msg` is the message that it processes. -/
inductive Logged (s : RaftNode n) (t : Turn n) (msg : Option (Message n)) : Prop
  /-- The log is kept. -/
  | keep :
      t.node.log = s.log → t.node.logEntrySuccess.length = s.logEntrySuccess.length →
      (t.node.role = .leader → s.role = .leader) → Logged s t msg
  /-- A leader, which may just have been elected, turns commands into entries. -/
  | create (cmds : List Request) :
      t.node.role = .leader → t.node.term = s.term →
      s.role = .leader ∨ .elected s.id s.term ∈ t.events →
      t.node.log = s.log ++ cmds.map (fun cmd => ⟨s.term, cmd⟩) →
      t.node.logEntrySuccess.length = s.logEntrySuccess.length + cmds.length → Logged s t msg
  /-- An entry is taken over. -/
  | accept (a : AppendEntry n) (d : EntryData) :
      msg = some (.appendEntry a) → a.entry = some d → s.term ≤ a.term → t.node.role = .follower →
      t.node.term = a.term → d.prevTerm = s.prevEntryTerm d.index →
      t.node.log = s.log.take d.index ++ [⟨d.term, d.command⟩] →
      t.node.logEntrySuccess.length = min d.index s.logEntrySuccess.length + 1 → Logged s t msg

section Logged

variable (up : ℕ → Fin n → Bool) (s : RaftNode n)

/-- An `AppendEntry`, as far as the log is concerned. -/
theorem AppendEntry.execute_logged (msg : AppendEntry n) :
    Logged s (msg.execute up s) (some (.appendEntry msg)) := by
  obtain ⟨-, heq⟩ | ⟨hterm, cmds, pendingCmds, panicked, -, -, heq⟩ := msg.execute_cases up s
  · rw [heq]
    exact .keep rfl rfl id
  have hnode : (msg.execute up s).node =
      { (msg.answer up (msg.follow s)).node with pendingCmds } := congrArg (·.node) heq
  have hkeep : (∃ networkNode book committed, (msg.answer up (msg.follow s)).node =
      { msg.follow s with networkNode, book, committed }) →
      Logged s (msg.execute up s) (some (.appendEntry msg)) := by
    rintro ⟨networkNode, book, committed, hanswer⟩
    rw [hanswer] at hnode
    refine .keep (by rw [hnode]; rfl) (by rw [hnode]; rfl) ?_
    rw [hnode]
    exact nofun
  unfold AppendEntry.answer at hnode hkeep
  split at hnode
  next d hd =>
    simp only [hd] at hkeep
    rcases msg.respond_cases d up (msg.follow s) with
      ⟨-, heq⟩ | ⟨-, heq⟩ | ⟨-, -, heq⟩ | ⟨-, hprev, heq⟩ <;> rw [heq] at hnode hkeep
    · exact hkeep ⟨s.networkNode, s.book, s.committed, rfl⟩
    · exact hkeep ⟨s.networkNode, s.book, s.committed, rfl⟩
    · exact hkeep ⟨s.networkNode, s.book, s.committed, rfl⟩
    · refine .accept msg d rfl hd hterm ?_ ?_ hprev ?_ ?_ <;> rw [hnode]
      · rfl
      · rfl
      · rfl
      · simp [RaftNode.pushLogEntry, RaftNode.truncateLog, AppendEntry.follow]
  next hd =>
    simp only [hd] at hkeep
    split_ifs at hkeep
    · exact hkeep (RaftNode.applyLogs_node _ _ _)
    · exact hkeep ⟨s.networkNode, s.book, s.committed, rfl⟩

/-- Counting a response keeps the number of success sets. -/
theorem AppendEntryResponse.acknowledge_length (msg : AppendEntryResponse n) :
    (msg.acknowledge s).node.logEntrySuccess.length = s.logEntrySuccess.length := by
  unfold AppendEntryResponse.acknowledge
  split_ifs
  · split
    · rfl
    · dsimp only
      split_ifs
      · obtain ⟨_, _, _, hnode⟩ := RaftNode.applyLogs_node s.committed
          (msg.index + 1 - s.committed) { s with
            logEntrySuccess := s.logEntrySuccess.set msg.index (insert msg.nodeId _) }
        rw [hnode]
        exact List.length_set
      · exact List.length_set
  · rfl

theorem AppendEntryResponse.execute_length (msg : AppendEntryResponse n) :
    (msg.execute up s).node.logEntrySuccess.length = s.logEntrySuccess.length := by
  have hsend : ∀ index (s' : RaftNode n),
      (msg.sendEntry index up s').node.logEntrySuccess = s'.logEntrySuccess := by
    intro index s'
    obtain ⟨_, hnode⟩ := msg.sendEntry_node index up s'
    rw [hnode]
  unfold AppendEntryResponse.execute
  split_ifs
  · apply Turn.andThen_node
      (P := fun s' => s'.logEntrySuccess.length = s.logEntrySuccess.length)
    · exact msg.acknowledge_length s
    · intro h
      rw [hsend]
      exact h
  · split
    · rfl
    · rw [hsend]
  · rfl

/-- A message, as far as the log is concerned. -/
theorem Message.execute_logged (msg : Message n) : Logged s (msg.execute up s) (some msg) := by
  cases msg with
  | accept msg => exact .keep rfl rfl id
  | command cmd =>
    obtain ⟨hrole, heq⟩ | ⟨-, _, _, _, _, -, -, heq⟩ := cmd.execute_cases up s <;>
      rw [execute, heq]
    · refine .create [cmd] hrole rfl (.inl hrole) rfl ?_
      simp [RaftNode.pushLogEntry]
    · exact .keep rfl rfl id
  | appendEntry msg => exact msg.execute_logged up s
  | appendEntryResponse msg =>
    obtain ⟨_, _, _, _, _, hnode⟩ := msg.execute_node up s
    refine .keep (congrArg (·.log) hnode) (msg.execute_length up s) ?_
    intro hrole
    exact (congrArg (·.role) hnode).symm.trans hrole
  | requestVote msg =>
    obtain ⟨-, heq⟩ | ⟨-, -, _, heq⟩ | ⟨-, -, -, heq⟩ := msg.execute_cases up s <;>
      rw [execute, heq]
    · exact .keep rfl rfl id
    · exact .keep rfl rfl id
    · exact .keep rfl rfl fun hrole => by cases hrole
  | vote msg =>
    obtain ⟨-, heq⟩ | ⟨-, -, heq⟩ | ⟨-, -, heq⟩ := msg.execute_cases up s <;> rw [execute, heq]
    · exact .keep rfl rfl id
    · exact .keep rfl rfl id
    · refine .create s.pendingCmds rfl rfl (.inr List.mem_cons_self) rfl ?_
      simp [RaftNode.lead]

/-- A timeout, as far as the log is concerned. -/
theorem RaftNode.timedOut_logged : Logged s (s.timedOut up) none := by
  obtain ⟨-, heq⟩ | ⟨-, heq⟩ | ⟨-, heq⟩ := s.timedOut_cases up <;> rw [heq]
  · exact .keep rfl rfl fun hrole => hrole
  · exact .keep rfl rfl nofun
  · exact .keep rfl rfl fun hrole => hrole

end Logged

/-! ## The pending entries -/

section Pending

variable {up : ℕ → Fin n → Bool} {s s' : RaftNode n} {d : EntryData} {y : Fin n}

/-- The data of an entry of the log. -/
theorem RaftNode.newEntryData_eq_some {i : ℕ} : s.newEntryData i = some d ↔
    d.index = i ∧ s.log[i]? = some ⟨d.term, d.command⟩ ∧ d.prevTerm = s.prevEntryTerm i := by
  unfold newEntryData
  rw [Option.map_eq_some_iff]
  constructor
  · rintro ⟨e, he, rfl⟩
    exact ⟨rfl, he, rfl⟩
  · rintro ⟨rfl, he, hprev⟩
    exact ⟨_, he, by rw [← hprev]⟩

/-- A longer log has the same data. -/
theorem RaftNode.newEntryData_append {i : ℕ} {es : List LogEntry} (h : s.newEntryData i = some d)
    (hlog : s'.log = s.log ++ es) : s'.newEntryData i = some d := by
  obtain ⟨hindex, he, hprev⟩ := newEntryData_eq_some.mp h
  obtain ⟨hlt, -⟩ := List.getElem?_eq_some_iff.mp he
  refine newEntryData_eq_some.mpr ⟨hindex, ?_, ?_⟩
  · rw [hlog, List.getElem?_append_left hlt, he]
  · rw [hprev]
    cases i with
    | zero => rfl
    | succ i =>
      simp only [prevEntryTerm, hlog, List.getElem?_append_left (show i < s.log.length by omega)]

/-- The last entry is one of the log. -/
theorem RaftNode.exists_of_lastEntryData (h : s.lastEntryData = some d) :
    ∃ i, s.newEntryData i = some d := by
  unfold lastEntryData at h
  split at h
  · cases h
  · exact ⟨_, h⟩

/-- A pending entry after a turn has been pending before, and not only for the predecessor of a new
leader, or it is an entry of the log. -/
def Turn.Pending (s : RaftNode n) (t : Turn n) : Prop :=
  ∀ y d, t.node.pendingEntry y = some d →
    s.pendingEntry y = some d ∧ (t.node.role = .leader → y ∈ s.nodes → s.role = .leader) ∨
      ∃ i, t.node.newEntryData i = some d

/-- The entry that a response asks for becomes the pending entry of a known sender. -/
theorem AppendEntryResponse.sendEntry_pendingEntry (msg : AppendEntryResponse n) (index : ℕ)
    (up : ℕ → Fin n → Bool) (s : RaftNode n) :
    (msg.sendEntry index up s).node.pendingEntry = if msg.nodeId ∈ s.nodes then
      Function.update s.pendingEntry msg.nodeId (s.newEntryData index) else s.pendingEntry := by
  unfold AppendEntryResponse.sendEntry
  by_cases hnode : msg.nodeId ∈ s.nodes
  · simp only [if_pos hnode]
  · simp only [if_neg hnode]
    rfl

/-- The pending entries after a response. -/
theorem AppendEntryResponse.execute_pending (msg : AppendEntryResponse n)
    (up : ℕ → Fin n → Bool) (s : RaftNode n) (y : Fin n) (d : EntryData)
    (h : (msg.execute up s).node.pendingEntry y = some d) :
    s.pendingEntry y = some d ∨ ∃ i, s.newEntryData i = some d := by
  have hsend : ∀ index (s' : RaftNode n), s'.log = s.log → s'.pendingEntry = s.pendingEntry →
      (msg.sendEntry index up s').node.pendingEntry y = some d →
      s.pendingEntry y = some d ∨ ∃ i, s.newEntryData i = some d := by
    intro index s' hlog hpending h
    have hdata : s'.newEntryData index = some d → ∃ i, s.newEntryData i = some d := by
      intro hdata
      exact ⟨index, RaftNode.newEntryData_append hdata (by rw [hlog, List.append_nil])⟩
    rw [msg.sendEntry_pendingEntry, hpending] at h
    split_ifs at h
    · by_cases hy : y = msg.nodeId
      · subst hy
        rw [Function.update_self] at h
        exact .inr (hdata h)
      · rw [Function.update_of_ne hy] at h
        exact .inl h
    · exact .inl h
  obtain ⟨_, _, _, _, hack⟩ := msg.acknowledge_node s
  unfold AppendEntryResponse.execute at h
  split_ifs at h
  · unfold Turn.andThen at h
    split_ifs at h
    · rw [hack] at h
      exact .inl h
    · exact hsend _ _ (by rw [hack]) (by rw [hack]) h
  · split at h
    · exact .inl h
    · exact hsend _ s rfl rfl h
  · exact .inl h

/-- The pending entries after a message. -/
theorem Message.execute_pending (up : ℕ → Fin n → Bool) (s : RaftNode n) (msg : Message n) :
    (msg.execute up s).Pending s := by
  intro y d h
  cases msg with
  | accept msg =>
    dsimp only [execute, Accept.execute] at h
    by_cases hy : y = msg.address
    · subst hy
      simp at h
    · rw [Function.update_of_ne hy] at h
      exact .inl ⟨h, fun hleader _ => hleader⟩
  | command cmd =>
    obtain ⟨hrole, heq⟩ | ⟨-, _, _, _, _, -, -, heq⟩ := cmd.execute_cases up s
    · simp only [execute, heq] at h ⊢
      split_ifs at h
      · exact .inr ⟨_, h⟩
      · exact .inl ⟨h, fun hleader _ => hleader⟩
    · simp only [execute, heq] at h ⊢
      exact .inl ⟨h, fun hleader _ => hleader⟩
  | appendEntry msg =>
    obtain ⟨-, heq⟩ | ⟨-, cmds, pendingCmds, panicked, -, -, heq⟩ := msg.execute_cases up s
    · simp only [execute, heq] at h ⊢
      exact .inl ⟨h, fun hleader _ => hleader⟩
    · obtain ⟨_, _, _, _, _, hanswer⟩ := msg.answer_node up (msg.follow s)
      simp only [execute, heq, hanswer] at h ⊢
      exact .inl ⟨h, fun hleader => by cases hleader⟩
  | appendEntryResponse msg =>
    obtain ⟨_, _, _, _, _, hnode⟩ := msg.execute_node up s
    rcases msg.execute_pending up s y d h with h | ⟨i, h⟩
    · exact .inl ⟨h, fun hleader _ => (congrArg (·.role) hnode).symm.trans hleader⟩
    · have hlog : (msg.execute up s).node.log = s.log ++ [] := by rw [hnode, List.append_nil]
      exact .inr ⟨i, RaftNode.newEntryData_append h hlog⟩
  | requestVote msg =>
    obtain ⟨-, heq⟩ | ⟨-, -, _, heq⟩ | ⟨-, -, -, heq⟩ := msg.execute_cases up s <;>
      simp only [execute, heq] at h ⊢
    · exact .inl ⟨h, fun hleader _ => hleader⟩
    · exact .inl ⟨h, fun hleader _ => hleader⟩
    · exact .inl ⟨h, fun hleader => by cases hleader⟩
  | vote msg =>
    obtain ⟨-, heq⟩ | ⟨-, -, heq⟩ | ⟨-, -, heq⟩ := msg.execute_cases up s <;>
      simp only [execute, heq] at h ⊢
    · exact .inl ⟨h, fun hleader _ => hleader⟩
    · exact .inl ⟨h, fun hleader _ => hleader⟩
    · dsimp only [RaftNode.lead] at h
      split_ifs at h with hy
      · obtain ⟨i, hi⟩ := RaftNode.exists_of_lastEntryData h
        exact .inr ⟨i, RaftNode.newEntryData_append hi rfl⟩
      · exact .inl ⟨h, fun _ hmem => absurd hmem hy⟩

theorem RaftNode.timedOut_pending (up : ℕ → Fin n → Bool) (s : RaftNode n) :
    (s.timedOut up).Pending s := by
  intro y d h
  obtain ⟨hrole, heq⟩ | ⟨-, heq⟩ | ⟨-, heq⟩ := s.timedOut_cases up <;> rw [heq] at h ⊢
  · exact .inl ⟨h, fun _ _ => hrole⟩
  · exact .inl ⟨h, nofun⟩
  · exact .inl ⟨h, fun hrole _ => hrole⟩

end Pending

/-! ## What is sent about the log -/

section Sent

variable {up : ℕ → Fin n → Bool} {s : RaftNode n} {dst : Fin n} {a : AppendEntry n}
  {r : AppendEntryResponse n}

/-- Each `AppendEntry` that a message sends carries the pending entry of its receiver. It is sent by
a leader, or in answer to a response of the term of the node. -/
theorem Message.execute_appendEntry {msg : Message n}
    (h : (dst, .appendEntry a) ∈ (msg.execute up s).sent) :
    .appendEntry a = (msg.execute up s).node.newAppendEntryMsg
        ((msg.execute up s).node.pendingEntry dst) ∧
      ((msg.execute up s).node.role = .leader ∨
        ∃ r, msg = .appendEntryResponse r ∧ r.term = s.term) := by
  cases msg with
  | accept msg => simp [execute, Accept.execute] at h
  | command cmd =>
    obtain ⟨hrole, heq⟩ | ⟨-, _, _, _, _, -, -, heq⟩ := cmd.execute_cases up s <;>
      simp only [execute, heq] at h ⊢
    · obtain ⟨hdst, hmsg⟩ := RaftNode.mem_sendAll h
      obtain ⟨hdst, hnone⟩ := List.mem_filter.mp hdst
      refine ⟨hmsg.trans ?_, .inl hrole⟩
      rw [if_pos ⟨hdst, of_decide_eq_true hnone⟩]
      rfl
    · obtain ⟨_, -, hcmd⟩ := List.mem_map.mp h
      simp at hcmd
  | appendEntry msg =>
    obtain ⟨-, heq⟩ | ⟨-, _, _, _, -, -, heq⟩ := msg.execute_cases up s <;>
      simp only [execute, heq] at h
    · simp at h
    · rcases List.mem_append.mp h with h | h
      · obtain ⟨-, -, _, _, -, hresponse⟩ := AppendEntry.answer_sent h
        cases hresponse
      · obtain ⟨_, -, hcmd⟩ := List.mem_map.mp h
        simp at hcmd
  | appendEntryResponse msg =>
    have hsend : ∀ index (s' : RaftNode n),
        (dst, .appendEntry a) ∈ (msg.sendEntry index up s').sent →
        .appendEntry a = (msg.sendEntry index up s').node.newAppendEntryMsg
          ((msg.sendEntry index up s').node.pendingEntry dst) := by
      intro index s' h
      obtain ⟨rfl, hmem, entry, hentry, hmsg⟩ := AppendEntryResponse.sendEntry_sent h
      obtain ⟨_, hnode⟩ := msg.sendEntry_node index up s'
      rw [msg.sendEntry_pendingEntry, if_pos hmem, Function.update_self, hentry, hnode]
      exact hmsg
    simp only [execute] at h ⊢
    unfold AppendEntryResponse.execute at h ⊢
    split_ifs at h ⊢ with hterm
    · unfold Turn.andThen at h ⊢
      split_ifs at h ⊢
      · simp [AppendEntryResponse.acknowledge_sent] at h
      · rw [AppendEntryResponse.acknowledge_sent, List.nil_append] at h
        exact ⟨hsend _ _ h, .inr ⟨msg, rfl, hterm.symm⟩⟩
    · split at h
      · simp [Turn.panic] at h
      next index hindex =>
        exact ⟨hsend _ _ h, .inr ⟨msg, rfl, hterm.symm⟩⟩
    · simp at h
  | requestVote msg =>
    obtain ⟨-, -, hvote⟩ := RequestVote.execute_sent h
    cases hvote
  | vote msg =>
    obtain ⟨-, heq⟩ | ⟨-, -, heq⟩ | ⟨-, -, heq⟩ := msg.execute_cases up s <;>
      simp only [execute, heq] at h ⊢
    · simp at h
    · simp at h
    · obtain ⟨-, hmsg⟩ := RaftNode.mem_sendAll h
      exact ⟨hmsg, .inl rfl⟩

/-- The heartbeats of a leader carry the pending entries. -/
theorem RaftNode.timedOut_appendEntry (h : (dst, .appendEntry a) ∈ (s.timedOut up).sent) :
    .appendEntry a = (s.timedOut up).node.newAppendEntryMsg
        ((s.timedOut up).node.pendingEntry dst) ∧ (s.timedOut up).node.role = .leader := by
  obtain ⟨hrole, heq⟩ | ⟨-, heq⟩ | ⟨-, heq⟩ := s.timedOut_cases up <;> simp only [heq] at h ⊢
  · exact ⟨(mem_sendAll h).2, hrole⟩
  · cases (mem_sendAll h).2
  · simp [Turn.panic] at h

/-- Each response answers the entry of an `AppendEntry` whose term is not earlier than that of the
node: the entry is taken over, or the entry before it has another term. -/
theorem Message.execute_appendEntryResponse {msg : Message n}
    (h : (dst, .appendEntryResponse r) ∈ (msg.execute up s).sent) :
    ∃ a d, msg = .appendEntry a ∧ a.entry = some d ∧ s.term ≤ a.term ∧ dst = a.nodeId ∧
      r.nodeId = s.id ∧ r.term = a.term ∧ r.index = d.index ∧
      (r.success = false → d.prevTerm ≠ s.prevEntryTerm d.index) ∧
      (r.success = true → d.prevTerm = s.prevEntryTerm d.index ∧ (msg.execute up s).node.log =
        s.log.take d.index ++ [⟨d.term, d.command⟩]) := by
  cases msg with
  | accept msg => simp [execute, Accept.execute] at h
  | command cmd =>
    obtain ⟨-, ⟨_, hm⟩ | ⟨_, hm⟩⟩ := Request.execute_sent h <;> cases hm
  | appendEntry msg =>
    obtain ⟨-, heq⟩ | ⟨hterm, _, _, _, -, -, heq⟩ := msg.execute_cases up s <;>
      simp only [execute, heq] at h
    · simp at h
    -- the response comes before the commands that are forwarded
    rcases List.mem_append.mp h with h | h
    · simp only [execute, heq]
      unfold AppendEntry.answer at h ⊢
      split at h
      next d hd =>
        rcases msg.respond_cases d up (msg.follow s) with
          ⟨-, heq⟩ | ⟨-, heq⟩ | ⟨-, hprev, heq⟩ | ⟨-, hprev, heq⟩ <;> rw [heq] at h
        · simp [Turn.panic] at h
        · simp at h
        · obtain ⟨rfl, rfl⟩ : dst = msg.nodeId ∧ r = _ := by simpa using h
          exact ⟨msg, d, rfl, hd, hterm, rfl, rfl, rfl, rfl, fun _ => hprev,
            fun hsuccess => by cases hsuccess⟩
        · obtain ⟨rfl, rfl⟩ : dst = msg.nodeId ∧ r = _ := by simpa using h
          exact ⟨msg, d, rfl, hd, hterm, rfl, rfl, rfl, rfl,
            (fun hsuccess => by cases hsuccess), fun _ => ⟨hprev, by rw [heq]; rfl⟩⟩
      · split_ifs at h
        · simp [RaftNode.applyLogs_sent] at h
        · simp at h
    · obtain ⟨_, -, hcmd⟩ := List.mem_map.mp h
      simp at hcmd
  | appendEntryResponse msg =>
    obtain ⟨-, _, hm, -⟩ := AppendEntryResponse.execute_sent h
    cases hm
  | requestVote msg =>
    obtain ⟨-, -, hm⟩ := RequestVote.execute_sent h
    cases hm
  | vote msg =>
    obtain ⟨-, _, hm⟩ := Vote.execute_sent h
    cases hm

theorem RaftNode.not_timedOut_appendEntryResponse :
    (dst, .appendEntryResponse r) ∉ (s.timedOut up).sent := by
  intro h
  obtain ⟨-, heq⟩ | ⟨-, heq⟩ | ⟨-, heq⟩ := s.timedOut_cases up <;> simp only [heq] at h
  · cases (mem_sendAll h).2
  · cases (mem_sendAll h).2
  · simp [Turn.panic] at h

end Sent

end Consensus
