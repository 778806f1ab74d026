import RustPractices.Consensus.Applying
import RustPractices.Consensus.Completeness
import RustPractices.Consensus.Ledger

/-!
# Commits

A response lets a leader apply its log up to an index when more than half of the nodes are in the
success set of this index. The success sets survive a change of leadership, and an entry that is in the
logs of a majority can still be lost. When the entry is of the leader's own term, the members of the
success set have stored it in this term, and then it is in the log of every later leader.

## Main definitions

* `Commits`, `Turn.CommitsTo`: what a turn applies
* `Consistent`: the invariants of the logs, together
* `Honest`: the responses and the success sets say what has been stored
* `World.CommitsOwn`: steps in which no response makes a majority for an entry of an earlier term

## Main results

* `leader_complete`: a chosen entry is in the log of every later leader
* `commit_majority`: what a response commits is in the logs of more than half of the nodes
-/

open Transition Replication

namespace Consensus

variable {n : ℕ}

/-! ## What a turn commits -/

/-- The message lets the node `s` apply its log up to the index `bound`: the leader has applied its own
log so far, or the response makes a majority. -/
inductive Commits (s : RaftNode n) : Option (Message n) → ℕ → Prop
  | heartbeat {a : AppendEntry n} {bound : ℕ} :
      a.entry = none → s.term ≤ a.term → bound ≤ a.committed → bound ≤ s.log.length →
      Commits s (some (.appendEntry a)) bound
  | majority {r : AppendEntryResponse n} {success : Finset (Fin n)} :
      s.term = r.term → r.success = true → s.committed ≤ r.index →
      s.logEntrySuccess[r.index]? = some success →
      (s.nodes.length + 1) / 2 < (insert r.nodeId success).card →
      Commits s (some (.appendEntryResponse r)) (r.index + 1)

/-- The commands of the entries that the node `x` has applied. -/
def appliedCommands (x : Fin n) (tr : List (Event n)) : List Command :=
  (appliedBy x tr).map fun a => a.2.command

@[simp] theorem appliedCommands_append (x : Fin n) (tr out : List (Event n)) :
    appliedCommands x (tr ++ out) = appliedCommands x tr ++ appliedCommands x out := by
  simp [appliedCommands]

/-- The turn of the node `s` applies nothing but entries of its log before `bound`, and executes them on
its book. -/
structure Turn.CommitsTo (s : RaftNode n) (t : Turn n) (bound : ℕ) : Prop where
  applied : ∀ x i cmd, .applied x i cmd ∈ t.events →
    x = s.id ∧ i < bound ∧ ∃ e, s.log[i]? = some e ∧ e.entry = cmd
  committed : t.node.committed ≤ max s.committed bound
  book : t.panicked = false →
    s.book.executeAll checkedAdd (appliedCommands s.id t.events) = some t.node.book

/-- The commands of two lists, one after the other. -/
theorem Book.executeAll_bind (add : UInt64 → UInt64 → Option UInt64) (cmds' : List Command) :
    ∀ (cmds : List Command) (book : Book), book.executeAll add (cmds ++ cmds') =
      (book.executeAll add cmds).bind fun book' => book'.executeAll add cmds'
  | [], _ => rfl
  | cmd :: cmds, book => by
    simp only [List.cons_append, executeAll]
    cases book.execute add cmd with
    | none => rfl
    | some book' => exact executeAll_bind add cmds' cmds book'

section Commits

variable {s : RaftNode n} {t : Turn n}

/-- Applying an entry executes its command on the book. -/
theorem RaftNode.applyLog_book (s : RaftNode n) (index : ℕ)
    (h : (s.applyLog index).panicked = false) :
    s.book.executeAll checkedAdd (appliedCommands s.id (s.applyLog index).events) =
      some (s.applyLog index).node.book := by
  unfold applyLog at h ⊢
  cases hentry : s.log[index]? with
  | none => simp [hentry, Turn.panic] at h
  | some entry =>
    cases hnet : s.networkNode.append entry.entry with
    | none => simp [hentry, hnet, Turn.panic] at h
    | some net =>
      cases hbook : s.book.execute checkedAdd entry.entry.command with
      | none => simp [hentry, hnet, hbook] at h
      | some book =>
        simp [appliedCommands, appliedBy, Event.application, Book.executeAll, hnet, hbook]

theorem RaftNode.applyLogs_book (index count : ℕ) (s : RaftNode n)
    (h : (applyLogs index count s).panicked = false) :
    s.book.executeAll checkedAdd (appliedCommands s.id (applyLogs index count s).events) =
      some (applyLogs index count s).node.book := by
  induction count generalizing index s with
  | zero => rfl
  | succ count ih =>
    have hfirst := applyLog_book s index
    obtain ⟨networkNode, book, happly⟩ := applyLog_node s index
    rw [applyLogs] at h ⊢
    cases hpanicked : (s.applyLog index).panicked with
    | true =>
      rw [Turn.andThen_of_panicked hpanicked, hpanicked] at h
      cases h
    | false =>
      have hrest := ih (index + 1) { (s.applyLog index).node with
        committed := (s.applyLog index).node.committed + 1 }
      rw [Turn.andThen_of_not_panicked hpanicked] at h ⊢
      have hid : (s.applyLog index).node.id = s.id := by rw [happly]
      rw [appliedCommands_append, Book.executeAll_bind, hfirst hpanicked]
      exact hid ▸ hrest h

theorem RaftNode.applyLogs_commitsTo (index count : ℕ) (s : RaftNode n) :
    (∀ x i cmd, .applied x i cmd ∈ (applyLogs index count s).events →
      x = s.id ∧ i < index + count ∧ ∃ e, s.log[i]? = some e ∧ e.entry = cmd) ∧
    (applyLogs index count s).node.committed ≤ s.committed + count := by
  induction count generalizing index s with
  | zero => simp [applyLogs]
  | succ count ih =>
    obtain ⟨networkNode, book, happly⟩ := applyLog_node s index
    have hrest := ih (index + 1) { (s.applyLog index).node with
      committed := (s.applyLog index).node.committed + 1 }
    rw [happly] at hrest
    constructor
    · intro x i cmd h
      rcases Turn.mem_events_andThen h with h | h
      · obtain ⟨e, he, heq⟩ := applyLog_events h
        obtain ⟨rfl, rfl, rfl⟩ := Event.applied.inj heq
        exact ⟨rfl, by omega, e, he, rfl⟩
      · rw [happly] at h
        obtain ⟨hx, hlt, he⟩ := hrest.1 x i cmd h
        exact ⟨hx, by omega, he⟩
    · rw [applyLogs]
      apply Turn.andThen_node (P := fun s' => s'.committed ≤ s.committed + (count + 1))
      · rw [happly]
        exact Nat.le_add_right _ _
      · intro _
        rw [happly]
        have := hrest.2
        dsimp only at this ⊢
        omega

/-- Applying the log from the first entry that has not been applied up to `bound`. -/
theorem RaftNode.applyLogs_bound (s : RaftNode n) (bound : ℕ) :
    (applyLogs s.committed (bound - s.committed) s).CommitsTo s bound := by
  obtain ⟨happlied, hcommitted⟩ := s.applyLogs_commitsTo s.committed (bound - s.committed)
  rcases le_total bound s.committed with hle | hle
  · rw [Nat.sub_eq_zero_of_le hle, applyLogs]
    exact ⟨by simp, le_max_left _ _, fun _ => rfl⟩
  · rw [Nat.add_sub_cancel' hle] at happlied hcommitted
    exact ⟨happlied, hcommitted.trans (le_max_right _ _), s.applyLogs_book _ _⟩

/-- A turn that applies nothing. -/
theorem Turn.CommitsTo.of_quiet (hevents : ∀ x i cmd, .applied x i cmd ∉ t.events)
    (hcommitted : t.node.committed = s.committed) (hbook : t.node.book = s.book) :
    t.CommitsTo s 0 where
  applied x i cmd h := absurd h (hevents x i cmd)
  committed := hcommitted.le.trans (le_max_left _ _)
  book _ := by
    have hnil : appliedBy s.id t.events = [] := by
      apply List.eq_nil_iff_forall_not_mem.mpr
      rintro ⟨i, cmd⟩ hmem
      exact hevents _ i cmd (mem_appliedBy.mp hmem)
    rw [appliedCommands, hnil, hbook]
    rfl

theorem AppendEntryResponse.acknowledge_commits (self : AppendEntryResponse n) (s : RaftNode n)
    (hterm : s.term = self.term) (hsuccess : self.success = true) :
    ∃ bound, (bound = 0 ∨ Commits s (some (.appendEntryResponse self)) bound) ∧
      (self.acknowledge s).CommitsTo s bound := by
  unfold acknowledge
  split_ifs with hcommitted
  · split
    · exact ⟨0, .inl rfl, .of_quiet (by simp [Turn.panic]) rfl rfl⟩
    next success hget =>
      dsimp only
      split_ifs with hmajority
      · have hbound := RaftNode.applyLogs_bound { s with
          logEntrySuccess := s.logEntrySuccess.set self.index (insert self.nodeId success) }
          (self.index + 1)
        exact ⟨_, .inr (.majority hterm hsuccess hcommitted hget hmajority),
          hbound.applied, hbound.committed, hbound.book⟩
      · exact ⟨0, .inl rfl, .of_quiet (by simp) rfl rfl⟩
  · exact ⟨0, .inl rfl, .of_quiet (by simp) rfl rfl⟩

/-- A response lets its receiver apply what it completes a majority for. -/
theorem AppendEntryResponse.execute_commits (self : AppendEntryResponse n)
    (up : ℕ → Fin n → Bool) (s : RaftNode n) :
    ∃ bound, (bound = 0 ∨ Commits s (some (.appendEntryResponse self)) bound) ∧
      (self.execute up s).CommitsTo s bound := by
  have hsend : ∀ index (s' : RaftNode n),
      (self.sendEntry index up s').node.committed = s'.committed ∧
        (self.sendEntry index up s').node.book = s'.book := by
    intro index s'
    obtain ⟨_, hnode⟩ := self.sendEntry_node index up s'
    rw [hnode]
    exact ⟨rfl, rfl⟩
  unfold execute
  split_ifs with hterm hsuccess
  · obtain ⟨bound, hcommits, hbound⟩ := self.acknowledge_commits s hterm hsuccess
    refine ⟨bound, hcommits, fun x i cmd h => ?_, ?_, fun hpanicked => ?_⟩
    · rcases Turn.mem_events_andThen h with h | h
      · exact hbound.applied x i cmd h
      · simp [sendEntry_events] at h
    · apply Turn.andThen_node (P := fun s' => s'.committed ≤ max s.committed bound)
      · exact hbound.committed
      · intro h
        rwa [(hsend _ _).1]
    · cases hfirst : (self.acknowledge s).panicked with
      | true =>
        rw [Turn.andThen_of_panicked hfirst, hfirst] at hpanicked
        cases hpanicked
      | false =>
        rw [Turn.andThen_of_not_panicked hfirst]
        dsimp only
        rw [sendEntry_events, List.append_nil, (hsend _ _).2]
        exact hbound.book hfirst
  · split
    · exact ⟨0, .inl rfl, .of_quiet (by simp [Turn.panic]) rfl rfl⟩
    · exact ⟨0, .inl rfl, .of_quiet (by simp [sendEntry_events]) (hsend _ s).1 (hsend _ s).2⟩
  · exact ⟨0, .inl rfl, .of_quiet (by simp) rfl rfl⟩

/-- What a message lets a node apply. -/
theorem Message.execute_commits (up : ℕ → Fin n → Bool) (s : RaftNode n) (msg : Message n) :
    ∃ bound, (bound = 0 ∨ Commits s (some msg) bound) ∧ (msg.execute up s).CommitsTo s bound := by
  cases msg with
  | accept msg => exact ⟨0, .inl rfl, .of_quiet (by simp [execute, Accept.execute]) rfl rfl⟩
  | command cmd =>
    obtain ⟨-, heq⟩ | ⟨-, _, _, _, _, -, -, heq⟩ := cmd.execute_cases up s <;>
      exact ⟨0, .inl rfl, .of_quiet (by simp [execute, heq]) (congrArg (·.node.committed) heq)
        (congrArg (·.node.book) heq)⟩
  | appendEntry msg =>
    obtain ⟨-, heq⟩ | ⟨hterm, cmds, pendingCmds, panicked, -, -, heq⟩ := msg.execute_cases up s
    · exact ⟨0, .inl rfl, .of_quiet (by simp [execute, heq]) (congrArg (·.node.committed) heq)
        (congrArg (·.node.book) heq)⟩
    have hevents : ∀ x i cmd, .applied x i cmd ∈ (msg.execute up s).events →
        .applied x i cmd ∈ (msg.answer up (msg.follow s)).events := by
      intro x i cmd h
      rw [heq] at h
      simpa using h
    have hnode : (msg.execute up s).node.committed =
        (msg.answer up (msg.follow s)).node.committed := congrArg (·.node.committed) heq
    have hlift : ∀ bound, (msg.answer up (msg.follow s)).CommitsTo (msg.follow s) bound →
        (msg.execute up s).CommitsTo s bound := by
      intro bound hbound
      refine ⟨fun x i cmd h => hbound.applied x i cmd (hevents x i cmd h),
        hnode.le.trans hbound.committed, fun hpanicked => ?_⟩
      rw [heq] at hpanicked ⊢
      exact hbound.book (Bool.or_eq_false_iff.mp hpanicked).1
    cases hd : msg.entry with
    | some d =>
      refine ⟨0, .inl rfl, hlift 0 ?_⟩
      rw [AppendEntry.answer, hd]
      rcases msg.respond_cases d up (msg.follow s) with
        ⟨-, heq⟩ | ⟨-, heq⟩ | ⟨-, -, heq⟩ | ⟨-, -, heq⟩ <;> simp only [heq] <;>
        exact .of_quiet (by simp [Turn.panic]) rfl rfl
    | none =>
      refine ⟨min msg.committed s.log.length,
        .inr (.heartbeat hd hterm (min_le_left _ _) (min_le_right _ _)), hlift _ ?_⟩
      rw [AppendEntry.answer, hd]
      dsimp only
      split_ifs
      · exact (msg.follow s).applyLogs_bound _
      · exact ⟨by simp, le_max_left _ _, fun _ => rfl⟩
  | appendEntryResponse msg => exact msg.execute_commits up s
  | requestVote msg =>
    obtain ⟨-, heq⟩ | ⟨-, -, _, heq⟩ | ⟨-, -, -, heq⟩ := msg.execute_cases up s <;>
      exact ⟨0, .inl rfl, .of_quiet (by simp [execute, heq]) (congrArg (·.node.committed) heq)
        (congrArg (·.node.book) heq)⟩
  | vote msg =>
    obtain ⟨-, heq⟩ | ⟨-, -, heq⟩ | ⟨-, -, heq⟩ := msg.execute_cases up s <;>
      exact ⟨0, .inl rfl, .of_quiet (by simp [execute, heq]) (congrArg (·.node.committed) heq)
        (congrArg (·.node.book) heq)⟩

theorem RaftNode.timedOut_commits (up : ℕ → Fin n → Bool) (s : RaftNode n) :
    (s.timedOut up).CommitsTo s 0 := by
  obtain ⟨-, heq⟩ | ⟨-, heq⟩ | ⟨-, heq⟩ := s.timedOut_cases up <;> rw [heq] <;>
    exact .of_quiet (by simp [Turn.panic]) rfl rfl

end Commits

/-! ## The success sets -/

section Success

/-- Counting a response adds its sender to the success set of its index. -/
theorem AppendEntryResponse.acknowledge_success (self : AppendEntryResponse n) (s : RaftNode n) :
    (self.acknowledge s).node.logEntrySuccess = s.logEntrySuccess ∨
    ∃ success, s.logEntrySuccess[self.index]? = some success ∧
      (self.acknowledge s).node.logEntrySuccess =
        s.logEntrySuccess.set self.index (insert self.nodeId success) := by
  unfold acknowledge
  split_ifs
  · split
    · exact .inl rfl
    next success hget =>
      right
      refine ⟨success, hget, ?_⟩
      dsimp only
      split_ifs
      · obtain ⟨_, _, _, hnode⟩ := RaftNode.applyLogs_node s.committed
          (self.index + 1 - s.committed) { s with
            logEntrySuccess := s.logEntrySuccess.set self.index (insert self.nodeId success) }
        rw [hnode]
      · rfl
  · exact .inl rfl

theorem AppendEntryResponse.execute_success (self : AppendEntryResponse n)
    (up : ℕ → Fin n → Bool) (s : RaftNode n) :
    (self.execute up s).node.logEntrySuccess = s.logEntrySuccess ∨
    ∃ success, s.term = self.term ∧ self.success = true ∧
      s.logEntrySuccess[self.index]? = some success ∧
      (self.execute up s).node.logEntrySuccess =
        s.logEntrySuccess.set self.index (insert self.nodeId success) := by
  have hsend : ∀ index (s' : RaftNode n),
      (self.sendEntry index up s').node.logEntrySuccess = s'.logEntrySuccess := by
    intro index s'
    obtain ⟨_, hnode⟩ := self.sendEntry_node index up s'
    rw [hnode]
  unfold execute
  split_ifs with hterm hsuccess
  · have hack : ((self.acknowledge s).andThen (self.sendEntry (self.index + 1) up)).node.logEntrySuccess =
        (self.acknowledge s).node.logEntrySuccess :=
      Turn.andThen_node (P := fun s' => s'.logEntrySuccess = _) rfl fun h => (hsend _ _).trans h
    rw [hack]
    exact (self.acknowledge_success s).imp_right
      fun ⟨success, hget, heq⟩ => ⟨success, hterm, hsuccess, hget, heq⟩
  · split
    · exact .inl rfl
    · exact .inl (hsend _ s)
  · exact .inl rfl

/-- The success sets of a leader after a message: it has added those of new entries, or it has counted a
response. -/
theorem Message.execute_success (up : ℕ → Fin n → Bool) (s : RaftNode n) (msg : Message n)
    (hrole : (msg.execute up s).node.role = .leader) :
    (∃ k, (msg.execute up s).node.logEntrySuccess =
      s.logEntrySuccess ++ List.replicate k {s.id}) ∨
    ∃ r success, msg = .appendEntryResponse r ∧ s.term = r.term ∧ r.success = true ∧
      s.logEntrySuccess[r.index]? = some success ∧ (msg.execute up s).node.logEntrySuccess =
        s.logEntrySuccess.set r.index (insert r.nodeId success) := by
  have hkeep : ∀ l : List (Finset (Fin n)), l = s.logEntrySuccess →
      ∃ k, l = s.logEntrySuccess ++ List.replicate k {s.id} := fun l hl => ⟨0, by simp [hl]⟩
  cases msg with
  | accept msg => exact .inl (hkeep _ rfl)
  | command cmd =>
    obtain ⟨-, heq⟩ | ⟨-, _, _, _, _, -, -, heq⟩ := cmd.execute_cases up s <;> rw [execute, heq]
    · exact .inl ⟨1, rfl⟩
    · exact .inl (hkeep _ rfl)
  | appendEntry msg =>
    obtain ⟨-, heq⟩ | ⟨-, _, _, _, -, -, heq⟩ := msg.execute_cases up s
    · rw [execute, heq]
      exact .inl (hkeep _ rfl)
    · obtain ⟨_, _, _, _, _, hanswer⟩ := msg.answer_node up (msg.follow s)
      simp only [execute, heq, hanswer] at hrole
      cases hrole
  | appendEntryResponse msg =>
    rcases msg.execute_success up s with heq | ⟨success, hrest⟩
    · exact .inl (hkeep _ heq)
    · exact .inr ⟨msg, success, rfl, hrest⟩
  | requestVote msg =>
    obtain ⟨-, heq⟩ | ⟨-, -, _, heq⟩ | ⟨-, -, -, heq⟩ := msg.execute_cases up s <;>
      rw [execute, heq] <;> exact .inl (hkeep _ rfl)
  | vote msg =>
    obtain ⟨-, heq⟩ | ⟨-, -, heq⟩ | ⟨-, -, heq⟩ := msg.execute_cases up s <;> rw [execute, heq]
    · exact .inl (hkeep _ rfl)
    · exact .inl (hkeep _ rfl)
    · exact .inl ⟨s.pendingCmds.length, rfl⟩

end Success

/-! ## Consistent clusters -/

/-- **The invariants of the logs** of a run with steady steps. -/
structure Consistent (hist : ℕ → List LogEntry) (tr : List (Event n)) (w : World n) : Prop where
  matching : Matching hist tr w
  genuine : Genuine hist w
  lined : Lined hist tr w
  complete : Complete hist tr w

theorem Consistent.init : Consistent (fun _ => []) [] (World.connected n) :=
  ⟨.init, .init, .init, .init⟩

/-- One steady step of the cluster keeps the invariants, with longer histories. -/
theorem Consistent.step {hist : ℕ → List LogEntry} {tr out : List (Event n)} {w w' : World n}
    {a : Action n} (h : Consistent hist tr w) (hsteady : w.Steady a)
    (hstep : step w a = some (w', out)) :
    ∃ hist', Grown hist hist' w' ∧ Consistent hist' (tr ++ out) w' := by
  obtain ⟨hist', hgrown, hm'⟩ := h.matching.step hsteady hstep
  exact ⟨hist', hgrown, hm', h.genuine.step h.matching hsteady hstep hm' hgrown,
    h.lined.step h.matching h.genuine hsteady hstep hm' hgrown,
    h.complete.step h.matching h.genuine h.lined hsteady hstep hm' hgrown⟩

/-! ## Counted responses -/

/-- **The responses are honest**: those in flight come from nodes that have taken the entries over, and
the success sets of the entries of a leader's own term hold nodes that have stored them. An entry that
has been created is in the history of its term. -/
structure Honest (hist : ℕ → List LogEntry) (tr : List (Event n)) (w : World n) : Prop where
  created : ∀ c T i cmd, .created c T i cmd ∈ tr → (hist T)[i]? = some ⟨T, cmd⟩
  response : ∀ x y r, .appendEntryResponse r ∈ w.inbox x (some y) → r.success = true →
    .accepted y x r.term r.index ∈ tr
  success : ∀ x i success e, (w.node x).role = .leader →
    (w.node x).logEntrySuccess[i]? = some success → (w.node x).log[i]? = some e →
    e.term = (w.node x).term → ∀ v ∈ success, stored tr v (w.node x).term i

/-- What has been stored stays stored. -/
theorem stored_append {tr : List (Event n)} (out : List (Event n)) {v : Fin n} {T i : ℕ}
    (h : stored tr v T i) : stored (tr ++ out) v T i := by
  rcases h with ⟨c, h⟩ | h
  · exact .inl ⟨c, List.mem_append_left _ h⟩
  · exact .inr (List.mem_append_left _ h)

/-- The success sets of a leader after a turn. -/
theorem World.Acts.success_cases {w w' : World n} {x : Fin n} {t : Turn n}
    {msg : Option (Message n)} (hact : w.Acts x msg t w') (hconnected : Connected w)
    (hrole : t.node.role = .leader) :
    (∃ k, t.node.logEntrySuccess = (w.node x).logEntrySuccess ++ List.replicate k {x}) ∨
    ∃ r success, .appendEntryResponse r ∈ w.inbox x (some r.nodeId) ∧ (w.node x).term = r.term ∧
      r.success = true ∧ (w.node x).logEntrySuccess[r.index]? = some success ∧
      t.node.logEntrySuccess = (w.node x).logEntrySuccess.set r.index (insert r.nodeId success) := by
  cases hact with
  | @deliver src _ m _ _ hinbox =>
    rcases m.execute_success _ _ hrole with ⟨k, heq⟩ | ⟨r, success, rfl, hrest⟩
    · exact .inl ⟨k, by rw [heq, hconnected.id]⟩
    · refine .inr ⟨r, success, ?_, hrest⟩
      have hmem : .appendEntryResponse r ∈ w.inbox x src := hinbox ▸ List.mem_cons_self
      cases src with
      | none =>
        obtain ⟨cmd, hcmd⟩ := hconnected.client x _ hmem
        cases hcmd
      | some y =>
        obtain rfl : r.nodeId = y := (hconnected.sender x y _ hmem).2
        exact hmem
  | timeout moves =>
    obtain ⟨-, heq⟩ | ⟨-, heq⟩ | ⟨-, heq⟩ := (w.node x).timedOut_cases (w.up x moves) <;>
      rw [heq] <;> exact .inl ⟨0, by simp [Turn.panic]⟩

/-- A turn creates entries at the end of the log of a leader. -/
theorem Message.execute_created {up : ℕ → Fin n → Bool} {s : RaftNode n} {msg : Message n}
    {c : Fin n} {T i : ℕ} {cmd : Request} (h : .created c T i cmd ∈ (msg.execute up s).events) :
    (msg.execute up s).node.role = .leader ∧ (msg.execute up s).node.term = T ∧
      (msg.execute up s).node.log[i]? = some ⟨T, cmd⟩ := by
  cases msg with
  | accept msg => simp [execute, Accept.execute] at h
  | command cmd' =>
    obtain ⟨hrole, heq⟩ | ⟨-, _, _, _, _, -, -, heq⟩ := cmd'.execute_cases up s <;>
      rw [execute, heq] at h ⊢
    · obtain ⟨-, rfl, rfl, rfl⟩ := Event.created.inj (List.mem_singleton.mp h)
      exact ⟨hrole, rfl, by simp [RaftNode.pushLogEntry]⟩
    · simp at h
  | appendEntry msg =>
    obtain ⟨-, heq⟩ | ⟨-, _, _, _, -, -, heq⟩ := msg.execute_cases up s <;> rw [execute, heq] at h
    · simp at h
    · rcases List.mem_cons.mp h with h | h
      · cases h
      · obtain ⟨_, -, h⟩ | ⟨_, _, -, h⟩ := AppendEntry.answer_events h <;> cases h
  | appendEntryResponse msg =>
    obtain ⟨_, _, -, h⟩ := AppendEntryResponse.execute_events h
    cases h
  | requestVote msg =>
    obtain ⟨-, heq⟩ | ⟨-, -, _, heq⟩ | ⟨-, -, -, heq⟩ := msg.execute_cases up s <;>
      simp [execute, heq] at h
  | vote msg =>
    obtain ⟨-, heq⟩ | ⟨-, -, heq⟩ | ⟨-, -, heq⟩ := msg.execute_cases up s <;>
      rw [execute, heq] at h ⊢
    · simp at h
    · simp at h
    · rcases List.mem_cons.mp h with h | h
      · cases h
      obtain ⟨⟨cmd', k⟩, hk, heq⟩ := List.mem_map.mp h
      obtain ⟨-, rfl, rfl, rfl⟩ := Event.created.inj heq
      refine ⟨rfl, rfl, ?_⟩
      have hget := List.mk_mem_zipIdx_iff_getElem?.mp hk
      rw [RaftNode.lead, List.getElem?_append_right (Nat.le_add_right _ _), Nat.add_sub_cancel_left,
        List.getElem?_map, hget]
      rfl

/-- An entry that is created in a turn is one of a leader. -/
theorem World.Acts.created {w w' : World n} {x c : Fin n} {t : Turn n} {msg : Option (Message n)}
    {T i : ℕ} {cmd : Request} (hact : w.Acts x msg t w') (h : .created c T i cmd ∈ t.events) :
    t.node.role = .leader ∧ t.node.term = T ∧ t.node.log[i]? = some ⟨T, cmd⟩ := by
  cases hact with
  | deliver _ _ => exact Message.execute_created h
  | timeout moves =>
    obtain ⟨-, heq⟩ | ⟨-, heq⟩ | ⟨-, heq⟩ := (w.node x).timedOut_cases (w.up x moves) <;>
      simp [heq, Turn.panic] at h

namespace Honest

variable {hist hist' : ℕ → List LogEntry} {tr out : List (Event n)} {w w' : World n} {x : Fin n}
  {t : Turn n} {msg : Option (Message n)}

theorem init : Honest (fun _ => []) [] (World.connected n) where
  created _ _ _ _ h := by simp at h
  response _ _ _ h := by simp [World.connected] at h
  success _ _ _ _ h := by simp [World.connected, RaftNode.new] at h

/-- A successful response is sent by a node that takes the entry over. -/
theorem response_turn (h : Honest hist tr w) (hm : Matching hist tr w) (hact : w.Acts x msg t w')
    {y z : Fin n} {r : AppendEntryResponse n} (hr : .appendEntryResponse r ∈ w'.inbox z (some y))
    (hsuccess : r.success = true) : .accepted y z r.term r.index ∈ tr ++ t.events := by
  rcases hact.mem_inbox hr with hold | ⟨hy, hnew⟩
  · exact List.mem_append_left _ (h.response z y r hold hsuccess)
  · obtain rfl := Option.some.inj hy
    obtain ⟨a, d, ha, hd, hle, rfl, hterm, hindex⟩ := hact.responded hnew
    cases (hact.answered ha hd hle).2 with
    | unsent _ hnone _ => exact absurd hnew (hnone _ _)
    | refused _ _ hresponse _ =>
      rw [hresponse _ r hnew] at hsuccess
      cases hsuccess
    | taken _ _ _ haccepted =>
      refine List.mem_append_right _ ((haccepted _ _ _ _).mpr ⟨?_, rfl, hterm, hindex⟩)
      exact (hm.connected.id y).symm

/-- The success sets of a leader count what has been stored. -/
theorem success_turn (h : Honest hist tr w) (hm : Matching hist tr w) (hact : w.Acts x msg t w')
    (hm' : Matching hist' (tr ++ t.events) w') {y : Fin n} {i : ℕ} {success : Finset (Fin n)}
    {e : LogEntry} (hrole : (w'.node y).role = .leader)
    (hget : (w'.node y).logEntrySuccess[i]? = some success) (he : (w'.node y).log[i]? = some e)
    (hterm : e.term = (w'.node y).term) :
    ∀ v ∈ success, stored (tr ++ t.events) v (w'.node y).term i := by
  intro v hv
  by_cases hy : y = x
  · subst hy
    have ht := hact.replicates hm
    have hself := hm'.leader y hrole
    rw [hact.node_self] at hrole hget he hterm hself ⊢
    have hbefore : ∀ before, (w.node y).logEntrySuccess[i]? = some before →
        t.node.term = (w.node y).term ∧
          ∀ v ∈ before, stored (tr ++ t.events) v (w.node y).term i := by
      intro before hget'
      obtain ⟨hlt, -⟩ := List.getElem?_eq_some_iff.mp hget'
      rw [hm.histories.success] at hlt
      obtain ⟨cmds, hextend⟩ := ht.log_of_leader hrole
      have he' : (w.node y).log[i]? = some e := by
        rwa [hextend, List.getElem?_append_left hlt] at he
      rcases ht.stays hrole with ⟨hrole', hterm'⟩ | helected
      · refine ⟨hterm', fun v hv => stored_append _ ?_⟩
        exact h.success y i before e hrole' hget' he' (hterm.trans hterm') v hv
      · have hnil := hm.histories.unelected _ (hm'.election.not_elected_before helected)
        exact absurd hterm ((hm.histories.log y).term_ne hnil he')
    rcases hact.success_cases hm.connected hrole with ⟨k, hextend⟩ |
      ⟨r, before, hr, hterm', hsuccess, hget', hset⟩
    · rw [hextend, List.getElem?_append] at hget
      split_ifs at hget
      · obtain ⟨hsame, hstored⟩ := hbefore success hget
        rw [hsame]
        exact hstored v hv
      · obtain rfl := List.eq_of_mem_replicate (List.mem_of_getElem? hget)
        obtain rfl := Finset.mem_singleton.mp hv
        exact .inr hself
    · rw [hset, List.getElem?_set] at hget
      split_ifs at hget with hi hlt
      · subst hi
        obtain ⟨hsame, hstored⟩ := hbefore before hget'
        obtain rfl := Option.some.inj hget
        rw [hsame]
        rcases Finset.mem_insert.mp hv with rfl | hv
        · rw [hterm']
          exact .inl ⟨y, List.mem_append_left _ (h.response y _ r hr hsuccess)⟩
        · exact hstored v hv
      · obtain ⟨hsame, hstored⟩ := hbefore success hget
        rw [hsame]
        exact hstored v hv
  · rw [hact.node_ne hy] at hrole hget he hterm ⊢
    exact stored_append _ (h.success y i success e hrole hget he hterm v hv)

/-- One steady step of the cluster. -/
theorem step (h : Honest hist tr w) (hm : Matching hist tr w) {a : Action n} (hsteady : w.Steady a)
    (hstep : step w a = some (w', out)) (hm' : Matching hist' (tr ++ out) w')
    (hgrown : Grown hist hist' w') : Honest hist' (tr ++ out) w' := by
  have hold : ∀ c T i cmd, .created c T i cmd ∈ tr → (hist' T)[i]? = some ⟨T, cmd⟩ := by
    intro c T i cmd hmem
    have hget := h.created c T i cmd hmem
    obtain ⟨hlt, -⟩ := List.getElem?_eq_some_iff.mp hget
    obtain ⟨rest, hrest⟩ := hgrown.le T
    rw [← hrest, List.getElem?_append_left hlt, hget]
  rcases steady_cases hsteady hstep with ⟨rfl, hnode, hinbox⟩ | ⟨x, msg, t, hact, rfl, -⟩
  · rw [List.append_nil]
    exact ⟨hold, fun z y r hr => h.response z y r (hinbox z y ▸ hr), hnode ▸ h.success⟩
  · refine ⟨fun c T i cmd hmem => ?_, fun _ _ _ hr => h.response_turn hm hact hr,
      fun _ _ _ _ hrole hget he hterm => h.success_turn hm hact hm' hrole hget he hterm⟩
    rcases List.mem_append.mp hmem with hmem | hmem
    · exact hold c T i cmd hmem
    · obtain ⟨hrole, rfl, hget⟩ := hact.created hmem
      have hlog := hm'.histories.leader x (by rwa [hact.node_self])
      rw [hact.node_self] at hlog
      rw [hlog, hget]

end Honest

/-! ## Commits -/

/-- The message is a response that makes a majority for an entry of an earlier term. -/
def Message.CommitsEarlier (s : RaftNode n) : Message n → Prop
  | .appendEntryResponse r => s.term = r.term ∧ r.success = true ∧ s.committed ≤ r.index ∧
      (∃ success ∈ s.logEntrySuccess[r.index]?,
        (s.nodes.length + 1) / 2 < (insert r.nodeId success).card) ∧
      ∃ e ∈ s.log[r.index]?, e.term ≠ s.term
  | _ => False

instance (s : RaftNode n) : (msg : Message n) → Decidable (msg.CommitsEarlier s)
  | .appendEntryResponse _ => inferInstanceAs (Decidable (_ ∧ _))
  | .accept _ | .appendEntry _ | .command _ | .requestVote _ | .vote _ => .isFalse id

/-- The step is steady, and no response makes a majority for an entry of an earlier term. -/
def World.CommitsOwn (w : World n) (a : Action n) : Prop :=
  w.Steady a ∧ match a with
    | .deliver x src _ => ∀ msg ∈ (w.inbox x src).head?, ¬ msg.CommitsEarlier (w.node x)
    | _ => True

instance (w : World n) : (a : Action n) → Decidable (w.CommitsOwn a)
  | .deliver .. => inferInstanceAs (Decidable (_ ∧ _))
  | .submit .. | .timeout .. | .setPartition .. => inferInstanceAs (Decidable (_ ∧ True))

/-- A response that makes a majority for an entry of the leader's own term makes it chosen. -/
theorem Consistent.chosen {hist : ℕ → List LogEntry} {tr : List (Event n)} {w : World n}
    (h : Consistent hist tr w) (hhonest : Honest hist tr w) {x : Fin n} {src : Option (Fin n)}
    {r : AppendEntryResponse n} {bound : ℕ} (hr : .appendEntryResponse r ∈ w.inbox x src)
    (hcommits : Commits (w.node x) (some (.appendEntryResponse r)) bound)
    (hown : ¬ (Message.appendEntryResponse r).CommitsEarlier (w.node x)) :
    bound = r.index + 1 ∧ hist (w.node x).term = (w.node x).log ∧
      Chosen LogEntry.term hist (stored tr) (w.node x).term r.index := by
  cases hcommits with
  | @majority _ success hterm hsuccess hcommitted hget hmajority =>
    obtain ⟨hrole, hlt, -⟩ := h.matching.response hr hterm
    have hlog := h.matching.histories.leader x hrole
    have he := List.getElem?_eq_getElem hlt
    generalize (w.node x).log[r.index] = e at he
    have hown' : e.term = (w.node x).term := by
      by_contra hne
      exact hown ⟨hterm, hsuccess, hcommitted, ⟨success, hget, hmajority⟩, e, he, hne⟩
    refine ⟨rfl, hlog, ⟨e, by rw [hlog, he], hown'⟩, insert r.nodeId success, ?_, ?_⟩
    · rw [h.matching.connected.length_nodes] at hmajority
      rw [Fintype.card_fin]
      omega
    · intro v hv
      rcases Finset.mem_insert.mp hv with rfl | hv
      · cases src with
        | none =>
          obtain ⟨cmd, hcmd⟩ := h.matching.connected.client x _ hr
          cases hcmd
        | some y =>
          obtain rfl : r.nodeId = y := (h.matching.connected.sender x y _ hr).2
          rw [hterm]
          exact .inl ⟨x, hhonest.response x _ r hr hsuccess⟩
      · exact hhonest.success x r.index success e hrole hget he hown' v hv

/-- The invariants hold along every run with steady steps. -/
theorem Consistent.of_run {tr : List (Event n)} {w : World n} {ok : World n → Action n → Prop}
    (hok : ∀ w a, ok w a → w.Steady a) (h : (cluster (World.connected n)).Run ok tr w) :
    ∃ hist, Consistent hist tr w ∧ Honest hist tr w := by
  refine Machine.Run.invariant (P := fun tr w => ∃ hist, Consistent hist tr w ∧ Honest hist tr w) ?_ ?_ h
  · exact ⟨_, .init, .init⟩
  · rintro tr w a w' out ⟨hist, hconsistent, hhonest⟩ hguard hstep
    obtain ⟨hist', hgrown, hconsistent'⟩ := hconsistent.step (hok w a hguard) hstep
    exact ⟨hist', hconsistent',
      hhonest.step hconsistent.matching (hok w a hguard) hstep hconsistent'.matching hgrown⟩

/-- **An entry that more than half of the nodes have stored in its own term** is in the log of the leader
of this term and of every later leader, in a run with steady steps. -/
theorem leader_complete {tr : List (Event n)} {w : World n}
    (h : (cluster (World.connected n)).Run World.Steady tr w) {c : Fin n} {T i : ℕ} {cmd : Request}
    (hcreated : .created c T i cmd ∈ tr) (hstored : Majority fun v : Fin n => stored tr v T i)
    {x : Fin n} (hrole : (w.node x).role = .leader) (hle : T ≤ (w.node x).term) :
    (w.node x).log[i]? = some ⟨T, cmd⟩ := by
  obtain ⟨hist, hconsistent, hhonest⟩ := Consistent.of_run (fun _ _ => id) h
  have hm := hconsistent.matching
  have hget := hhonest.created c T i cmd hcreated
  have hchosen : Chosen LogEntry.term hist (stored tr) T i := ⟨⟨_, hget, rfl⟩, hstored⟩
  have hlog := hm.histories.leader x hrole
  have hentry : HasTerm LogEntry.term (w.node x).log i T := by
    rcases hle.lt_or_eq with hlt | rfl
    · rw [← hlog]
      exact hconsistent.complete.leader hchosen hlt ⟨x, hm.leader x hrole⟩
    · rw [← hlog]
      exact hchosen.entry
  have htake := (hm.histories.log x).take_of_hasTerm hentry
  have hi := Nat.lt_succ_self i
  rw [← List.getElem?_take_of_lt hi, htake, List.getElem?_take_of_lt hi, hget]

/-- An entry of the first leader is taken over by the second one, before its election. -/
theorem leader_complete_two :
    ∃ tr w, (cluster (World.connected 3)).Run World.Steady tr w ∧
      .created 0 1 0 ⟨0, .openAccount "a"⟩ ∈ tr ∧ (Majority fun v : Fin 3 => stored tr v 1 0) ∧
      (w.node 1).role = .leader ∧ 1 ≤ (w.node 1).term ∧
      (w.node 1).log[0]? = some ⟨1, 0, .openAccount "a"⟩ := by
  have hexec : (((cluster (World.connected 3)).guard World.Steady).exec (electionOfZero ++
      ([.submit 0 (.openAccount "a"), .deliver 0 none [], .deliver 1 (some 0) [],
        .deliver 1 (some 0) [], .timeout 1 [], .deliver 0 (some 1) [], .deliver 0 (some 1) [],
        .deliver 1 (some 0) []] : List (Action 3)))).map
        (fun r => ((r.1.node 1).role, (r.1.node 1).term, decide
          (.created 0 1 0 ⟨0, .openAccount "a"⟩ ∈ r.2 ∧ .elected 0 1 ∈ r.2 ∧
            .accepted 1 0 1 0 ∈ r.2))) = some (.leader, 2, true) := by
    decide +kernel
  obtain ⟨⟨w, tr⟩, hexec, hend⟩ := Option.map_eq_some_iff.mp hexec
  obtain ⟨hrole, hterm, hevents⟩ := by simpa only [Prod.mk.injEq] using hend
  obtain ⟨hcreated, helected, haccepted⟩ := of_decide_eq_true hevents
  have hrun := Machine.Run.of_guard (Machine.run_exec hexec)
  have hstored : Majority fun v : Fin 3 => stored tr v 1 0 := by
    refine ⟨{0, 1}, by decide, fun v hv => ?_⟩
    rcases Finset.mem_insert.mp hv with rfl | hv
    · exact .inr helected
    · obtain rfl := Finset.mem_singleton.mp hv
      exact .inl ⟨0, haccepted⟩
  have hle : 1 ≤ (w.node 1).term := by omega
  exact ⟨tr, w, hrun, hcreated, hstored, hrole, hle,
    leader_complete hrun hcreated hstored hrole hle⟩

/-- **What a response commits is in the logs of more than half of the nodes**, in a run with steady
steps, when it makes a majority for an entry of the leader's own term. -/
theorem commit_majority {tr out : List (Event n)} {w w' : World n}
    (h : (cluster (World.connected n)).Run World.Steady tr w) {x : Fin n} {src : Option (Fin n)}
    {moves : List (Partitions n)} {r : AppendEntryResponse n} {rest : List (Message n)}
    (hinbox : w.inbox x src = .appendEntryResponse r :: rest)
    (hok : w.CommitsOwn (.deliver x src moves))
    (hstep : step w (.deliver x src moves) = some (w', out)) {i : ℕ}
    (hle : (w.node x).committed ≤ i) (hlt : i < (w'.node x).committed) :
    ∃ e, (w'.node x).log[i]? = some e ∧
      n < 2 * (Finset.univ.filter fun v => (w'.node v).log[i]? = some e).card := by
  obtain ⟨hist, hconsistent, hhonest⟩ := Consistent.of_run (fun _ _ => id) h
  have hmem : .appendEntryResponse r ∈ w.inbox x src := hinbox ▸ List.mem_cons_self
  have hown := hok.2 _ (by rw [hinbox, List.head?_cons, Option.mem_some])
  obtain ⟨_, _, hcase, -⟩ | ⟨x', _, _, _, _, hcase, -, hinbox', -, rfl⟩ | ⟨_, _, hcase, -⟩ |
    ⟨_, _, hcase, -⟩ := step_cases hstep
  · cases hcase
  · obtain ⟨rfl, rfl, rfl⟩ := Action.deliver.inj hcase
    obtain ⟨rfl, rfl⟩ := List.cons.inj (hinbox.symm.trans hinbox')
    obtain ⟨_, _, _, _, _, hnode⟩ := r.execute_node (w.up x moves) (w.node x)
    have hlog : ∀ v, (((w.dequeue x src rest).afterTurn x
        ((Message.appendEntryResponse r).execute (w.up x moves) (w.node x)) moves).node v).log =
          (w.node v).log := by
      intro v
      by_cases hv : v = x
      · subst hv
        rw [World.afterTurn_node_self]
        exact congrArg (·.log) hnode
      · rw [World.afterTurn_node_ne hv]
        rfl
    rw [World.afterTurn_node_self] at hlt
    obtain ⟨bound, hbound, hto⟩ :=
      (Message.appendEntryResponse r).execute_commits (w.up x moves) (w.node x)
    have hlt' := hlt.trans_le hto.committed
    rcases hbound with rfl | hcommits
    · rw [Nat.max_zero] at hlt'
      omega
    obtain ⟨rfl, hhist, hchosen⟩ := hconsistent.chosen hhonest hmem hcommits hown
    have hi : i < r.index + 1 := by omega
    have hi' : i < (w.node x).log.length := by
      have := hchosen.entry.lt
      rw [hhist] at this
      omega
    refine ⟨(w.node x).log[i], by rw [hlog, List.getElem?_eq_getElem], ?_⟩
    obtain ⟨s, hs, hstored⟩ := hchosen.stored
    rw [Fintype.card_fin] at hs
    refine hs.trans_le (Nat.mul_le_mul_left 2 (Finset.card_le_card fun v hv => ?_))
    have hentry := hconsistent.complete.stored_log hchosen (hstored v hv)
    have htake := (hconsistent.matching.histories.log v).take_of_hasTerm hentry
    rw [Finset.mem_filter, hlog, ← List.getElem?_take_of_lt hi, htake, hhist,
      List.getElem?_take_of_lt hi]
    exact ⟨Finset.mem_univ v, List.getElem?_eq_getElem hi'⟩
  · cases hcase
  · cases hcase

/-- The first response to the entry of a leader of three nodes commits it. -/
theorem commit_majority_three :
    ∃ tr w w' out, (cluster (World.connected 3)).Run World.Steady tr w ∧
      step w (.deliver 0 (some 1) []) = some (w', out) ∧ (w.node 0).committed = 0 ∧
      (w'.node 0).committed = 1 ∧ ∃ e, (w'.node 0).log[0]? = some e ∧
        3 < 2 * (Finset.univ.filter fun v => (w'.node v).log[0]? = some e).card := by
  have hexec : ((((cluster (World.connected 3)).guard World.Steady).exec (electionOfZero ++
      ([.submit 0 (.openAccount "a"), .deliver 0 none [], .deliver 1 (some 0) [],
        .deliver 1 (some 0) []] : List (Action 3)))).bind fun r =>
          (step r.1 (.deliver 0 (some 1) [])).map fun r' => (r, r')).map
        (fun r => (r.1.1.inbox 0 (some 1), decide (r.1.1.CommitsOwn (.deliver 0 (some 1) [])),
          (r.1.1.node 0).committed, (r.2.1.node 0).committed)) =
      some ([.appendEntryResponse ⟨1, 1, 0, true⟩], true, 0, 1) := by
    decide +kernel
  obtain ⟨⟨r, r'⟩, hboth, hend⟩ := Option.map_eq_some_iff.mp hexec
  obtain ⟨⟨w, tr⟩, hbefore, hlast⟩ := Option.bind_eq_some_iff.mp hboth
  obtain ⟨⟨w', out⟩, hstep, heq⟩ := Option.map_eq_some_iff.mp hlast
  obtain ⟨rfl, rfl⟩ := Prod.mk.inj heq
  obtain ⟨hinbox, hown, hzero, hone⟩ := by simpa only [Prod.mk.injEq] using hend
  have hrun := Machine.Run.of_guard (Machine.run_exec hbefore)
  exact ⟨tr, w, w', out, hrun, hstep, hzero, hone, commit_majority hrun hinbox
    (of_decide_eq_true hown) hstep hzero.le (by omega)⟩

end Consensus
