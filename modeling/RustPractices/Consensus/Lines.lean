import RustPractices.Consensus.Genuine
import RustPractices.Replication.Streaming

/-!
# What is on its way between a leader and a node

A leader sends its entries to a node one at a time, and the node answers in order. The indices of the
entries, the index that the leader is at and the indices that the answers ask for are a line. As long as
no leader is asked for a vote that it does not give, a node never cuts off an entry that it has in
common with the leader whose entry it takes over, whatever is sent again, and whatever commands the
leader gets in the meantime.

## Main definitions

* `World.line`: the indices on their way between a leader and a node
* `Lined`: the lines have their shapes

## Main results

* `World.Acts.drawn_of_leader`, `World.Acts.streamed_of_follower`, `World.Acts.streamed_of_elected`:
  what a turn does to a line
* `Lined.step`: one steady step of the cluster
-/

open Transition Replication

namespace Consensus

variable {n : ℕ}

/-! ## The indices of messages -/

/-- The index that a response asks for. -/
def AppendEntryResponse.nextIndex (self : AppendEntryResponse n) : ℕ :=
  if self.success then self.index + 1 else self.index - 1

/-- The index of the entry that a leader is at with a node. -/
def RaftNode.currentIndex (s : RaftNode n) (y : Fin n) : ℕ :=
  ((s.pendingEntry y).map EntryData.index).getD s.log.length

/-- The index of an entry of the term `T` in flight. -/
def Message.entryIndex (T : ℕ) : Message n → Option ℕ
  | .appendEntry a => if a.term = T then a.entry.map EntryData.index else none
  | _ => none

/-- The index that a response of the term `T` in flight asks for. -/
def Message.nextIndex (T : ℕ) : Message n → Option ℕ
  | .appendEntryResponse r => if r.term = T then some r.nextIndex else none
  | _ => none

/-- How the node `s` answers the entry `d` of a message of its term or a later one. -/
inductive AppendEntry.Answered (self : AppendEntry n) (d : EntryData) (s : RaftNode n) (t : Turn n) :
    Prop
  /-- No answer can be sent. -/
  | unsent :
      t.node.log = s.log → (∀ dst r, (dst, .appendEntryResponse r) ∉ t.sent) →
      (∀ v c T i, .accepted v c T i ∉ t.events) → Answered self d s t
  /-- The entry before it does not match. -/
  | refused :
      d.prevTerm ≠ s.prevEntryTerm d.index → t.node.log = s.log →
      (∀ dst r, (dst, .appendEntryResponse r) ∈ t.sent → r = ⟨s.id, self.term, d.index, false⟩) →
      (∀ v c T i, .accepted v c T i ∉ t.events) → Answered self d s t
  /-- It is taken over. -/
  | taken :
      d.prevTerm = s.prevEntryTerm d.index →
      t.node.log = s.log.take d.index ++ [⟨d.term, d.command⟩] →
      (∀ dst r, (dst, .appendEntryResponse r) ∈ t.sent → r = ⟨s.id, self.term, d.index, true⟩) →
      (∀ v c T i, .accepted v c T i ∈ t.events ↔
        v = s.id ∧ c = self.nodeId ∧ T = self.term ∧ i = d.index) → Answered self d s t

theorem AppendEntry.execute_entry (self : AppendEntry n) (up : ℕ → Fin n → Bool) (s : RaftNode n)
    {d : EntryData} (hd : self.entry = some d) (hterm : s.term ≤ self.term) :
    (self.execute up s).node.term = self.term ∧ self.Answered d s (self.execute up s) := by
  obtain ⟨hlt, -⟩ | ⟨-, cmds, pendingCmds, panicked, -, -, heq⟩ := self.execute_cases up s
  · exact absurd hterm hlt.not_ge
  have hanswer : self.answer up (self.follow s) = self.respond d up (self.follow s) := by
    rw [answer, hd]
  rw [hanswer] at heq
  have hsent : ∀ dst r, (dst, .appendEntryResponse r) ∈ (self.execute up s).sent →
      (dst, .appendEntryResponse r) ∈ (self.respond d up (self.follow s)).sent := by
    intro dst r hr
    rw [heq] at hr
    rcases List.mem_append.mp hr with hr | hr
    · exact hr
    · obtain ⟨_, -, hcmd⟩ := List.mem_map.mp hr
      simp at hcmd
  have hevents : ∀ v c T i, .accepted v c T i ∈ (self.execute up s).events ↔
      .accepted v c T i ∈ (self.respond d up (self.follow s)).events := by
    intro v c T i
    rw [heq]
    simp
  have hlog : (self.execute up s).node.log = (self.respond d up (self.follow s)).node.log := by
    rw [heq]
  have hself : (self.execute up s).node.term = (self.respond d up (self.follow s)).node.term := by
    rw [heq]
  rcases self.respond_cases d up (self.follow s) with
    ⟨-, hrespond⟩ | ⟨-, hrespond⟩ | ⟨-, hprev, hrespond⟩ | ⟨-, hprev, hrespond⟩ <;>
    simp only [hrespond] at hsent hevents hlog hself
  · exact ⟨hself, .unsent hlog (fun dst r hr => by simpa [Turn.panic] using hsent dst r hr)
      fun v c T i => by simp [hevents, Turn.panic]⟩
  · exact ⟨hself, .unsent hlog (fun dst r hr => by simpa using hsent dst r hr)
      fun v c T i => by simp [hevents]⟩
  · refine ⟨hself, .refused hprev hlog (fun dst r hr => ?_) fun v c T i => by simp [hevents]⟩
    obtain ⟨rfl, rfl⟩ : dst = self.nodeId ∧ r = _ := by simpa using hsent dst r hr
    rfl
  · refine ⟨hself, .taken hprev hlog (fun dst r hr => ?_) fun v c T i => by
      simp [hevents, follow]⟩
    obtain ⟨rfl, rfl⟩ : dst = self.nodeId ∧ r = _ := by simpa using hsent dst r hr
    rfl

/-- A node takes an entry over only from a message with this entry. -/
theorem Message.execute_accepted {up : ℕ → Fin n → Bool} {s : RaftNode n} {msg : Message n}
    {v c : Fin n} {T i : ℕ} (h : .accepted v c T i ∈ (msg.execute up s).events) :
    ∃ a d, msg = .appendEntry a ∧ a.entry = some d ∧ s.term ≤ a.term ∧ v = s.id ∧ c = a.nodeId ∧
      T = a.term ∧ i = d.index := by
  cases msg with
  | accept msg => simp [execute, Accept.execute] at h
  | command cmd =>
    obtain ⟨-, heq⟩ | ⟨-, _, _, _, _, -, -, heq⟩ := cmd.execute_cases up s <;>
      simp [execute, heq] at h
  | appendEntry msg =>
    obtain ⟨-, heq⟩ | ⟨hterm, _, _, _, -, -, heq⟩ := msg.execute_cases up s <;>
      simp only [execute, heq] at h
    · simp at h
    · rcases List.mem_cons.mp h with h | h
      · cases h
      · obtain ⟨d, hd, heq⟩ | ⟨_, _, -, heq⟩ := AppendEntry.answer_events h
        · obtain ⟨rfl, rfl, rfl, rfl⟩ := Event.accepted.inj heq
          exact ⟨msg, d, rfl, hd, hterm, rfl, rfl, rfl, rfl⟩
        · cases heq
  | appendEntryResponse msg =>
    obtain ⟨_, _, -, heq⟩ := AppendEntryResponse.execute_events h
    cases heq
  | requestVote msg =>
    obtain ⟨-, heq⟩ | ⟨-, -, _, heq⟩ | ⟨-, -, -, heq⟩ := msg.execute_cases up s <;>
      simp [execute, heq] at h
  | vote msg =>
    obtain ⟨-, heq⟩ | ⟨-, -, heq⟩ | ⟨-, -, heq⟩ := msg.execute_cases up s <;>
      simp [execute, heq] at h

/-- The pending entries after a response: the one of its sender is the entry that it asks for. -/
theorem AppendEntryResponse.execute_pendingEntry (self : AppendEntryResponse n)
    (up : ℕ → Fin n → Bool) (s : RaftNode n) :
    (self.execute up s).node.pendingEntry = s.pendingEntry ∨
    self.term = s.term ∧ (self.execute up s).node.pendingEntry =
      Function.update s.pendingEntry self.nodeId (s.newEntryData self.nextIndex) := by
  have hsend : ∀ index (s' : RaftNode n), s'.log = s.log → s'.pendingEntry = s.pendingEntry →
      (self.sendEntry index up s').node.pendingEntry = s.pendingEntry ∨
      (self.sendEntry index up s').node.pendingEntry =
        Function.update s.pendingEntry self.nodeId (s.newEntryData index) := by
    intro index s' hlog hpending
    have hdata : s'.newEntryData index = s.newEntryData index := by
      rw [RaftNode.newEntryData_eq, RaftNode.newEntryData_eq, hlog]
    rw [self.sendEntry_pendingEntry, hpending, hdata]
    split_ifs
    · exact .inr rfl
    · exact .inl rfl
  obtain ⟨_, _, _, _, hack⟩ := self.acknowledge_node s
  unfold AppendEntryResponse.execute
  split_ifs with hterm hsuccess
  · have hnext : self.nextIndex = self.index + 1 := if_pos hsuccess
    unfold Turn.andThen
    split_ifs
    · exact .inl (by rw [hack])
    · rw [hnext]
      exact (hsend _ _ (by rw [hack]) (by rw [hack])).imp_right fun h => ⟨hterm.symm, h⟩
  · have hnext : self.nextIndex = self.index - 1 := if_neg hsuccess
    rw [hnext]
    split
    · exact .inl rfl
    next index hindex =>
      rw [hindex]
      exact (hsend index s rfl rfl).imp_right fun h => ⟨hterm.symm, h⟩
  · exact .inl rfl

/-- A leader goes on to another index only when a response asks for it. -/
theorem Message.execute_currentIndex (up : ℕ → Fin n → Bool) (s : RaftNode n) (msg : Message n)
    (haccept : ∀ a, msg ≠ .accept a) (hrole : s.role = .leader)
    (hrole' : (msg.execute up s).node.role = .leader)
    (hresponse : ∀ r, msg = .appendEntryResponse r → r.term = s.term →
      r.index < s.log.length) {y : Fin n} (hy : y ∈ s.nodes) :
    (msg.execute up s).node.currentIndex y = s.currentIndex y ∨
    ∃ r, msg = .appendEntryResponse r ∧ r.nodeId = y ∧ r.term = s.term ∧
      (msg.execute up s).node.currentIndex y = r.nextIndex := by
  cases msg with
  | accept msg => exact absurd rfl (haccept msg)
  | command cmd =>
    obtain ⟨-, heq⟩ | ⟨hnot, -⟩ := cmd.execute_cases up s
    · left
      simp only [execute, heq, RaftNode.currentIndex]
      cases hpending : s.pendingEntry y with
      | some d => rw [if_neg (by simp)]; rfl
      | none => simp [hy, RaftNode.newEntryData_eq, entryAt, RaftNode.pushLogEntry]
    · exact absurd hrole hnot
  | appendEntry msg =>
    obtain ⟨-, heq⟩ | ⟨-, _, _, _, -, -, heq⟩ := msg.execute_cases up s
    · rw [execute, heq]
      exact .inl rfl
    · obtain ⟨_, _, _, _, _, hanswer⟩ := msg.answer_node up (msg.follow s)
      simp only [execute, heq, hanswer] at hrole'
      cases hrole'
  | appendEntryResponse msg =>
    obtain ⟨_, _, _, _, _, hnode⟩ := msg.execute_node up s
    have hlog : (msg.execute up s).node.log = s.log := congrArg (·.log) hnode
    simp only [execute, RaftNode.currentIndex, hlog]
    rcases msg.execute_pendingEntry up s with hpending | ⟨hterm, hpending⟩ <;> rw [hpending]
    · exact .inl rfl
    by_cases hsender : y = msg.nodeId
    · subst hsender
      right
      refine ⟨msg, rfl, rfl, hterm, ?_⟩
      rw [Function.update_self]
      have hle : msg.nextIndex ≤ s.log.length := by
        have := hresponse msg rfl hterm
        unfold AppendEntryResponse.nextIndex
        split_ifs <;> omega
      cases hdata : s.newEntryData msg.nextIndex with
      | some d => exact (RaftNode.newEntryData_eq_some.mp hdata).1
      | none =>
        have hge : s.log.length ≤ msg.nextIndex := by simpa [RaftNode.newEntryData] using hdata
        exact le_antisymm hge hle
    · rw [Function.update_of_ne hsender]
      exact .inl rfl
  | requestVote msg =>
    obtain ⟨-, heq⟩ | ⟨-, -, _, heq⟩ | ⟨-, -, -, heq⟩ := msg.execute_cases up s <;>
      rw [execute, heq] <;> exact .inl rfl
  | vote msg =>
    obtain ⟨-, heq⟩ | ⟨-, -, heq⟩ | ⟨⟨hcandidate, -⟩, -, -⟩ := msg.execute_cases up s
    · rw [execute, heq]
      exact .inl rfl
    · rw [execute, heq]
      exact .inl rfl
    · simp [hrole] at hcandidate

/-- The messages that a turn sends to a node. -/
def Turn.sentTo (t : Turn n) (dst : Fin n) : List (Message n) :=
  (t.sent.filter fun m => m.1 = dst).map Prod.snd

theorem Turn.mem_sentTo {t : Turn n} {dst : Fin n} {m : Message n} :
    m ∈ t.sentTo dst ↔ (dst, m) ∈ t.sent := by
  simp [sentTo]

/-- The indices of the entries of the term `T` that are on their way from `c` to `v`. -/
def World.entries (w : World n) (T : ℕ) (c v : Fin n) : List ℕ :=
  (w.inbox v (some c)).filterMap (Message.entryIndex T)

/-- The indices that the responses of the term `T` on their way from `v` to `c` ask for. -/
def World.answers (w : World n) (T : ℕ) (c v : Fin n) : List ℕ :=
  (w.inbox c (some v)).filterMap (Message.nextIndex T)

/-- **The line of the term `T`** from `c` to `v` and back, as long as `c` has this term. -/
def World.line (w : World n) (T : ℕ) (c v : Fin n) : List ℕ :=
  w.entries T c v ++
    if (w.node c).term = T then (w.node c).currentIndex v :: w.answers T c v else []

namespace World.Acts

variable {hist : ℕ → List LogEntry} {tr : List (Event n)} {w w' : World n} {x y : Fin n}
  {t : Turn n} {msg : Option (Message n)}

/-- What a node has in flight to another one before and after a turn. -/
theorem inbox_ne (h : w.Acts x msg t w') (hy : y ≠ x) (z : Fin n) :
    w'.inbox y (some z) = w.inbox y (some z) ++ if z = x then t.sentTo y else [] := by
  have hturn : ∀ (w : World n) t moves, (w.afterTurn x t moves).inbox y (some z) =
      w.inbox y (some z) ++ if z = x then t.sentTo y else [] := by
    intro w t moves
    show enqueue w.inbox x t.sent y (some z) = _
    unfold enqueue
    by_cases hz : z = x
    · rw [if_pos (congrArg some hz), if_pos hz]
      rfl
    · rw [if_neg fun heq => hz (Option.some.inj heq), if_neg hz, List.append_nil]
  cases h with
  | deliver _ _ => rw [hturn, inbox_dequeue_ne fun heq => hy heq.1]
  | timeout moves => rw [hturn]

/-- What is on the way to the acting node from another one before and after a turn: the node has
processed the next message, or it has processed nothing of this sender. -/
theorem inbox_self (h : w.Acts x msg t w') (hconnected : Connected w) (hy : y ≠ x) :
    (∃ m, msg = some m ∧ w.inbox x (some y) = m :: w'.inbox x (some y)) ∨
    w'.inbox x (some y) = w.inbox x (some y) ∧ ∀ m, msg = some m →
      (∃ cmd, m = .command cmd) ∨ ∃ z, z ≠ y ∧ SentBy z m := by
  have hturn : ∀ (w : World n) t moves, (w.afterTurn x t moves).inbox x (some y) =
      w.inbox x (some y) := fun w t moves => if_neg fun heq => hy (Option.some.inj heq)
  cases h with
  | @deliver src _ m rest _ hinbox =>
    by_cases hsrc : src = some y
    · subst hsrc
      exact .inl ⟨m, rfl, by rw [hturn, inbox_dequeue_self, hinbox]⟩
    · right
      refine ⟨by rw [hturn, inbox_dequeue_ne fun heq => hsrc heq.2.symm], ?_⟩
      rintro m' heq
      obtain rfl := Option.some.inj heq
      have hmem : m ∈ w.inbox x src := hinbox ▸ List.mem_cons_self
      cases src with
      | none => exact .inl (hconnected.client x m hmem)
      | some z => exact .inr ⟨z, fun heq => hsrc (congrArg some heq), (hconnected.sender x z m hmem).2⟩
  | timeout moves => exact .inr ⟨hturn .., fun m heq => by cases heq⟩

/-- The indices in flight to the acting node from another one before and after a turn: the first one
has been taken away, or the node has processed nothing that carries an index of this sender. -/
theorem filterMap_inbox_self (h : w.Acts x msg t w') (hconnected : Connected w) (hy : y ≠ x)
    {f : Message n → Option ℕ}
    (hf : ∀ m i z z', f m = some i → SentBy z m → SentBy z' m → z = z') :
    (∃ m i, msg = some m ∧ SentBy y m ∧ f m = some i ∧
      (w.inbox x (some y)).filterMap f = i :: (w'.inbox x (some y)).filterMap f) ∨
    (w'.inbox x (some y)).filterMap f = (w.inbox x (some y)).filterMap f ∧
      ∀ m i, msg = some m → f m = some i → ¬ SentBy y m := by
  rcases h.inbox_self hconnected hy with ⟨m, hmsg, hinbox⟩ | ⟨hinbox, hother⟩
  · have hsender := (hconnected.sender x y m (hinbox ▸ List.mem_cons_self)).2
    cases hm : f m with
    | some i => exact .inl ⟨m, i, hmsg, hsender, hm, by rw [hinbox, List.filterMap_cons_some hm]⟩
    | none =>
      refine .inr ⟨by rw [hinbox, List.filterMap_cons_none hm], fun m' i hmsg' hm' _ => ?_⟩
      obtain rfl := Option.some.inj (hmsg.symm.trans hmsg')
      rw [hm] at hm'
      cases hm'
  · refine .inr ⟨by rw [hinbox], fun m i hmsg hm hsender => ?_⟩
    rcases hother m hmsg with ⟨cmd, rfl⟩ | ⟨z, hz, hsender'⟩
    · exact hy (hf _ i y x hm trivial trivial)
    · exact hz (hf m i z y hm hsender' hsender)

end World.Acts

theorem Message.entryIndex_eq_some {T i : ℕ} {m : Message n} :
    m.entryIndex T = some i ↔ ∃ a d, m = .appendEntry a ∧ a.term = T ∧ a.entry = some d ∧
      d.index = i := by
  cases m with
  | appendEntry a =>
    simp only [entryIndex]
    split_ifs with hT
    · simp [hT]
    · simp [hT]
  | _ => simp [entryIndex]

theorem Message.nextIndex_eq_some {T i : ℕ} {m : Message n} :
    m.nextIndex T = some i ↔ ∃ r, m = .appendEntryResponse r ∧ r.term = T ∧ r.nextIndex = i := by
  cases m with
  | appendEntryResponse r =>
    simp only [nextIndex]
    split_ifs with hT
    · simp [hT]
    · simp [hT]
  | _ => simp [nextIndex]

theorem Message.entryIndex_sender {T i : ℕ} {m : Message n} {z z' : Fin n}
    (h : m.entryIndex T = some i) (hz : SentBy z m) (hz' : SentBy z' m) : z = z' := by
  obtain ⟨a, d, rfl, -⟩ := entryIndex_eq_some.mp h
  exact Eq.trans (Eq.symm hz) hz'

theorem Message.nextIndex_sender {T i : ℕ} {m : Message n} {z z' : Fin n}
    (h : m.nextIndex T = some i) (hz : SentBy z m) (hz' : SentBy z' m) : z = z' := by
  obtain ⟨r, rfl, -⟩ := nextIndex_eq_some.mp h
  exact Eq.trans (Eq.symm hz) hz'

namespace Turn.Replicates

variable {hist : ℕ → List LogEntry} {tr : List (Event n)} {w w' : World n} {x y : Fin n}
  {t : Turn n} {msg : Option (Message n)} {T : ℕ}

/-- The entries that a turn sends are the ones that the node is at. -/
theorem mem_entries (ht : t.Replicates hist tr w x msg) {i : ℕ}
    (hi : i ∈ (t.sentTo y).filterMap (Message.entryIndex T)) :
    t.node.term = T ∧ i = t.node.currentIndex y := by
  obtain ⟨m, hm, hindex⟩ := List.mem_filterMap.mp hi
  obtain ⟨a, d, rfl, hT, hd, rfl⟩ := Message.entryIndex_eq_some.mp hindex
  obtain ⟨hsent, -⟩ := ht.append y a (Turn.mem_sentTo.mp hm)
  obtain rfl : a = _ := Message.appendEntry.inj hsent
  refine ⟨hT, ?_⟩
  rw [RaftNode.currentIndex, show t.node.pendingEntry y = some d from hd]
  rfl

theorem entries_eq_replicate (ht : t.Replicates hist tr w x msg) : ∃ k,
    (t.sentTo y).filterMap (Message.entryIndex T) = List.replicate k (t.node.currentIndex y) :=
  ⟨_, List.eq_replicate_of_mem fun _ hi => (ht.mem_entries hi).2⟩

theorem entries_eq_nil (ht : t.Replicates hist tr w x msg) (hT : t.node.term ≠ T) :
    (t.sentTo y).filterMap (Message.entryIndex T) = [] :=
  List.eq_nil_iff_forall_not_mem.mpr fun _ hi => hT (ht.mem_entries hi).1

/-- A response of the term `T` answers an entry of the term `T`. -/
theorem mem_answers (ht : t.Replicates hist tr w x msg) {i : ℕ}
    (hi : i ∈ (t.sentTo y).filterMap (Message.nextIndex T)) :
    ∃ a d r, msg = some (.appendEntry a) ∧ a.entry = some d ∧ a.nodeId = y ∧ a.term = T ∧
      (y, .appendEntryResponse r) ∈ t.sent ∧ r.nextIndex = i := by
  obtain ⟨m, hm, hindex⟩ := List.mem_filterMap.mp hi
  obtain ⟨r, rfl, hT, rfl⟩ := Message.nextIndex_eq_some.mp hindex
  have hr := Turn.mem_sentTo.mp hm
  obtain ⟨a, d, hmsg, hd, hy, hterm, -⟩ := ht.response y r hr
  exact ⟨a, d, r, hmsg, hd, hy.symm, hterm.symm.trans hT, hr, rfl⟩

end Turn.Replicates

/-! ## The turn of a leader -/

namespace World.Acts

variable {hist hist' : ℕ → List LogEntry} {tr : List (Event n)} {w w' : World n} {x y c v : Fin n}
  {t : Turn n} {msg : Option (Message n)} {T : ℕ}

/-- The acting node answers an entry. -/
theorem answered (hact : w.Acts x msg t w') {a : AppendEntry n} {d : EntryData}
    (ha : msg = some (.appendEntry a)) (hd : a.entry = some d) (hterm : (w.node x).term ≤ a.term) :
    t.node.term = a.term ∧ a.Answered d (w.node x) t := by
  cases hact with
  | deliver _ _ =>
    obtain rfl := Option.some.inj ha
    exact a.execute_entry _ _ hd hterm
  | timeout _ => cases ha

/-- A node takes an entry over only from a message with this entry. -/
theorem accepted (hact : w.Acts x msg t w') (hconnected : Connected w) {i : ℕ}
    (h : .accepted v c T i ∈ t.events) :
    v = x ∧ ∃ a d, msg = some (.appendEntry a) ∧ a.entry = some d ∧ (w.node x).term ≤ a.term ∧
      c = a.nodeId ∧ T = a.term ∧ i = d.index := by
  cases hact with
  | deliver _ _ =>
    obtain ⟨a, d, rfl, hd, hle, rfl, hrest⟩ := Message.execute_accepted h
    exact ⟨hconnected.id x, a, d, rfl, hd, hle, hrest⟩
  | timeout moves =>
    obtain ⟨-, heq⟩ | ⟨-, heq⟩ | ⟨-, heq⟩ := (w.node x).timedOut_cases (w.up x moves) <;>
      simp [heq, Turn.panic] at h

/-- A response answers the entry that the node has processed. -/
theorem responded (hact : w.Acts x msg t w') {dst : Fin n} {r : AppendEntryResponse n}
    (hr : (dst, .appendEntryResponse r) ∈ t.sent) :
    ∃ a d, msg = some (.appendEntry a) ∧ a.entry = some d ∧ (w.node x).term ≤ a.term ∧
      dst = a.nodeId ∧ r.term = a.term ∧ r.index = d.index := by
  cases hact with
  | deliver _ _ =>
    obtain ⟨a, d, rfl, hd, hle, hdst, -, hterm, hindex, -⟩ := Message.execute_appendEntryResponse hr
    exact ⟨a, d, rfl, hd, hle, hdst, hterm, hindex⟩
  | timeout _ => exact absurd hr RaftNode.not_timedOut_appendEntryResponse

/-- A leader goes on to another index only when a response asks for it. -/
theorem currentIndex (hact : w.Acts x msg t w') (hm : Matching hist tr w)
    (hrole : (w.node x).role = .leader) (hrole' : t.node.role = .leader) (hy : y ≠ x) :
    t.node.currentIndex y = (w.node x).currentIndex y ∨
    ∃ r, msg = some (.appendEntryResponse r) ∧ r.nodeId = y ∧ r.term = (w.node x).term ∧
      t.node.currentIndex y = r.nextIndex := by
  cases hact with
  | @deliver src _ m _ _ hinbox =>
    have hmem : m ∈ w.inbox x src := hinbox ▸ List.mem_cons_self
    rcases m.execute_currentIndex _ _ (fun a => hm.connected.not_accept hmem a) hrole hrole'
      (fun r hr hterm => (hm.response (hr ▸ hmem) hterm.symm).2.1)
      (hm.connected.mem_nodes.mpr hy) with hsame | ⟨r, rfl, hnext⟩
    · exact .inl hsame
    · exact .inr ⟨r, rfl, hnext⟩
  | timeout moves =>
    obtain ⟨-, heq⟩ | ⟨hnot, -⟩ | ⟨hnot, -⟩ := (w.node x).timedOut_cases (w.up x moves)
    · rw [heq]
      exact .inl rfl
    · exact absurd hrole hnot
    · exact absurd hrole hnot

/-- **The turn of a leader** puts the index that it is at on its lines once more, or goes on to the next
index on its lines. -/
theorem drawn_of_leader (hact : w.Acts c msg t w') (hm : Matching hist tr w)
    (hm' : Matching hist' (tr ++ t.events) w') (hc : .elected c T ∈ tr) (hv : v ≠ c) :
    Drawn (w.line T c v) (w'.line T c v) := by
  have ht := hact.replicates hm
  have hentries : w'.entries T c v =
      w.entries T c v ++ (t.sentTo v).filterMap (Message.entryIndex T) := by
    rw [entries, hact.inbox_ne hv, if_pos rfl, List.filterMap_append]
    rfl
  simp only [line, hentries, hact.node_self]
  by_cases hterm : t.node.term = T
  · obtain ⟨hterm', hrole, -⟩ := hm.leads hc (hterm ▸ ht.electoral.term_le)
    have hrole' : t.node.role = .leader := by
      obtain ⟨-, hrole', -⟩ := hm'.leads (c := c) (List.mem_append_left _ hc)
        (by rw [hact.node_self, hterm])
      rwa [hact.node_self] at hrole'
    obtain ⟨k, hk⟩ := ht.entries_eq_replicate (y := v) (T := T)
    rw [if_pos hterm, if_pos hterm', hk]
    refine Drawn.trans ?_ (.replicate _ _ _ _)
    rcases hact.filterMap_inbox_self hm.connected hv
      (fun _ _ _ _ => Message.nextIndex_sender (T := T)) with ⟨m, i, hmsg, hsender, hi, hanswers⟩ |
      ⟨hanswers, hnone⟩
    · have hanswers : w.answers T c v = i :: w'.answers T c v := hanswers
      rw [hanswers]
      refine .of_sublist (List.Sublist.append_left ?_ _)
      rcases hact.currentIndex hm hrole hrole' hv with hsame | ⟨r, hr, -, -, hnext⟩
      · rw [hsame]
        exact (List.sublist_cons_self _ _).cons_cons _
      · obtain rfl := Option.some.inj (hmsg.symm.trans hr)
        obtain ⟨r', hr', -, rfl⟩ := Message.nextIndex_eq_some.mp hi
        obtain rfl := Message.appendEntryResponse.inj hr'
        rw [hnext]
        exact List.sublist_cons_self _ _
    · have hanswers : w'.answers T c v = w.answers T c v := hanswers
      rw [hanswers]
      rcases hact.currentIndex hm hrole hrole' hv with hsame | ⟨r, hr, hsender, hterm'', -⟩
      · rw [hsame]
        exact .of_sublist (List.Sublist.refl _)
      · refine absurd hsender (hnone _ _ hr (Message.nextIndex_eq_some.mpr ⟨r, rfl, ?_, rfl⟩))
        rw [hterm'', hterm']
  · rw [if_neg hterm, ht.entries_eq_nil hterm, List.append_nil, List.append_nil]
    exact .of_sublist (List.sublist_append_left _ _)

end World.Acts

/-! ## The turn of a node that follows -/

/-- A node of an earlier term has no entry of the term. -/
theorem Genuine.fresh {hist : ℕ → List LogEntry} {w : World n} (h : Genuine hist w) {v : Fin n}
    {T : ℕ} (hlt : (w.node v).term < T) : ∀ e ∈ (w.node v).log, e.term ≠ T :=
  fun e he => ((h.log_le v e he).trans_lt hlt).ne

namespace World.Acts

variable {hist hist' : ℕ → List LogEntry} {tr : List (Event n)} {w w' : World n} {c v : Fin n}
  {t : Turn n} {msg : Option (Message n)} {T : ℕ}

/-- The line behind an entry that a node processes, and the line after it. -/
theorem drawn_of_entry (hact : w.Acts v msg t w') (hv : v ≠ c) :
    Drawn (w'.entries T c v ++
        (if (w.node c).term = T then (w.node c).currentIndex v :: w.answers T c v else []) ++
        (t.sentTo c).filterMap (Message.nextIndex T)) (w'.line T c v) := by
  have hanswers : w'.answers T c v =
      w.answers T c v ++ (t.sentTo c).filterMap (Message.nextIndex T) := by
    rw [answers, hact.inbox_ne hv.symm, if_pos rfl, List.filterMap_append]
    rfl
  rw [line, hact.node_ne hv.symm, hanswers]
  split_ifs
  · rw [List.append_assoc, List.cons_append]
    exact .of_sublist (List.Sublist.refl _)
  · rw [List.append_nil]
    exact .of_sublist (List.sublist_append_left _ _)

/-- A node that takes an entry over has the log of its leader up to this entry. -/
theorem taken (hact : w.Acts v msg t w') (hm : Matching hist tr w) (hg : Genuine hist w)
    {a : AppendEntry n} {d : EntryData} (ha : msg = some (.appendEntry a)) (hd : a.entry = some d)
    (hprev : d.prevTerm = (w.node v).prevEntryTerm d.index)
    (hlog : t.node.log = (w.node v).log.take d.index ++ [⟨d.term, d.command⟩]) :
    t.node.log = (hist a.term).take (d.index + 1) := by
  obtain ⟨src, hmem⟩ := hact.received ha
  obtain ⟨-, hget, hprev'⟩ := entryAt_eq_some.mp (hg.entry v src a d hmem hd)
  obtain ⟨hlt, -⟩ := List.getElem?_eq_some_iff.mp hget
  rw [hprev', RaftNode.prevEntryTerm_eq] at hprev
  have htake : (w.node v).log.take d.index = (hist a.term).take d.index :=
    (hm.histories.log v).take_eq (hm.histories.follows a.term) hm.histories.zero hlt.le hprev
  rw [hlog, htake, List.take_add_one, hget]
  rfl

/-- A node answers the first entry of its line. -/
theorem streamed_of_entry (hact : w.Acts v msg t w') (hm : Matching hist tr w)
    (hg : Genuine hist w) {a : AppendEntry n} {d : EntryData} (ha : msg = some (.appendEntry a))
    (hd : a.entry = some d) (hle : (w.node v).term ≤ a.term) {line : List ℕ}
    (h : Streamed LogEntry.term a.term (w.node v).term (hist a.term) (w.node v).log
      (d.index :: line)) :
    Streamed LogEntry.term a.term t.node.term (hist a.term) t.node.log
      (line ++ (t.sentTo c).filterMap (Message.nextIndex a.term)) := by
  have ht := hact.replicates hm
  have hanswers : ∀ j, (∀ dst r, (dst, .appendEntryResponse r) ∈ t.sent → r.nextIndex = j) →
      ∃ k, (t.sentTo c).filterMap (Message.nextIndex a.term) = List.replicate k j := by
    intro j hnext
    refine ⟨_, List.eq_replicate_of_mem fun i hi => ?_⟩
    obtain ⟨_, _, r, -, -, -, -, hr, rfl⟩ := ht.mem_answers hi
    exact hnext c r hr
  obtain ⟨src, hmem⟩ := hact.received ha
  obtain ⟨-, hget, hprev⟩ := entryAt_eq_some.mp (hg.entry v src a d hmem hd)
  obtain ⟨hlt, -⟩ := List.getElem?_eq_some_iff.mp hget
  obtain ⟨hterm, hanswered⟩ := hact.answered ha hd hle
  rw [hterm]
  cases hanswered with
  | unsent hlog hnot _ =>
    have hnil : (t.sentTo c).filterMap (Message.nextIndex a.term) = [] := by
      refine List.eq_nil_iff_forall_not_mem.mpr fun i hi => ?_
      obtain ⟨_, _, r, -, -, -, -, hr, -⟩ := ht.mem_answers hi
      exact hnot c r hr
    rw [hnil, List.append_nil, hlog]
    exact (h.raise hle hg.fresh).drawn (.of_sublist (List.sublist_cons_self _ _))
  | refused hne hlog hresponse _ =>
    obtain ⟨k, hk⟩ := hanswers (d.index - 1) fun dst r hr => by rw [hresponse dst r hr]; rfl
    rw [hprev, RaftNode.prevEntryTerm_eq] at hne
    rw [hk, hlog]
    exact h.refuse hle hg.fresh hne.symm k
  | taken heq hlog hresponse _ =>
    obtain ⟨k, hk⟩ := hanswers (d.index + 1) fun dst r hr => by rw [hresponse dst r hr]; rfl
    rw [hk, hact.taken hm hg ha hd heq hlog]
    rw [hprev, RaftNode.prevEntryTerm_eq] at heq
    exact h.take hle hg.fresh heq.symm hlt k

/-- An entry that a node processes is the first of its line. -/
theorem line_of_entry (hact : w.Acts v msg t w') (hm : Matching hist tr w) {a : AppendEntry n}
    {d : EntryData} (ha : msg = some (.appendEntry a)) (hd : a.entry = some d) :
    w.line a.term a.nodeId v = d.index :: (w'.entries a.term a.nodeId v ++
      if (w.node a.nodeId).term = a.term
        then (w.node a.nodeId).currentIndex v :: w.answers a.term a.nodeId v else []) := by
  have hindex : (Message.appendEntry a).entryIndex a.term = some d.index :=
    Message.entryIndex_eq_some.mpr ⟨a, d, rfl, rfl, hd, rfl⟩
  rcases hact.filterMap_inbox_self hm.connected ((hact.replicates hm).appended ha).1
    (fun _ _ _ _ => Message.entryIndex_sender (T := a.term)) with ⟨m, i, hmsg, -, hi, hentries⟩ |
    ⟨-, hnone⟩
  · obtain rfl := Option.some.inj (hmsg.symm.trans ha)
    obtain rfl := Option.some.inj (hi.symm.trans hindex)
    rw [line, ← List.cons_append]
    exact congrArg (· ++ _) hentries
  · exact absurd rfl (hnone _ _ ha hindex)

/-- **The turn of a node** answers the first entry of its line, or it leaves the line. -/
theorem streamed_of_follower (hact : w.Acts v msg t w') (hm : Matching hist tr w)
    (hm' : Matching hist' (tr ++ t.events) w') (hg : Genuine hist w) (hc : .elected c T ∈ tr)
    (hv : v ≠ c)
    (h : Streamed LogEntry.term T (w.node v).term (hist T) (w.node v).log (w.line T c v)) :
    Streamed LogEntry.term T t.node.term (hist T) t.node.log (w'.line T c v) := by
  have ht := hact.replicates hm
  have hle := ht.electoral.term_le
  rcases hact.filterMap_inbox_self hm.connected hv.symm
    (fun _ _ _ _ => Message.entryIndex_sender (T := T)) with ⟨m, i, hmsg, hsender, hi, -⟩ |
    ⟨hentries, hnone⟩
  · obtain ⟨a, d, rfl, rfl, hd, -⟩ := Message.entryIndex_eq_some.mp hi
    obtain rfl : a.nodeId = c := hsender
    rw [hact.line_of_entry hm hmsg hd] at h
    rcases lt_or_ge a.term (w.node v).term with hlt | hge
    · exact .of_lt (hlt.trans_le hle)
    · exact (hact.streamed_of_entry hm hg hmsg hd hge h).drawn (hact.drawn_of_entry hv)
  -- the node has not processed an entry of the term, so it has not answered one
  have hother : ∀ a d, msg = some (.appendEntry a) → a.entry = some d → a.term = T →
      a.nodeId ≠ c := fun a d ha hd hT =>
    hnone _ _ ha (Message.entryIndex_eq_some.mpr ⟨a, d, rfl, hT, hd, rfl⟩)
  have hline : w'.line T c v = w.line T c v := by
    have hanswers : w'.answers T c v = w.answers T c v := by
      rw [answers, hact.inbox_ne hv.symm, if_pos rfl, List.filterMap_append, answers]
      refine List.append_right_eq_self.mpr (List.eq_nil_iff_forall_not_mem.mpr fun i hi => ?_)
      obtain ⟨a, d, _, ha, hd, hsender, hT, -⟩ := ht.mem_answers hi
      exact hother a d ha hd hT hsender
    rw [line, line, hact.node_ne hv.symm, hanswers]
    exact congrArg (· ++ _) hentries
  rw [hline]
  refine ⟨fun hlt => h.waiting (hle.trans_lt hlt), fun heq => ?_⟩
  have hlog : t.node.log = (w.node v).log := by
    cases ht.logged with
    | keep hlog _ _ => exact hlog
    | create _ hrole _ _ _ _ =>
      have helected := hm'.leader v (by rwa [hact.node_self])
      rw [hact.node_self, heq] at helected
      exact absurd (hm'.election.eq_of_elected helected (List.mem_append_left _ hc)) hv
    | accept a d ha hd _ _ hterm _ _ _ =>
      have hT := hterm.symm.trans heq
      have helected := (ht.appended ha).2.1
      rw [hT] at helected
      exact absurd (hm.election.eq_of_elected helected hc) (hother a d ha hd hT)
  rw [hlog]
  exact h.hear (hle.trans_eq heq) hg.fresh

end World.Acts

/-! ## The turn of a node that is elected -/

/-- A node is elected by the vote that makes it the leader. -/
theorem Message.execute_elected {up : ℕ → Fin n → Bool} {s : RaftNode n} {msg : Message n}
    {c : Fin n} {T : ℕ} (h : .elected c T ∈ (msg.execute up s).events) :
    (msg.execute up s).node = ({ s with votes := s.votes + 1 } : RaftNode n).lead := by
  have helectoral := msg.execute_electoral up s
  generalize hmsg : some msg = m at helectoral
  cases helectoral with
  | quiet _ _ _ hno => simpa [Event.isElection] using hno.events _ h
  | follow _ _ hno => simpa [Event.isElection] using hno.events _ h
  | raise _ _ hno => simpa [Event.isElection] using hno.events _ h
  | grant _ _ _ _ hevents => simp [hevents] at h
  | count _ _ _ _ hno => simpa [Event.isElection] using hno.events _ h
  | @elect v _ _ _ _ _ _ _ _ _ =>
    obtain rfl := Option.some.inj hmsg
    obtain ⟨-, heq⟩ | ⟨-, -, heq⟩ | ⟨-, -, heq⟩ := v.execute_cases up s
    · simp [execute, heq] at h
    · simp [execute, heq] at h
    · exact congrArg (·.node) heq
  | candidacy _ _ _ _ hevents => simp [hevents] at h

/-- A new leader starts with the last entry that it has had before. -/
theorem RaftNode.lead_currentIndex (s : RaftNode n) {y : Fin n} (hy : y ∈ s.nodes) :
    s.lead.currentIndex y ≤ s.lead.log.length ∧
      ∀ (k : ℕ) e, s.lead.log[k]? = some e → e.term ≠ s.term → k ≤ s.lead.currentIndex y := by
  have hpending : s.lead.pendingEntry y = s.lastEntryData := if_pos hy
  have hlength : s.lead.log.length = s.log.length + s.pendingCmds.length := by simp [lead]
  rw [currentIndex, hpending]
  have hold : ∀ (k : ℕ) e, s.lead.log[k]? = some e → e.term ≠ s.term → k < s.log.length := by
    intro k e he hT
    by_contra hge
    rw [lead, List.getElem?_append_right (not_lt.mp hge)] at he
    obtain ⟨cmd, -, rfl⟩ := List.mem_map.mp (List.mem_of_getElem? he)
    exact hT rfl
  unfold lastEntryData
  split
  next hnil =>
    refine ⟨le_rfl, fun k e he hT => ?_⟩
    have := hold k e he hT
    omega
  next len hlen =>
    have hdata : (s.newEntryData len).map EntryData.index = some len := by
      rw [newEntryData_eq, entryAt, List.getElem?_eq_getElem (by omega)]
      rfl
    rw [hdata, Option.getD_some]
    refine ⟨by omega, fun k e he hT => ?_⟩
    have := hold k e he hT
    omega

namespace World.Acts

variable {hist hist' : ℕ → List LogEntry} {tr : List (Event n)} {w w' : World n} {c v : Fin n}
  {t : Turn n} {msg : Option (Message n)} {T : ℕ}

/-- **The turn of a node that is elected** puts the index that it starts with on its lines. -/
theorem streamed_of_elected (hact : w.Acts c msg t w') (hm : Matching hist tr w)
    (hm' : Matching hist' (tr ++ t.events) w') (hc : .elected c T ∈ t.events) (hv : v ≠ c) :
    Streamed LogEntry.term T (w'.node v).term (hist' T) (w'.node v).log (w'.line T c v) := by
  have ht := hact.replicates hm
  obtain ⟨-, hT, hcandidate, hrole, hterm⟩ := ht.electoral.elected_mem hc
  have hfresh := hm'.election.not_elected_before hc
  have hlog : hist' T = t.node.log := by
    have hlog := hm'.histories.leader c (by rwa [hact.node_self])
    rwa [hact.node_self, hterm, ← hT] at hlog
  have hindex : t.node.currentIndex v ≤ t.node.log.length ∧
      ∀ (k : ℕ) e, t.node.log[k]? = some e → e.term ≠ T → k ≤ t.node.currentIndex v := by
    have hv' : v ∈ (w.node c).nodes := hm.connected.mem_nodes.mpr hv
    cases hact with
    | deliver _ _ =>
      rw [Message.execute_elected hc, hT]
      exact RaftNode.lead_currentIndex _ hv'
    | timeout _ =>
      have hleader := (RaftNode.timedOut_leader _ _ hrole).1
      simp [hcandidate] at hleader
  have hline : ∀ i ∈ w'.line T c v, i = t.node.currentIndex v := by
    intro i hi
    rcases List.mem_append.mp hi with hi | hi
    · obtain ⟨m, hmem, hindex⟩ := List.mem_filterMap.mp hi
      rcases hact.mem_inbox hmem with hold | ⟨-, hnew⟩
      · obtain ⟨a, d, rfl, rfl, -⟩ := Message.entryIndex_eq_some.mp hindex
        exact absurd (hm.histories.inbox v c _ hold).1 (hfresh c)
      · have hsent := List.mem_filterMap.mpr ⟨m, Turn.mem_sentTo.mpr hnew, hindex⟩
        exact (ht.mem_entries hsent).2
    rw [hact.node_self, if_pos (hterm.trans hT.symm)] at hi
    rcases List.mem_cons.mp hi with rfl | hi
    · rfl
    · obtain ⟨m, hmem, hindex⟩ := List.mem_filterMap.mp hi
      rcases hact.mem_inbox hmem with hold | ⟨hv', -⟩
      · obtain ⟨r, rfl, rfl, -⟩ := Message.nextIndex_eq_some.mp hindex
        exact absurd (hm.histories.inbox c v _ hold).1 (hfresh c)
      · exact absurd (Option.some.inj hv') hv
  have hwaiting : Waiting LogEntry.term T (hist' T) (w'.line T c v) := by
    constructor
    · intro i hi
      rw [hline i hi, hlog]
      exact hindex.1
    · intro i hi j hj
      rw [hline i hi, hline j hj]
    · intro i hi k e he
      rw [hline i hi]
      exact hindex.2 k e (hlog ▸ he)
  refine ⟨fun _ => hwaiting, fun _ => .inl (hwaiting.descending fun e he => ?_)⟩
  rw [hact.node_ne hv] at he
  obtain ⟨k, hk⟩ := List.mem_iff_getElem?.mp he
  exact (hm.histories.log v).term_ne (hm.histories.unelected T hfresh) hk

end World.Acts

/-- **The lines have their shapes**: those of the terms in which a node has been elected, to each of the
other nodes. -/
def Lined (hist : ℕ → List LogEntry) (tr : List (Event n)) (w : World n) : Prop :=
  ∀ c T v, .elected c T ∈ tr → v ≠ c →
    Streamed LogEntry.term T (w.node v).term (hist T) (w.node v).log (w.line T c v)

namespace Lined

variable {hist hist' : ℕ → List LogEntry} {tr out : List (Event n)} {w w' : World n} {x : Fin n}
  {t : Turn n} {msg : Option (Message n)}

theorem init : Lined (fun _ => []) [] (World.connected n) := by
  intro c T v hc
  simp at hc

/-- The turn of a node. -/
theorem turn (h : Lined hist tr w) (hm : Matching hist tr w) (hg : Genuine hist w)
    (hact : w.Acts x msg t w') (hm' : Matching hist' (tr ++ t.events) w')
    (hgrown : Grown hist hist' w') : Lined hist' (tr ++ t.events) w' := by
  intro c T v hc hv
  rcases List.mem_append.mp hc with hold | hnew
  · refine Streamed.grow ?_ (hgrown.le T) (hgrown.new_of_elected hm hact hm' hold)
    have hline := h c T v hold hv
    by_cases hxv : v = x
    · subst hxv
      rw [hact.node_self]
      exact hact.streamed_of_follower hm hm' hg hold hv hline
    rw [hact.node_ne hxv]
    by_cases hxc : c = x
    · subst hxc
      exact hline.drawn (hact.drawn_of_leader hm hm' hold hv)
    · have hsame : w'.line T c v = w.line T c v := by
        simp only [World.line, World.entries, World.answers, hact.node_ne hxc,
          hact.inbox_ne hxv, hact.inbox_ne hxc, if_neg hxc, if_neg hxv, List.append_nil]
      rwa [hsame]
  · obtain ⟨hx, -⟩ := (hact.replicates hm).electoral.elected_mem hnew
    obtain rfl := hx.trans (hm.connected.id x)
    exact hact.streamed_of_elected hm hm' hnew hv

/-- One steady step of the cluster. -/
theorem step (h : Lined hist tr w) (hm : Matching hist tr w) (hg : Genuine hist w) {a : Action n}
    (hsteady : w.Steady a) (hstep : step w a = some (w', out)) (hm' : Matching hist' (tr ++ out) w')
    (hgrown : Grown hist hist' w') : Lined hist' (tr ++ out) w' := by
  rcases steady_cases hsteady hstep with ⟨rfl, hnode, hinbox⟩ | ⟨x, msg, t, hact, rfl, -⟩
  · obtain rfl := hgrown.eq_of_node hnode hm.histories hm'.histories
    rw [List.append_nil]
    intro c T v hc hv
    have hsame : w'.line T c v = w.line T c v := by
      simp only [World.line, World.entries, World.answers, hnode, hinbox]
    rw [hnode, hsame]
    exact h c T v hc hv
  · exact h.turn hm hg hact hm' hgrown

end Lined

end Consensus
