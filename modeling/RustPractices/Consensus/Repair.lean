import RustPractices.Consensus.Ledger
import RustPractices.Consensus.LogMatching
import RustPractices.Replication.Probing

/-!
# The repair of a follower's log

A leader that has been elected sends its last entry to a follower, and goes on from the follower's
answers, one entry back or forward at a time. Every heartbeat sends the pending entry once more. The
leader and the follower with the messages in flight between them, in both directions in order, are
an exchange of their own.

An entry that is acknowledged by a majority is applied on the way, and what `apply_log` cannot do, it
answers with a panic.

## Main definitions

* `RaftNode.Applicable`: entries that can be applied
* `Exchange`, `exchange`: a leader and a follower, and all interleavings of deliveries and heartbeats
* `Exchange.Started`: the start of a repair
* `Exchange.Applies`: a step applies only what can be applied

## Main results

* `applyLogs_panicked_iff`: applying entries panics exactly when they cannot be applied
* `Refines.step`: the exchange probes for the end of the common prefix
* `repair_converges`: the follower gets the log of the leader
-/

open Transition Replication

namespace Consensus

variable {n : ℕ}

/-! ## What can be applied -/

namespace RaftNode

/-- The commands of `count` entries from `index` on. -/
def commandsFrom (s : RaftNode n) (index count : ℕ) : List Command :=
  ((s.log.drop index).take count).map fun entry => entry.entry.command

/-- The entries can be applied: the log file has room for them, and replayed with balances that have
no range, none of their commands leaves a balance outside of the range. -/
structure Applicable (s : RaftNode n) (index count : ℕ) : Prop where
  room : count = 0 ∨ s.networkNode.logEntryNo + count < 2 ^ 32
  fits : ∀ done, done <+: s.commandsFrom index count → (s.book.ledger.executeAll done).Fits

theorem commandsFrom_succ {s : RaftNode n} {index count : ℕ} {entry : LogEntry}
    (h : s.log[index]? = some entry) :
    s.commandsFrom index (count + 1) =
      entry.entry.command :: s.commandsFrom (index + 1) count := by
  obtain ⟨hlt, rfl⟩ := List.getElem?_eq_some_iff.mp h
  rw [commandsFrom, List.drop_eq_getElem_cons hlt, List.take_succ_cons, List.map_cons]
  rfl

/-- The first of the entries can be applied, and then the others. -/
theorem applicable_succ {s : RaftNode n} {index count : ℕ} {entry : LogEntry}
    (h : s.log[index]? = some entry) : s.Applicable index (count + 1) ↔
      ∃ networkNode book, s.networkNode.append entry.entry = some networkNode ∧
        s.book.execute checkedAdd entry.entry.command = some book ∧
        ({ s with networkNode, book, committed := s.committed + 1 } : RaftNode n).Applicable
          (index + 1) count := by
  have hcmds : s.commandsFrom index (count + 1) =
      entry.entry.command :: s.commandsFrom (index + 1) count := commandsFrom_succ h
  constructor
  · rintro ⟨hroom, hfits⟩
    rw [hcmds] at hfits
    have hroom' : s.networkNode.logEntryNo + 1 + count < 2 ^ 32 := by omega
    rcases s.book.follows_or_overflows entry.entry.command with ⟨book, hchecked, -, hledger⟩ |
      ⟨-, hover⟩
    · refine ⟨_, book, if_pos (by omega), hchecked, .inr hroom', fun done hdone => ?_⟩
      have hexec := hfits _ (List.cons_prefix_cons.mpr ⟨rfl, hdone⟩)
      show (book.ledger.executeAll done).Fits
      rwa [hledger]
    · exact absurd (hfits _ (List.cons_prefix_cons.mpr ⟨rfl, List.nil_prefix⟩)) hover
  · rintro ⟨networkNode, book, happend, hchecked, hroom, hfits⟩
    obtain ⟨hlt, rfl⟩ : s.networkNode.logEntryNo + 1 < 2 ^ 32 ∧
        { logFile := s.networkNode.logFile ++ [(s.networkNode.logEntryNo + 1, entry.entry)]
          logEntryNo := s.networkNode.logEntryNo + 1 } = networkNode := by
      simpa [NetworkNode.append] using happend
    refine ⟨.inr ?_, fun done hdone => ?_⟩
    · rcases hroom with rfl | hroom
      · exact hlt
      · show s.networkNode.logEntryNo + (count + 1) < 2 ^ 32
        dsimp only at hroom
        omega
    · rw [hcmds] at hdone
      cases done with
      | nil => exact s.book.fits_ledger
      | cons cmd done =>
        obtain ⟨rfl, hdone'⟩ := List.cons_prefix_cons.mp hdone
        rcases s.book.follows_or_overflows entry.entry.command with ⟨book', hchecked', -, hledger⟩ |
          ⟨hnone, -⟩
        · obtain rfl := Option.some.inj (hchecked'.symm.trans hchecked)
          have hexec := hfits done hdone'
          dsimp only at hexec
          rwa [hledger] at hexec
        · rw [hnone] at hchecked
          exact absurd hchecked (by simp)

/-- **Applying entries** of the log panics exactly when they cannot be applied. -/
theorem applyLogs_panicked_iff {index count : ℕ} {s : RaftNode n}
    (h : count ≤ s.log.length - index) :
    (applyLogs index count s).panicked = false ↔ s.Applicable index count := by
  induction count generalizing index s with
  | zero =>
    refine iff_of_true rfl ⟨.inl rfl, fun done hdone => ?_⟩
    obtain rfl : done = [] := by simpa [commandsFrom] using hdone
    exact s.book.fits_ledger
  | succ count ih =>
    have hentry := List.getElem?_eq_getElem (show index < s.log.length by omega)
    generalize s.log[index] = entry at hentry
    rw [applicable_succ hentry, applyLogs]
    cases happend : s.networkNode.append entry.entry with
    | none =>
      have hpanic : s.applyLog index = .panic s := by simp [applyLog, hentry, happend]
      simp [hpanic, Turn.panic, Turn.andThen]
    | some networkNode =>
      cases hexec : s.book.execute checkedAdd entry.entry.command with
      | none =>
        have hpanic : (s.applyLog index).panicked = true := by
          simp [applyLog, hentry, happend, hexec]
        rw [Turn.andThen_of_panicked hpanic, hpanic]
        simp
      | some book =>
        have happly : s.applyLog index =
            { node := { s with networkNode, book }
              events := [.applied s.id index entry.entry] } := by
          simp [applyLog, hentry, happend, hexec]
        have hle : count ≤ ({ s with networkNode, book, committed := s.committed + 1 } :
            RaftNode n).log.length - (index + 1) := by
          show count ≤ s.log.length - (index + 1)
          omega
        have hrest := ih hle
        rw [happly, Turn.andThen_of_not_panicked rfl]
        refine Iff.trans hrest ⟨fun happ => ⟨_, _, rfl, rfl, happ⟩, ?_⟩
        rintro ⟨networkNode', book', hnet, hbook, happ⟩
        obtain rfl := Option.some.inj hnet
        obtain rfl := Option.some.inj hbook
        exact happ

/-- Entries behind the end of the log are not applied. -/
theorem applicable_iff (s : RaftNode n) (index count : ℕ) : s.Applicable index count ↔
    (count = 0 ∨ s.networkNode.logEntryNo + count < 2 ^ 32) ∧
      (applyLogs index (min count (s.log.length - index)) s).panicked = false := by
  have hcmds : s.commandsFrom index count =
      s.commandsFrom index (min count (s.log.length - index)) := by
    rw [commandsFrom, commandsFrom, ← List.length_drop, List.take_eq_take_min]
  rw [applyLogs_panicked_iff (min_le_right _ _)]
  constructor
  · rintro ⟨hroom, hfits⟩
    refine ⟨hroom, ?_, hcmds ▸ hfits⟩
    omega
  · rintro ⟨hroom, -, hfits⟩
    exact ⟨hroom, hcmds ▸ hfits⟩

instance (s : RaftNode n) (index count : ℕ) : Decidable (s.Applicable index count) :=
  decidable_of_iff' _ (s.applicable_iff index count)

end RaftNode

/-! ## The exchange -/

/-- A leader and a follower, and the messages between them that are in flight. -/
structure Exchange (n : ℕ) where
  leader : RaftNode n
  follower : RaftNode n
  entries : List (AppendEntry n)
  responses : List (AppendEntryResponse n)
  panicked : Bool

/-- What can happen next: the next message of either direction is delivered, or the leader sends a
heartbeat. -/
inductive Exchange.Action
  | appendEntry
  | appendEntryResponse
  | heartbeat
  deriving DecidableEq, Repr

/-- The messages with entries that a turn has sent to a node. -/
def Turn.entriesTo (t : Turn n) (dst : Fin n) : List (AppendEntry n) :=
  t.sent.filterMap fun
    | (y, .appendEntry msg) => if y = dst then some msg else none
    | _ => none

/-- The responses that a turn has sent to a node. -/
def Turn.responsesTo (t : Turn n) (dst : Fin n) : List (AppendEntryResponse n) :=
  t.sent.filterMap fun
    | (y, .appendEntryResponse msg) => if y = dst then some msg else none
    | _ => none

namespace Exchange

/-- A connection that works. -/
def up : ℕ → Fin n → Bool := fun _ _ => true

/-- One step of the exchange. After a panic nothing happens any more. -/
def step (s : Exchange n) : Action → Option (Exchange n × List Action)
  | .appendEntry =>
    if s.panicked then none
    else
      match s.entries with
      | [] => none
      | msg :: entries =>
        let t := msg.execute up s.follower
        some ({ s with
          follower := t.node
          entries
          responses := s.responses ++ t.responsesTo s.leader.id
          panicked := t.panicked }, [.appendEntry])
  | .appendEntryResponse =>
    if s.panicked then none
    else
      match s.responses with
      | [] => none
      | msg :: responses =>
        let t := msg.execute up s.leader
        some ({ s with
          leader := t.node
          responses
          entries := s.entries ++ t.entriesTo s.follower.id
          panicked := t.panicked }, [.appendEntryResponse])
  | .heartbeat =>
    if s.panicked then none
    else
      let t := s.leader.timedOut up
      some ({ s with
        leader := t.node
        entries := s.entries ++ t.entriesTo s.follower.id
        panicked := t.panicked }, [.heartbeat])

/-- **The start of a repair**: the leader has made its last entry the pending entry of the follower,
and has sent it. -/
structure Started (s : Exchange n) : Prop where
  role : s.leader.role = .leader
  log_ne_nil : s.leader.log ≠ []
  logEntrySuccess : s.leader.logEntrySuccess.length = s.leader.log.length
  leader_term : ∀ entry ∈ s.leader.log, 1 ≤ entry.term
  follower_term : ∀ entry ∈ s.follower.log, 1 ≤ entry.term
  /-- Entries with the same term at an index have the same entries before them. -/
  matching : ∀ (i : ℕ) entry entry', s.follower.log[i]? = some entry → s.leader.log[i]? = some entry' →
    entry.term = entry'.term → s.follower.log.take (i + 1) = s.leader.log.take (i + 1)
  term_le : s.follower.term ≤ s.leader.term
  follower_mem : s.follower.id ∈ s.leader.nodes
  leader_mem : s.leader.id ∈ s.follower.nodes
  nodup : s.leader.nodes.Nodup
  /-- No command of a client is on its way to the leader. -/
  pendingCmds : s.follower.pendingCmds = []
  pendingEntry : s.leader.pendingEntry s.follower.id = s.leader.lastEntryData
  entries : s.entries = [{
    nodeId := s.leader.id
    term := s.leader.term
    committed := s.leader.committed
    entry := s.leader.lastEntryData }]
  responses : s.responses = []
  panicked : s.panicked = false

/-- **The step applies only what can be applied.** -/
def Applies (s : Exchange n) : Action → Prop
  | .appendEntry => ∀ msg ∈ s.entries.head?, msg.entry = none →
      s.follower.Applicable s.follower.committed
        (min msg.committed s.follower.log.length - s.follower.committed)
  | .appendEntryResponse => ∀ msg ∈ s.responses.head?, msg.success = true →
      ∀ success, s.leader.logEntrySuccess[msg.index]? = some success →
      (s.leader.nodes.length + 1) / 2 < (insert msg.nodeId success).card →
      s.leader.Applicable s.leader.committed (msg.index + 1 - s.leader.committed)
  | .heartbeat => True

instance (s : Exchange n) : (a : Action) → Decidable (s.Applies a)
  | .appendEntry => inferInstanceAs (Decidable (∀ msg ∈ s.entries.head?, _ → _))
  | .appendEntryResponse => inferInstanceAs (Decidable (∀ msg ∈ s.responses.head?,
      msg.success = true → ∀ success ∈ s.leader.logEntrySuccess[msg.index]?, _ → _))
  | .heartbeat => inferInstanceAs (Decidable True)

end Exchange

/-- **The exchange** from a start: all interleavings of deliveries and heartbeats. -/
def exchange (start : Exchange n) : Machine (Exchange n) Exchange.Action Exchange.Action where
  init := start
  step := Exchange.step

/-! ## What the handlers do in the exchange -/

section Handlers

variable {s : RaftNode n}

theorem Turn.mk_eq {t : Turn n} (hsent : t.sent = []) (hpanicked : t.panicked = false) :
    t = { node := t.node, events := t.events } := by
  obtain ⟨node, sent, events, panicked⟩ := t
  obtain rfl : sent = [] := hsent
  obtain rfl : panicked = false := hpanicked
  rfl

/-- A follower without pending commands follows the sender and answers, and does nothing else. -/
theorem AppendEntry.execute_eq_answer (self : AppendEntry n) (up : ℕ → Fin n → Bool)
    (hterm : s.term ≤ self.term) (hcmds : s.pendingCmds = []) :
    ∃ events, self.execute up s = { self.answer up (self.follow s) with events } := by
  obtain ⟨_, _, _, _, _, hnode⟩ := self.answer_node up (self.follow s)
  have hnone : (self.answer up (self.follow s)).node.pendingCmds = [] := by
    rw [hnode]
    exact hcmds
  have hfirst : (⟨self.follow s, [], [.raised s.id self.term], false⟩ : Turn n).andThen
      (self.answer up) = { self.answer up (self.follow s) with
        events := .raised s.id self.term :: (self.answer up (self.follow s)).events } := by
    rw [Turn.andThen_of_not_panicked rfl]
    rfl
  refine ⟨.raised s.id self.term :: (self.answer up (self.follow s)).events, ?_⟩
  rw [AppendEntry.execute, if_pos hterm]
  simp only [hfirst]
  cases hpanicked : (self.answer up (self.follow s)).panicked with
  | true => rw [Turn.andThen_of_panicked rfl]
  | false =>
    rw [Turn.andThen_of_not_panicked rfl]
    simp [hnone]

/-- Over a connection that works, an entry is taken over exactly when the entry before it matches. -/
theorem AppendEntry.respond_eq (self : AppendEntry n) (entry : EntryData)
    (hmem : self.nodeId ∈ s.nodes) :
    self.respond entry Exchange.up s =
      if entry.prevTerm = s.prevEntryTerm entry.index then
        { node := (s.truncateLog entry.index).pushLogEntry
            { term := entry.term, entry := entry.command }
          sent := [(self.nodeId, .appendEntryResponse ⟨s.id, self.term, entry.index, true⟩)]
          events := [.accepted s.id self.nodeId self.term entry.index] }
      else
        { node := s
          sent := [(self.nodeId, .appendEntryResponse ⟨s.id, self.term, entry.index, false⟩)] } := by
  by_cases hprev : entry.prevTerm = s.prevEntryTerm entry.index
  · simp [AppendEntry.respond, Exchange.up, hmem, hprev]
  · simp [AppendEntry.respond, Exchange.up, hmem, hprev]

/-- A message without an entry applies the log as far as the sender has applied its own. -/
theorem AppendEntry.answer_of_none (self : AppendEntry n) (up : ℕ → Fin n → Bool)
    (hnone : self.entry = none)
    (happ : s.Applicable s.committed (min self.committed s.log.length - s.committed)) :
    ∃ networkNode book committed events,
      self.answer up s = { node := { s with networkNode, book, committed }, events } := by
  simp only [AppendEntry.answer, hnone]
  split_ifs
  · have hle := Nat.sub_le_sub_right (min_le_right self.committed s.log.length) s.committed
    have hpanicked := (RaftNode.applyLogs_panicked_iff hle).mpr happ
    have hsent := RaftNode.applyLogs_sent s.committed
      (min self.committed s.log.length - s.committed) s
    obtain ⟨networkNode, book, committed, hnode⟩ := RaftNode.applyLogs_node s.committed
      (min self.committed s.log.length - s.committed) s
    generalize RaftNode.applyLogs s.committed (min self.committed s.log.length - s.committed) s = t
      at hpanicked hsent hnode
    refine ⟨networkNode, book, committed, t.events, ?_⟩
    rw [← hnode]
    exact Turn.mk_eq hsent hpanicked
  · exact ⟨s.networkNode, s.book, s.committed, [], rfl⟩

/-- Over a connection that works, the entry that a response asks for becomes the pending entry, and
is sent if there is one. -/
theorem AppendEntryResponse.sendEntry_eq (self : AppendEntryResponse n) (index : ℕ)
    (hmem : self.nodeId ∈ s.nodes) :
    self.sendEntry index Exchange.up s =
      { node := { s with
          pendingEntry := Function.update s.pendingEntry self.nodeId (s.newEntryData index) }
        sent := if (s.newEntryData index).isSome then
          [(self.nodeId, s.newAppendEntryMsg (s.newEntryData index))] else [] } := by
  simp [AppendEntryResponse.sendEntry, Exchange.up, hmem]

/-- **What a response does** in its own term, unless applying entries panics. -/
theorem AppendEntryResponse.execute_eq (self : AppendEntryResponse n) {j : ℕ}
    (hterm : s.term = self.term) (hmem : self.nodeId ∈ s.nodes)
    (hj : self.success = true ∧ j = self.index + 1 ∨ self.success = false ∧ self.index = j + 1)
    (hack : self.success = true → (self.acknowledge s).panicked = false) :
    ∃ logEntrySuccess networkNode book committed events,
      logEntrySuccess.length = s.logEntrySuccess.length ∧
      self.execute Exchange.up s =
        { node := { s with
            logEntrySuccess, networkNode, book, committed
            pendingEntry := Function.update s.pendingEntry self.nodeId (s.newEntryData j) }
          sent := if (s.newEntryData j).isSome then [(self.nodeId, .appendEntry
            { nodeId := s.id, term := s.term, committed, entry := s.newEntryData j })] else []
          events } := by
  rw [AppendEntryResponse.execute, if_pos hterm]
  rcases hj with ⟨hsuccess, rfl⟩ | ⟨hfail, hindex⟩
  · obtain ⟨logEntrySuccess, networkNode, book, committed, hnode⟩ := self.acknowledge_node s
    have hlength := self.acknowledge_length (s := s)
    rw [hnode] at hlength
    refine ⟨logEntrySuccess, networkNode, book, committed, (self.acknowledge s).events, hlength, ?_⟩
    rw [if_pos hsuccess, Turn.andThen_of_not_panicked (hack hsuccess), hnode,
      self.sendEntry_eq _ (by exact hmem), self.acknowledge_sent]
    simp only [List.append_nil, List.nil_append]
    rfl
  · refine ⟨s.logEntrySuccess, s.networkNode, s.book, s.committed, [], rfl, ?_⟩
    rw [if_neg (by simp [hfail]), hindex]
    exact self.sendEntry_eq j hmem

/-- Counting a response panics only when an entry that it commits cannot be applied. -/
theorem AppendEntryResponse.acknowledge_panicked (self : AppendEntryResponse n)
    (hlt : self.index < s.log.length) (hlength : s.logEntrySuccess.length = s.log.length)
    (happ : ∀ success, s.logEntrySuccess[self.index]? = some success →
      (s.nodes.length + 1) / 2 < (insert self.nodeId success).card →
      s.Applicable s.committed (self.index + 1 - s.committed)) :
    (self.acknowledge s).panicked = false := by
  unfold AppendEntryResponse.acknowledge
  split_ifs with hle
  · have hsuccess := List.getElem?_eq_getElem (show self.index < s.logEntrySuccess.length by omega)
    rw [hsuccess]
    dsimp only
    split_ifs with hmajority
    · have happ' := happ _ hsuccess hmajority
      refine (RaftNode.applyLogs_panicked_iff ?_).mpr ⟨happ'.room, happ'.fits⟩
      show self.index + 1 - s.committed ≤ s.log.length - s.committed
      omega
    · rfl
  · rfl

/-- Over a connection that works, everything is sent. -/
theorem RaftNode.sendAll_eq (dsts : List (Fin n)) (msg : Fin n → Message n) :
    RaftNode.sendAll Exchange.up dsts msg = dsts.map fun dst => (dst, msg dst) := by
  rw [RaftNode.sendAll, List.filter_eq_self.mpr]
  · conv_rhs => rw [← List.zipIdx_map_fst 0 dsts, List.map_map]
    rfl
  · exact fun _ _ => rfl

theorem filterMap_eq_singleton {α β : Type*} [DecidableEq α] {l : List α} {a : α} (f : α → β)
    (hnodup : l.Nodup) (hmem : a ∈ l) :
    l.filterMap (fun b => if b = a then some (f b) else none) = [f a] := by
  induction l with
  | nil => simp at hmem
  | cons b l ih =>
    obtain ⟨hnot, hnodup⟩ := List.nodup_cons.mp hnodup
    by_cases hb : b = a
    · subst hb
      have hnone : l.filterMap (fun c => if c = b then some (f c) else none) = [] := by
        rw [List.filterMap_eq_nil_iff]
        intro c hc
        exact if_neg fun heq : c = b => hnot (heq ▸ hc)
      simp [hnone]
    · rw [List.filterMap_cons, if_neg hb]
      exact ih hnodup ((List.mem_cons.mp hmem).resolve_left (Ne.symm hb))

/-- A heartbeat sends the pending entry to a follower. -/
theorem RaftNode.timedOut_eq (s : RaftNode n) {dst : Fin n} (hrole : s.role = .leader)
    (hnodup : s.nodes.Nodup) (hmem : dst ∈ s.nodes) :
    (s.timedOut Exchange.up).node = s ∧ (s.timedOut Exchange.up).panicked = false ∧
      (s.timedOut Exchange.up).entriesTo dst = [{
        nodeId := s.id, term := s.term, committed := s.committed, entry := s.pendingEntry dst }] := by
  rw [RaftNode.timedOut, if_pos hrole]
  refine ⟨rfl, rfl, ?_⟩
  rw [Turn.entriesTo, RaftNode.sendAll_eq, List.filterMap_map]
  exact filterMap_eq_singleton _ hnodup hmem

end Handlers

/-! ## The exchange as a probe -/

/-- The data of an entry of a log. -/
def entryAt (log : List LogEntry) (i : ℕ) : Option EntryData :=
  log[i]?.map fun entry =>
    { index := i, prevTerm := termBefore LogEntry.term log i, term := entry.term
      command := entry.entry }

theorem RaftNode.newEntryData_eq (s : RaftNode n) (i : ℕ) :
    s.newEntryData i = entryAt s.log i := by
  simp only [newEntryData, entryAt, prevEntryTerm_eq]

theorem RaftNode.lastEntryData_eq (s : RaftNode n) (h : s.log ≠ []) :
    s.lastEntryData = entryAt s.log (s.log.length - 1) := by
  obtain ⟨len, hlen⟩ := Nat.exists_eq_succ_of_ne_zero (List.length_pos_of_ne_nil h).ne'
  rw [lastEntryData, hlen]
  exact s.newEntryData_eq len

/-- The entry at an index fits to a log when the entries before it have the same term. -/
def fits (log log' : List LogEntry) (i : ℕ) : Bool :=
  termBefore LogEntry.term log i == termBefore LogEntry.term log' i

/-- What a follower holds that began with `log'` and has taken entries of `log`. -/
def heldLog (log log' : List LogEntry) : Option ℕ → List LogEntry
  | none => log'
  | some m => log.take m

/-- A message carries the entry at an index of the leader's log, or none behind its end. -/
structure AppendEntry.Carries (msg : AppendEntry n) (leader : Fin n) (term : ℕ)
    (log : List LogEntry) (i : ℕ) : Prop where
  nodeId : msg.nodeId = leader
  term_eq : msg.term = term
  entry : msg.entry = entryAt log i

/-- A response asks for the entry at an index. -/
structure AppendEntryResponse.Asks (msg : AppendEntryResponse n) (follower : Fin n) (term len : ℕ)
    (j : ℕ) : Prop where
  nodeId : msg.nodeId = follower
  term_eq : msg.term = term
  index_lt : msg.index < len
  next : msg.success = true ∧ j = msg.index + 1 ∨ msg.success = false ∧ msg.index = j + 1

/-- **The exchange is a probe**, where the leader's log is `log` and the follower's was `log'`. -/
structure Refines (log log' : List LogEntry) (s : Exchange n) (p : Probe) : Prop where
  role : s.leader.role = .leader
  leader_log : s.leader.log = log
  logEntrySuccess : s.leader.logEntrySuccess.length = log.length
  follower_mem : s.follower.id ∈ s.leader.nodes
  leader_mem : s.leader.id ∈ s.follower.nodes
  nodup : s.leader.nodes.Nodup
  pendingCmds : s.follower.pendingCmds = []
  term_le : s.follower.term ≤ s.leader.term
  follower_log : s.follower.log = heldLog log log' p.taken
  pendingEntry : s.leader.pendingEntry s.follower.id = entryAt log p.current
  entries : s.entries.Forall₂ (·.Carries s.leader.id s.leader.term log) p.entries
  responses : s.responses.Forall₂ (·.Asks s.follower.id s.leader.term log.length) p.answers
  panicked : s.panicked = false

section Refinement

variable {log log' : List LogEntry} {s t : Exchange n} {p : Probe}

/-- What the two logs of a repair have in common. -/
structure Comparable (log log' : List LogEntry) : Prop where
  term : ∀ entry ∈ log, 1 ≤ entry.term
  matching : ∀ (i : ℕ) entry entry', log'[i]? = some entry → log[i]? = some entry' →
    entry.term = entry'.term → log'.take (i + 1) = log.take (i + 1)

/-- The follower takes the entry at an index exactly when it holds what is before it. -/
theorem Comparable.takes_iff (h : Comparable log log') (p : Probe) {i : ℕ} (hi : i < log.length) :
    p.takes (fits log log') i = true ↔
      termBefore LogEntry.term log i = termBefore LogEntry.term (heldLog log log' p.taken) i := by
  unfold Probe.takes
  cases htaken : p.taken with
  | none => exact beq_iff_eq
  | some m =>
    simp only [heldLog, decide_eq_true_eq]
    constructor
    · intro hle
      refine termBefore_congr ?_
      rw [List.take_take, min_eq_left hle]
    · intro hterm
      by_contra hlt
      obtain ⟨k, rfl⟩ := Nat.exists_eq_succ_of_ne_zero (show i ≠ 0 by omega)
      -- behind the end of what it holds, the follower sees the term 0
      have hentry := List.getElem?_eq_getElem (show k < log.length by omega)
      have hpos := h.term _ (List.mem_of_getElem? hentry)
      have hnone : (log.take m)[k]? = none := by
        rw [List.getElem?_eq_none_iff, List.length_take]
        omega
      simp only [termBefore, hentry, hnone, Option.map_some, Option.map_none, Option.getD_some,
        Option.getD_none] at hterm
      omega

/-- With an entry that the follower takes, it holds the leader's log up to this entry. -/
theorem Comparable.take_append (h : Comparable log log') (p : Probe) {i : ℕ} {entry : LogEntry}
    (hentry : log[i]? = some entry) (htakes : p.takes (fits log log') i = true) :
    (heldLog log log' p.taken).take i ++ [entry] = heldLog log log' (some (i + 1)) := by
  obtain ⟨hi, rfl⟩ := List.getElem?_eq_some_iff.mp hentry
  have hheld : (heldLog log log' p.taken).take i = log.take i := by
    unfold Probe.takes at htakes
    cases htaken : p.taken with
    | none =>
      rw [htaken] at htakes
      refine take_eq_of_termBefore h.matching ?_ hi.le (beq_iff_eq.mp htakes)
      intro entry hmem hzero
      have := h.term entry hmem
      omega
    | some m =>
      rw [htaken] at htakes
      rw [heldLog, List.take_take, min_eq_left (by simpa using htakes)]
  rw [hheld, heldLog, List.take_add_one, hentry]
  rfl

namespace Refines

/-- Something is added behind a list on both sides. -/
theorem forall₂_append_singleton {α β : Type*} {R : α → β → Prop} {l : List α} {l' : List β} {a : α}
    {b : β} (h : l.Forall₂ R l') (hab : R a b) : (l ++ [a]).Forall₂ R (l' ++ [b]) :=
  List.rel_append h (.cons hab .nil)

/-- The follower takes a step. -/
theorem withFollower (h : Refines log log' s p) {follower : RaftNode n}
    {entries : List (AppendEntry n)} {responses : List (AppendEntryResponse n)} {p' : Probe}
    (hid : follower.id = s.follower.id) (hnodes : follower.nodes = s.follower.nodes)
    (hcmds : follower.pendingCmds = []) (hterm : follower.term ≤ s.leader.term)
    (hlog : follower.log = heldLog log log' p'.taken) (hcurrent : p'.current = p.current)
    (hentries : entries.Forall₂ (·.Carries s.leader.id s.leader.term log) p'.entries)
    (hresponses : responses.Forall₂ (·.Asks s.follower.id s.leader.term log.length) p'.answers) :
    Refines log log' { s with follower, entries, responses } p' where
  role := h.role
  leader_log := h.leader_log
  logEntrySuccess := h.logEntrySuccess
  follower_mem := hid ▸ h.follower_mem
  leader_mem := hnodes ▸ h.leader_mem
  nodup := h.nodup
  pendingCmds := hcmds
  term_le := hterm
  follower_log := hlog
  pendingEntry := by
    rw [hid, hcurrent]
    exact h.pendingEntry
  entries := hentries
  responses := hid ▸ hresponses
  panicked := h.panicked

/-- A message is delivered to the follower. -/
theorem appendEntry (h : Refines log log' s p) (hc : Comparable log log')
    (happ : s.Applies .appendEntry) {out : List Exchange.Action}
    (hstep : s.step .appendEntry = some (t, out)) : out = [.appendEntry] ∧
      ∃ p', p.step log.length (fits log log') .entry = some (p', [.entry]) ∧
        Refines log log' t p' := by
  obtain ⟨leader, follower, entries, responses, panicked⟩ := s
  obtain ⟨pentries, current, answers, taken⟩ := p
  obtain rfl : panicked = false := h.panicked
  have hentries := h.entries
  have hresponses := h.responses
  dsimp only at hentries hresponses
  cases hentries with
  | nil => simp [Exchange.step] at hstep
  | @cons msg i entries pentries hmsg hentries =>
    have hterm : follower.term ≤ msg.term := hmsg.term_eq ▸ h.term_le
    obtain ⟨events, hexec⟩ := msg.execute_eq_answer Exchange.up hterm h.pendingCmds
    simp only [Exchange.step, Bool.false_eq_true, if_false, hexec, Option.some.injEq,
      Prod.mk.injEq] at hstep
    obtain ⟨rfl, rfl⟩ := hstep
    refine ⟨rfl, ?_⟩
    have hentry := hmsg.entry
    rcases lt_or_ge i log.length with hi | hi
    · have hget := List.getElem?_eq_getElem hi
      generalize log[i] = entry at hget
      have hdata : msg.entry = some ⟨i, termBefore LogEntry.term log i, entry.term, entry.entry⟩ := by
        rw [hentry, entryAt, hget]
        rfl
      have hmem : msg.nodeId ∈ (msg.follow follower).nodes := hmsg.nodeId ▸ h.leader_mem
      have hprev : (msg.follow follower).prevEntryTerm i =
          termBefore LogEntry.term (heldLog log log' taken) i := by
        rw [RaftNode.prevEntryTerm_eq]
        exact congrArg (termBefore LogEntry.term · i) h.follower_log
      have htakes := hc.takes_iff ⟨i :: pentries, current, answers, taken⟩ hi
      simp only [AppendEntry.answer, hdata, msg.respond_eq _ hmem, hprev]
      by_cases hfits : termBefore LogEntry.term log i =
          termBefore LogEntry.term (heldLog log log' taken) i
      · have htakes' := htakes.mpr hfits
        rw [if_pos hfits]
        refine ⟨⟨pentries, current, answers ++ [i + 1], some (i + 1)⟩, ?_, ?_⟩
        · simp only [Probe.step, if_pos hi, if_pos htakes']
        · refine h.withFollower rfl rfl h.pendingCmds hmsg.term_eq.le ?_ rfl hentries ?_
          · rw [← hc.take_append _ hget htakes', ← h.follower_log]
            rfl
          · simp only [Turn.responsesTo, hmsg.nodeId, if_true, List.filterMap_cons, List.filterMap_nil]
            exact forall₂_append_singleton hresponses ⟨rfl, hmsg.term_eq, hi, .inl ⟨rfl, rfl⟩⟩
      · have htakes' := mt htakes.mp hfits
        have hpos : i = i - 1 + 1 := by
          have : i ≠ 0 := by
            rintro rfl
            exact hfits rfl
          omega
        rw [if_neg hfits]
        refine ⟨⟨pentries, current, answers ++ [i - 1], taken⟩, ?_, ?_⟩
        · simp only [Probe.step, if_pos hi, if_neg htakes']
        · refine h.withFollower rfl rfl h.pendingCmds hmsg.term_eq.le h.follower_log rfl hentries ?_
          simp only [Turn.responsesTo, hmsg.nodeId, if_true, List.filterMap_cons, List.filterMap_nil]
          exact forall₂_append_singleton hresponses ⟨rfl, hmsg.term_eq, hi, .inr ⟨rfl, hpos⟩⟩
    · have hnone : msg.entry = none := by
        rw [hentry, entryAt, List.getElem?_eq_none_iff.mpr hi]
        rfl
      refine ⟨⟨pentries, current, answers, taken⟩, ?_, ?_⟩
      · simp only [Probe.step, if_neg (not_lt.mpr hi)]
      have happ' := happ msg rfl hnone
      have hidle := msg.answer_of_none Exchange.up hnone (s := msg.follow follower)
        ⟨happ'.room, happ'.fits⟩
      obtain ⟨networkNode, book, committed, events', hidle⟩ := hidle
      rw [hidle]
      refine h.withFollower rfl rfl h.pendingCmds hmsg.term_eq.le h.follower_log rfl hentries ?_
      simpa [Turn.responsesTo] using hresponses

/-- The leader takes a step. -/
theorem withLeader (h : Refines log log' s p) {leader : RaftNode n}
    {entries : List (AppendEntry n)} {responses : List (AppendEntryResponse n)} {p' : Probe}
    (hid : leader.id = s.leader.id) (hrole : leader.role = .leader)
    (hlog : leader.log = s.leader.log) (hnodes : leader.nodes = s.leader.nodes)
    (hterm : leader.term = s.leader.term)
    (hsuccess : leader.logEntrySuccess.length = s.leader.logEntrySuccess.length)
    (htaken : p'.taken = p.taken)
    (hpending : leader.pendingEntry s.follower.id = entryAt log p'.current)
    (hentries : entries.Forall₂ (·.Carries s.leader.id s.leader.term log) p'.entries)
    (hresponses : responses.Forall₂ (·.Asks s.follower.id s.leader.term log.length) p'.answers) :
    Refines log log' { s with leader, entries, responses } p' where
  role := hrole
  leader_log := hlog.trans h.leader_log
  logEntrySuccess := hsuccess.trans h.logEntrySuccess
  follower_mem := hnodes ▸ h.follower_mem
  leader_mem := hid ▸ h.leader_mem
  nodup := hnodes ▸ h.nodup
  pendingCmds := h.pendingCmds
  term_le := hterm ▸ h.term_le
  follower_log := htaken ▸ h.follower_log
  pendingEntry := hpending
  entries := hid ▸ hterm ▸ hentries
  responses := hterm ▸ hresponses
  panicked := h.panicked

/-- A response is delivered to the leader. -/
theorem appendEntryResponse (h : Refines log log' s p) (happ : s.Applies .appendEntryResponse)
    {out : List Exchange.Action} (hstep : s.step .appendEntryResponse = some (t, out)) :
    out = [.appendEntryResponse] ∧
      ∃ p', p.step log.length (fits log log') .answer = some (p', [.answer]) ∧
        Refines log log' t p' := by
  obtain ⟨leader, follower, entries, responses, panicked⟩ := s
  obtain ⟨pentries, current, answers, taken⟩ := p
  obtain rfl : panicked = false := h.panicked
  have hentries := h.entries
  have hresponses := h.responses
  dsimp only at hentries hresponses
  cases hresponses with
  | nil => simp [Exchange.step] at hstep
  | @cons msg j responses answers hmsg hresponses =>
    obtain rfl : leader.log = log := h.leader_log
    have hack : msg.success = true → (msg.acknowledge leader).panicked = false := fun hsuccess =>
      msg.acknowledge_panicked hmsg.index_lt h.logEntrySuccess (happ msg rfl hsuccess)
    have hmem : msg.nodeId ∈ leader.nodes := hmsg.nodeId ▸ h.follower_mem
    obtain ⟨logEntrySuccess, networkNode, book, committed, events, hlength, hexec⟩ :=
      msg.execute_eq hmsg.term_eq.symm hmem hmsg.next hack
    simp only [Exchange.step, Bool.false_eq_true, if_false, hexec, Option.some.injEq,
      Prod.mk.injEq] at hstep
    obtain ⟨rfl, rfl⟩ := hstep
    refine ⟨rfl, ⟨if j < leader.log.length then pentries ++ [j] else pentries, j, answers, taken⟩,
      rfl, ?_⟩
    refine h.withLeader rfl h.role rfl rfl rfl hlength rfl ?_ ?_ hresponses
    · show Function.update leader.pendingEntry msg.nodeId (leader.newEntryData j) follower.id = _
      rw [hmsg.nodeId, Function.update_self, leader.newEntryData_eq]
    · by_cases hj : j < leader.log.length
      · have hsome : (leader.newEntryData j).isSome = true := by
          simp [leader.newEntryData_eq, entryAt, hj]
        simp only [Turn.entriesTo, hsome, hmsg.nodeId, if_true, List.filterMap_cons,
          List.filterMap_nil, if_pos hj]
        exact forall₂_append_singleton hentries ⟨rfl, rfl, leader.newEntryData_eq j⟩
      · have hnone : (leader.newEntryData j).isSome = false := by
          simp [leader.newEntryData_eq, entryAt, not_lt.mp hj]
        simpa [Turn.entriesTo, hnone, if_neg hj] using hentries

/-- The leader sends a heartbeat. -/
theorem heartbeat (h : Refines log log' s p) {out : List Exchange.Action}
    (hstep : s.step .heartbeat = some (t, out)) : out = [.heartbeat] ∧
      ∃ p', p.step log.length (fits log log') .resend = some (p', [.resend]) ∧
        Refines log log' t p' := by
  obtain ⟨leader, follower, entries, responses, panicked⟩ := s
  obtain rfl : panicked = false := h.panicked
  obtain ⟨hnode, hpanicked, hsent⟩ := leader.timedOut_eq h.role h.nodup h.follower_mem
  simp only [Exchange.step, Bool.false_eq_true, if_false, hnode, hpanicked, Option.some.injEq,
    Prod.mk.injEq] at hstep
  obtain ⟨rfl, rfl⟩ := hstep
  refine ⟨rfl, _, rfl, ?_⟩
  refine h.withLeader rfl h.role rfl rfl rfl rfl rfl h.pendingEntry ?_ h.responses
  dsimp only at hsent
  rw [hsent]
  exact forall₂_append_singleton h.entries ⟨rfl, rfl, h.pendingEntry⟩

end Refines

/-- What the probe does when the exchange takes a step. -/
def Exchange.Action.toProbe : Exchange.Action → Probe.Action
  | .appendEntry => .entry
  | .appendEntryResponse => .answer
  | .heartbeat => .resend

/-- **One step of the exchange is a step of the probe.** -/
theorem Refines.step (h : Refines log log' s p) (hc : Comparable log log') {a : Exchange.Action}
    (happ : s.Applies a) {out : List Exchange.Action} (hstep : s.step a = some (t, out)) :
    ∃ p', p.step log.length (fits log log') a.toProbe =
      some (p', out.map Exchange.Action.toProbe) ∧ Refines log log' t p' := by
  cases a with
  | appendEntry =>
    obtain ⟨rfl, hprobe⟩ := h.appendEntry hc happ hstep
    exact hprobe
  | appendEntryResponse =>
    obtain ⟨rfl, hprobe⟩ := h.appendEntryResponse happ hstep
    exact hprobe
  | heartbeat =>
    obtain ⟨rfl, hprobe⟩ := h.heartbeat hstep
    exact hprobe

end Refinement

/-! ## Along every run -/

namespace Exchange

/-- The number of deliveries. -/
def delivered (tr : List Action) : ℕ := tr.countP (· ≠ .heartbeat)

/-- The number of heartbeats. -/
def heartbeats (tr : List Action) : ℕ := tr.count .heartbeat

/-- **The repair converges**: the log of the leader is `log`. -/
structure Converges (log : List LogEntry) (tr : List Action) (s : Exchange n) : Prop where
  panicked : s.panicked = false
  /-- The leader never looks for an entry before the first one. -/
  index_ne_zero : ∀ msg ∈ s.responses, msg.success = false → msg.index ≠ 0
  /-- Between the heartbeats there are only so many deliveries. -/
  delivered_le : delivered tr ≤ (4 * log.length + 1) * (heartbeats tr + 1)
  /-- As long as a message is in flight, one can be delivered. -/
  enabled : s.entries ≠ [] ∨ s.responses ≠ [] →
    (s.step .appendEntry).isSome ∨ (s.step .appendEntryResponse).isSome
  /-- When no message is in flight, the follower has the log of the leader. -/
  repaired : s.entries = [] → s.responses = [] →
    s.leader.pendingEntry s.follower.id = none ∧ s.follower.log = log ∧ s.leader.log = log

variable {start s : Exchange n} {tr : List Action}

theorem delivered_map (tr : List Action) :
    Probe.delivered (tr.map Action.toProbe) = delivered tr := by
  rw [Probe.delivered, delivered, List.countP_map]
  refine List.countP_congr fun a _ => ?_
  cases a <;> decide

theorem resent_map (tr : List Action) :
    Probe.resent (tr.map Action.toProbe) = heartbeats tr := by
  rw [Probe.resent, heartbeats, List.count, List.count, List.countP_map]
  refine List.countP_congr fun a _ => ?_
  cases a <;> decide

theorem Started.comparable (h : start.Started) :
    Comparable start.leader.log start.follower.log :=
  ⟨h.leader_term, h.matching⟩

/-- A repair starts where the probe starts. -/
theorem Started.refines (h : start.Started) :
    Refines start.leader.log start.follower.log start
      (probing start.leader.log.length (fits start.leader.log start.follower.log)).init where
  role := h.role
  leader_log := rfl
  logEntrySuccess := h.logEntrySuccess
  follower_mem := h.follower_mem
  leader_mem := h.leader_mem
  nodup := h.nodup
  pendingCmds := h.pendingCmds
  term_le := h.term_le
  follower_log := rfl
  pendingEntry := h.pendingEntry.trans (start.leader.lastEntryData_eq h.log_ne_nil)
  entries := by
    rw [h.entries]
    exact .cons ⟨rfl, rfl, start.leader.lastEntryData_eq h.log_ne_nil⟩ .nil
  responses := by
    rw [h.responses]
    exact .nil
  panicked := h.panicked

/-- Without a panic, a message that is in flight can be delivered. -/
theorem enabled_of_not_panicked (h : s.panicked = false)
    (hflight : s.entries ≠ [] ∨ s.responses ≠ []) :
    (s.step .appendEntry).isSome ∨ (s.step .appendEntryResponse).isSome := by
  rcases hflight with hflight | hflight
  · obtain ⟨msg, entries, hentries⟩ := List.exists_cons_of_ne_nil hflight
    exact .inl (by simp [step, h, hentries])
  · obtain ⟨msg, responses, hresponses⟩ := List.exists_cons_of_ne_nil hflight
    exact .inr (by simp [step, h, hresponses])

end Exchange

/-- **The follower gets the log of the leader**, as long as the steps apply only what can be
applied. -/
theorem repair_converges {start s : Exchange n} {tr : List Exchange.Action} (h : start.Started)
    (hrun : (exchange start).Run Exchange.Applies tr s) :
    Exchange.Converges start.leader.log tr s := by
  have hlen : 0 < start.leader.log.length := List.length_pos_of_ne_nil h.log_ne_nil
  have hzero : fits start.leader.log start.follower.log 0 = true := by
    simp [fits, termBefore]
  obtain ⟨p, hprobe, hrefines⟩ := hrun.simulates (N := probing start.leader.log.length
    (fits start.leader.log start.follower.log)) Exchange.Action.toProbe h.refines
    fun s p a t out hR happ hstep => ⟨a.toProbe, hR.step h.comparable happ hstep⟩
  refine ⟨hrefines.panicked, ?_, ?_, Exchange.enabled_of_not_panicked hrefines.panicked, ?_⟩
  · have hnext := hrefines.responses.imp fun msg j hasks =>
      (⟨fun hfail hzero => ?_, hasks⟩ : (msg.success = false → msg.index ≠ 0) ∧ _)
    · exact ((List.forall₂_and_left _ _).mp hnext).1
    · rcases hasks.next with ⟨hsuccess, -⟩ | ⟨-, hindex⟩
      · rw [hfail] at hsuccess
        exact Bool.noConfusion hsuccess
      · omega
  · have hbounded := probing_bounded hlen hzero hprobe
    rwa [Exchange.delivered_map, Exchange.resent_map] at hbounded
  · intro hentries hresponses
    have hpentries : p.entries = [] := by simpa [hentries] using hrefines.entries
    have hpanswers : p.answers = [] := by simpa [hresponses] using hrefines.responses
    obtain ⟨htaken, hcurrent⟩ := probing_converges hlen hzero hprobe hpentries hpanswers
    refine ⟨?_, ?_, hrefines.leader_log⟩
    · rw [hrefines.pendingEntry, hcurrent]
      simp [entryAt]
    · rw [hrefines.follower_log, htaken, heldLog, List.take_length]

/-- Node 0 leads with these commands, and node 1 has nothing of its log yet. -/
def Exchange.start (commands : List Command) : Exchange 2 :=
  let leader := { RaftNode.new 0 with
    role := .leader
    nodes := [1]
    term := 1
    log := commands.map fun command => { term := 1, entry := { tag := 0, command } }
    logEntrySuccess := commands.map fun _ => {0} }
  let leader := { leader with pendingEntry := fun _ => leader.lastEntryData }
  { leader
    follower := { RaftNode.new 1 with nodes := [0] }
    entries := [{ nodeId := 0, term := 1, committed := 0, entry := leader.lastEntryData }]
    responses := []
    panicked := false }

theorem Exchange.start_started {commands : List Command} (h : commands ≠ []) :
    (start commands).Started where
  role := rfl
  log_ne_nil := by simpa [start] using h
  logEntrySuccess := by simp [start]
  leader_term := by simp [start]
  follower_term := by simp [start, RaftNode.new]
  matching := by simp [start, RaftNode.new]
  term_le := by simp [start, RaftNode.new]
  follower_mem := by simp [start, RaftNode.new]
  leader_mem := by simp [start, RaftNode.new]
  nodup := by simp [start]
  pendingCmds := rfl
  pendingEntry := rfl
  entries := rfl
  responses := rfl
  panicked := rfl

/-- The follower does not take the last entry, and the leader goes back to the first one. A heartbeat
sends the last one once more. -/
theorem repair_converges_two : ∃ tr s, (exchange (.start [.openAccount "a", .deposit "a" 1])).Run
    Exchange.Applies tr s ∧ s.entries = [] ∧ s.responses = [] ∧ s.leader.committed = 2 ∧
      Exchange.Converges (Exchange.start [.openAccount "a", .deposit "a" 1]).leader.log tr s := by
  have hexec : (((exchange (.start [.openAccount "a", .deposit "a" 1])).guard
      Exchange.Applies).exec [.appendEntry, .heartbeat, .appendEntryResponse, .appendEntry,
        .appendEntry, .appendEntryResponse, .appendEntryResponse, .appendEntry, .appendEntry,
        .appendEntryResponse, .appendEntryResponse, .appendEntry, .appendEntryResponse]).map
      (fun r => (r.1.entries, r.1.responses, r.1.leader.committed)) = some ([], [], 2) := by
    decide +kernel
  obtain ⟨⟨s, tr⟩, hexec, hend⟩ := Option.map_eq_some_iff.mp hexec
  obtain ⟨hentries, hresponses, hcommitted⟩ := by simpa only [Prod.mk.injEq] using hend
  have hrun := Machine.Run.of_guard (Machine.run_exec hexec)
  exact ⟨tr, s, hrun, hentries, hresponses, hcommitted,
    repair_converges (Exchange.start_started (by simp)) hrun⟩

/-- **A repair can end in a panic**: the last entry has been taken, but it cannot be applied, and it
stays the pending entry. -/
theorem not_repair_converges_deposit : ∃ tr s,
    (Exchange.start [.openAccount "a", .deposit "a" (2 ^ 64 - 1), .deposit "a" 1]).Started ∧
    (exchange (.start [.openAccount "a", .deposit "a" (2 ^ 64 - 1), .deposit "a" 1])).Run
      Machine.unguarded tr s ∧
    s.entries = [] ∧ s.responses = [] ∧ s.leader.pendingEntry s.follower.id ≠ none ∧
      ∀ a, s.step a = none := by
  have hexec : ((exchange (.start
      [.openAccount "a", .deposit "a" (2 ^ 64 - 1), .deposit "a" 1])).exec
      [.appendEntry, .appendEntryResponse, .appendEntry, .appendEntryResponse, .appendEntry,
        .appendEntryResponse, .appendEntry, .appendEntryResponse, .appendEntry,
        .appendEntryResponse]).map
      (fun r => (r.1.entries, r.1.responses, (r.1.leader.pendingEntry r.1.follower.id).isSome,
        r.1.panicked)) = some ([], [], true, true) := by
    decide +kernel
  obtain ⟨⟨s, tr⟩, hexec, hend⟩ := Option.map_eq_some_iff.mp hexec
  obtain ⟨hentries, hresponses, hpending, hpanicked⟩ := by simpa only [Prod.mk.injEq] using hend
  refine ⟨tr, s, Exchange.start_started (by simp), Machine.run_exec hexec, hentries, hresponses,
    Option.isSome_iff_ne_none.mp hpending, fun a => ?_⟩
  cases a <;> simp [Exchange.step, hpanicked]

end Consensus
