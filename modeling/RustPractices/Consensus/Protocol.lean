import RustPractices.Consensus.Book

/-!
# The messages of the consensus protocol and their handlers

A node of the cluster executes one message after the other, and acts when no message has come for
a while. A handler changes the node, tries to send messages, and may panic, in which case what it
has done so far has been done. Whether a message can be sent depends on the network: `up k dst`
says whether the `k`-th message that a handler tries to send can reach `dst`.

A handler also exhibits what it does to the replicated log as events. The events and the tags on
the commands of the clients are history: no handler looks at them.

## Main definitions

* `Message`: the messages
* `RaftNode`: the state of a node
* `Event`, `Turn`: what a handler does
* `AppendEntry.execute`, `AppendEntryResponse.execute`, `RequestVote.execute`, `Vote.execute`,
  `Request.execute`, `Accept.execute`: the handlers
* `RaftNode.timedOut`: what a node does when no message has come for a while
-/

namespace Consensus

/-- A command as a client has sent it. The tag tells its occurrences apart. -/
structure Request where
  tag : ℕ
  command : Command
  deriving DecidableEq, Repr

structure LogInfo where
  latestTerm : ℕ
  len : ℕ
  deriving DecidableEq, Repr

/-- The order that is derived for `LogInfo`: the fields are compared one after the other. -/
instance : LE LogInfo where
  le a b := a.latestTerm < b.latestTerm ∨ a.latestTerm = b.latestTerm ∧ a.len ≤ b.len

instance (a b : LogInfo) : Decidable (a ≤ b) :=
  inferInstanceAs (Decidable (_ ∨ _ ∧ _))

structure LogEntry where
  term : ℕ
  entry : Request
  deriving DecidableEq, Repr

structure EntryData where
  index : ℕ
  prevTerm : ℕ
  term : ℕ
  command : Request
  deriving DecidableEq, Repr

/-- Nodes are compared by their numbers. -/
scoped instance instLawfulBEqNode (n : ℕ) : LawfulBEq (Fin n) := inferInstance

section Messages

variable (n : ℕ)

structure Accept where
  address : Fin n
  deriving DecidableEq, Repr

structure AppendEntry where
  nodeId : Fin n
  term : ℕ
  committed : ℕ
  entry : Option EntryData
  deriving DecidableEq, Repr

structure AppendEntryResponse where
  nodeId : Fin n
  term : ℕ
  index : ℕ
  success : Bool
  deriving DecidableEq, Repr

structure RequestVote where
  nodeId : Fin n
  term : ℕ
  latestLogInfo : LogInfo
  deriving DecidableEq, Repr

structure Vote where
  term : ℕ
  deriving DecidableEq, Repr

inductive Message
  | accept (msg : Accept n)
  | command (cmd : Request)
  | appendEntry (msg : AppendEntry n)
  | appendEntryResponse (msg : AppendEntryResponse n)
  | requestVote (msg : RequestVote n)
  | vote (msg : Vote)
  deriving DecidableEq, Repr

inductive Role
  | candidate
  | follower
  | leader
  deriving DecidableEq, Repr

/-- The log file of a network node, line by line, and `log_entry_no`. -/
structure NetworkNode where
  logFile : List (ℕ × Request)
  logEntryNo : ℕ

/-- The state of a node. The map `nodes` is kept as the list of its keys and the pending entry
of each of them. -/
structure RaftNode where
  id : Fin n
  role : Role
  networkNode : NetworkNode
  nodes : List (Fin n)
  pendingEntry : Fin n → Option EntryData
  leader : Option (Fin n)
  term : ℕ
  votes : ℕ
  log : List LogEntry
  logEntrySuccess : List (Finset (Fin n))
  pendingCmds : List Request
  committed : ℕ
  book : Book

/-- What a handler does to the replicated log. -/
inductive Event
  /-- The node starts an election in this term, and votes for itself. -/
  | candidacy (node : Fin n) (term : ℕ)
  /-- The node votes for the candidate. -/
  | granted (voter candidate : Fin n) (term : ℕ)
  /-- The term of the node is set. -/
  | raised (node : Fin n) (term : ℕ)
  /-- The node becomes the leader of this term. -/
  | elected (node : Fin n) (term : ℕ)
  /-- The node turns a command into a log entry. -/
  | created (node : Fin n) (term index : ℕ) (cmd : Request)
  /-- The node takes over an entry of the leader of this term. -/
  | accepted (node leader : Fin n) (term index : ℕ)
  /-- The node passes an entry of its log to `apply_log`. -/
  | applied (node : Fin n) (index : ℕ) (cmd : Request)
  deriving DecidableEq, Repr

/-- What a handler does: the state it leaves, the messages it has sent, what it has done to the
replicated log, and whether it has panicked. -/
structure Turn where
  node : RaftNode n
  sent : List (Fin n × Message n) := []
  events : List (Event n) := []
  panicked : Bool := false

end Messages

variable {n : ℕ}

namespace Turn

/-- The handler goes on with `f`, unless it has panicked. -/
def andThen (t : Turn n) (f : RaftNode n → Turn n) : Turn n :=
  if t.panicked then t
  else { f t.node with sent := t.sent ++ (f t.node).sent, events := t.events ++ (f t.node).events }

/-- The handler panics. -/
def panic (s : RaftNode n) : Turn n := { node := s, panicked := true }

end Turn

/-- `NetworkNode::append`, where the number of a line is a `u32`. -/
def NetworkNode.append (net : NetworkNode) (entry : Request) : Option NetworkNode :=
  if net.logEntryNo + 1 < 2 ^ 32 then
    some { logFile := net.logFile ++ [(net.logEntryNo + 1, entry)], logEntryNo := net.logEntryNo + 1 }
  else none

namespace RaftNode

/-- `RaftNode::new`. -/
def new (id : Fin n) : RaftNode n where
  id
  role := .follower
  networkNode := { logFile := [], logEntryNo := 0 }
  nodes := []
  pendingEntry := fun _ => none
  leader := none
  term := 0
  votes := 0
  log := []
  logEntrySuccess := []
  pendingCmds := []
  committed := 0
  book := fun _ => none

def latestLogInfo (s : RaftNode n) : LogInfo where
  latestTerm := (s.log.getLast?.map LogEntry.term).getD 0
  len := s.log.length

/-- `prev_entry_term`: the index before the first one wraps around, and no log is that long. -/
def prevEntryTerm (s : RaftNode n) : ℕ → ℕ
  | 0 => 0
  | index + 1 => (s.log[index]?.map LogEntry.term).getD 0

def newEntryData (s : RaftNode n) (index : ℕ) : Option EntryData :=
  s.log[index]?.map fun entry =>
    { index, prevTerm := s.prevEntryTerm index, term := entry.term, command := entry.entry }

def newAppendEntryMsg (s : RaftNode n) (entry : Option EntryData) : Message n :=
  .appendEntry { nodeId := s.id, term := s.term, committed := s.committed, entry }

def pushLogEntry (s : RaftNode n) (entry : LogEntry) : RaftNode n :=
  { s with log := s.log ++ [entry], logEntrySuccess := s.logEntrySuccess ++ [{s.id}] }

def truncateLog (s : RaftNode n) (len : ℕ) : RaftNode n :=
  { s with log := s.log.take len, logEntrySuccess := s.logEntrySuccess.take len }

/-- `drain_pending_cmds_to_log`. -/
def drainPendingCmdsToLog (s : RaftNode n) : Turn n where
  node := { s with
    log := s.log ++ s.pendingCmds.map fun cmd => { term := s.term, entry := cmd }
    logEntrySuccess := s.logEntrySuccess ++ List.replicate s.pendingCmds.length {s.id}
    pendingCmds := [] }
  events := s.pendingCmds.zipIdx.map fun (cmd, i) => .created s.id s.term (s.log.length + i) cmd

/-- The loop that sends the pending commands: those that have been sent, and those that have not
because a message could not be sent. -/
def sendCmds (up : ℕ → Bool) : ℕ → List Request → List Request × List Request
  | _, [] => ([], [])
  | k, cmd :: cmds =>
    if up k then (cmd :: (sendCmds up (k + 1) cmds).1, (sendCmds up (k + 1) cmds).2)
    else ([], cmd :: cmds)

/-- `send_pending_cmds_to_leader`. -/
def sendPendingCmdsToLeader (up : ℕ → Fin n → Bool) (s : RaftNode n) : Turn n :=
  match s.leader with
  | none => .panic s
  | some leader =>
    if leader ∈ s.nodes then
      { node := { s with pendingCmds := (sendCmds (up · leader) 0 s.pendingCmds).2 }
        sent := (sendCmds (up · leader) 0 s.pendingCmds).1.map fun cmd => (leader, .command cmd) }
    else .panic s

/-- `apply_log`. -/
def applyLog (s : RaftNode n) (index : ℕ) : Turn n :=
  match s.log[index]? with
  | none => .panic s
  | some entry =>
    match s.networkNode.append entry.entry with
    | none => .panic s
    | some networkNode =>
      match s.book.execute checkedAdd entry.entry.command with
      | none =>
        { node := { s with networkNode }
          events := [.applied s.id index entry.entry]
          panicked := true }
      | some book =>
        { node := { s with networkNode, book }
          events := [.applied s.id index entry.entry] }

/-- The loop that applies `count` entries from `index` on. -/
def applyLogs : ℕ → ℕ → RaftNode n → Turn n
  | _, 0, s => { node := s }
  | index, count + 1, s =>
    (s.applyLog index).andThen fun s =>
      applyLogs (index + 1) count { s with committed := s.committed + 1 }

/-- A message to each of the nodes `dsts`, as far as they can be reached. -/
def sendAll (up : ℕ → Fin n → Bool) (dsts : List (Fin n)) (msg : Fin n → Message n) :
    List (Fin n × Message n) :=
  (dsts.zipIdx.filter fun (dst, k) => up k dst).map fun (dst, _) => (dst, msg dst)

end RaftNode

/-! ## The handlers -/

/-- `Accept::execute`. -/
def Accept.execute (self : Accept n) (s : RaftNode n) : Turn n where
  node := { s with
    nodes := if self.address ∈ s.nodes then s.nodes else s.nodes ++ [self.address]
    pendingEntry := Function.update s.pendingEntry self.address none }

/-- The entry of an `AppendEntry` is taken over when the entry before it matches and the response
can be sent. -/
def AppendEntry.respond (self : AppendEntry n) (entry : EntryData) (up : ℕ → Fin n → Bool)
    (s : RaftNode n) : Turn n :=
  let success := entry.prevTerm == s.prevEntryTerm entry.index
  if self.nodeId ∈ s.nodes then
    if up 0 self.nodeId then
      let response : Message n := .appendEntryResponse
        { nodeId := s.id, term := self.term, index := entry.index, success }
      if success then
        { node := (s.truncateLog entry.index).pushLogEntry
            { term := entry.term, entry := entry.command }
          sent := [(self.nodeId, response)]
          events := [.accepted s.id self.nodeId self.term entry.index] }
      else { node := s, sent := [(self.nodeId, response)] }
    else { node := s }
  else .panic s

/-- An `AppendEntry` is answered: its entry is taken over, or without an entry the log is applied
as far as the sender has applied its own. -/
def AppendEntry.answer (self : AppendEntry n) (up : ℕ → Fin n → Bool) (s : RaftNode n) : Turn n :=
  match self.entry with
  | some entry => self.respond entry up s
  | none =>
    if s.committed < self.committed then
      RaftNode.applyLogs s.committed (min self.committed s.log.length - s.committed) s
    else { node := s }

/-- The sender of an `AppendEntry` becomes the leader of the node. -/
def AppendEntry.follow (self : AppendEntry n) (s : RaftNode n) : RaftNode n :=
  { s with role := .follower, term := self.term, leader := some self.nodeId }

/-- `AppendEntry::execute`. The first message of the handler is the response. -/
def AppendEntry.execute (self : AppendEntry n) (up : ℕ → Fin n → Bool) (s : RaftNode n) : Turn n :=
  if s.term ≤ self.term then
    let t : Turn n := { node := self.follow s, events := [.raised s.id self.term] }
    (t.andThen (self.answer up)).andThen fun s =>
      if s.pendingCmds ≠ [] then s.sendPendingCmdsToLeader fun k => up (k + 1)
      else { node := s }
  else { node := s }

/-- A successful response is counted, and with more than half of the nodes the entries up to its
index are applied. -/
def AppendEntryResponse.acknowledge (self : AppendEntryResponse n) (s : RaftNode n) : Turn n :=
  if s.committed ≤ self.index then
    match s.logEntrySuccess[self.index]? with
    | none => .panic s
    | some success =>
      let s := { s with
        logEntrySuccess := s.logEntrySuccess.set self.index (insert self.nodeId success) }
      if (s.nodes.length + 1) / 2 < (insert self.nodeId success).card then
        RaftNode.applyLogs s.committed (self.index + 1 - s.committed) s
      else { node := s }
  else { node := s }

/-- The entry that a response asks for becomes the pending entry of its sender. -/
def AppendEntryResponse.sendEntry (self : AppendEntryResponse n) (index : ℕ)
    (up : ℕ → Fin n → Bool) (s : RaftNode n) : Turn n :=
  let entry := s.newEntryData index
  if self.nodeId ∈ s.nodes then
    { node := { s with pendingEntry := Function.update s.pendingEntry self.nodeId entry }
      sent := if entry.isSome ∧ up 0 self.nodeId then [(self.nodeId, s.newAppendEntryMsg entry)]
        else [] }
  else .panic s

/-- `AppendEntryResponse::execute`. -/
def AppendEntryResponse.execute (self : AppendEntryResponse n) (up : ℕ → Fin n → Bool)
    (s : RaftNode n) : Turn n :=
  if s.term = self.term then
    if self.success then
      (self.acknowledge s).andThen (self.sendEntry (self.index + 1) up)
    else
      match self.index with
      | 0 => .panic s
      | index + 1 => self.sendEntry index up s
  else { node := s }

/-- `RequestVote::execute`. -/
def RequestVote.execute (self : RequestVote n) (up : ℕ → Fin n → Bool) (s : RaftNode n) : Turn n :=
  if s.term < self.term then
    let s := { s with term := self.term }
    if s.latestLogInfo ≤ self.latestLogInfo then
      if self.nodeId ∈ s.nodes then
        if up 0 self.nodeId then
          { node := { s with role := .follower, leader := none }
            sent := [(self.nodeId, .vote { term := self.term })]
            events := [.granted s.id self.nodeId self.term] }
        else { node := s, events := [.raised s.id self.term] }
      else { node := s, events := [.raised s.id self.term], panicked := true }
    else { node := s, events := [.raised s.id self.term] }
  else { node := s }

/-- `new_entry_data` for the last entry: without one, the index wraps around and is too large. -/
def RaftNode.lastEntryData (s : RaftNode n) : Option EntryData :=
  match s.log.length with
  | 0 => none
  | len + 1 => s.newEntryData len

/-- What a new leader does: the last entry becomes the pending entry of every node, the pending
commands become entries, and every node gets its pending entry. -/
def Vote.lead (up : ℕ → Fin n → Bool) (s : RaftNode n) : Turn n :=
  let s := { s with role := .leader, leader := none }
  let t : Turn n := {
    node := { s with
      pendingEntry := fun y => if y ∈ s.nodes then s.lastEntryData else s.pendingEntry y }
    events := [.elected s.id s.term] }
  (t.andThen RaftNode.drainPendingCmdsToLog).andThen fun s =>
    { node := s
      sent := RaftNode.sendAll up s.nodes fun dst => s.newAppendEntryMsg (s.pendingEntry dst) }

/-- `Vote::execute`. -/
def Vote.execute (self : Vote) (up : ℕ → Fin n → Bool) (s : RaftNode n) : Turn n :=
  if s.role = .candidate ∧ s.term = self.term then
    let s := { s with votes := s.votes + 1 }
    if (s.nodes.length + 1) / 2 < s.votes then Vote.lead up s else { node := s }
  else { node := s }

/-- `Command::execute`. -/
def Request.execute (self : Request) (up : ℕ → Fin n → Bool) (s : RaftNode n) : Turn n :=
  if s.role = .leader then
    let s' := s.pushLogEntry { term := s.term, entry := self }
    let entryData := s'.newEntryData s.log.length
    { node := { s' with
        pendingEntry := fun y =>
          if y ∈ s'.nodes ∧ s'.pendingEntry y = none then entryData else s'.pendingEntry y }
      sent := RaftNode.sendAll up (s'.nodes.filter fun y => s'.pendingEntry y = none)
        fun _ => s'.newAppendEntryMsg entryData
      events := [.created s.id s.term s.log.length self] }
  else
    let s := { s with pendingCmds := s.pendingCmds ++ [self] }
    if s.leader.isSome then s.sendPendingCmdsToLeader up else { node := s }

/-- The dispatch in `RaftNode::start`. -/
def Message.execute (up : ℕ → Fin n → Bool) (s : RaftNode n) : Message n → Turn n
  | .accept msg => msg.execute s
  | .command cmd => cmd.execute up s
  | .appendEntry msg => msg.execute up s
  | .appendEntryResponse msg => msg.execute up s
  | .requestVote msg => msg.execute up s
  | .vote msg => msg.execute up s

/-- What `RaftNode::start` does when no message has come before the timeout: a leader sends its
heartbeats, another node starts an election. -/
def RaftNode.timedOut (up : ℕ → Fin n → Bool) (s : RaftNode n) : Turn n :=
  if s.role = .leader then
    { node := s
      sent := RaftNode.sendAll up s.nodes fun dst => s.newAppendEntryMsg (s.pendingEntry dst) }
  else if s.term + 1 < 2 ^ 64 then
    let s := { s with term := s.term + 1, leader := none }
    { node := { s with votes := 1, role := .candidate }
      sent := RaftNode.sendAll up s.nodes fun _ => .requestVote
        { nodeId := s.id, term := s.term, latestLogInfo := s.latestLogInfo }
      events := [.candidacy s.id s.term] }
  else .panic s

end Consensus
