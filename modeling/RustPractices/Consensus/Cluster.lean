import RustPractices.Consensus.Protocol
import RustPractices.Transition.Machine

/-!
# The cluster

The nodes of a cluster and the network between them. A message that has been sent waits in the
inbox of its receiver until it is processed, in order behind the other messages of its sender. A
message can be sent when the sender and the receiver are in the same partition and the receiver
has not panicked. Partitions change at any time, and also between two messages that one handler
tries to send.

## Main definitions

* `World`: the nodes and the network
* `Action`: what can happen next
* `cluster`: the machine of all interleavings
* `World.connected`: the start of a fully connected cluster

## Main results

* `step_cases`: each step is a client that submits a command, a partition that changes, or the
  turn of one node
-/

open Transition

namespace Consensus

variable {n : ℕ}

/-- A partition number for each node. -/
abbrev Partitions (n : ℕ) := Fin n → ℕ

/-- The cluster: its nodes, and what the network keeps. The messages of the clients have no node
as their sender. -/
structure World (n : ℕ) where
  node : Fin n → RaftNode n
  alive : Fin n → Bool
  partition : Partitions n
  inbox : Fin n → Option (Fin n) → List (Message n)
  submitted : ℕ

/-- What can happen next: a client submits a command to a node, a node processes the next message
of a sender, the timeout of a node fires, or the partition of a node changes. While a node acts,
the partitions `moves` come into force, one before each message that it tries to send. -/
inductive Action (n : ℕ)
  | submit (node : Fin n) (command : Command)
  | deliver (node : Fin n) (src : Option (Fin n)) (moves : List (Partitions n))
  | timeout (node : Fin n) (moves : List (Partitions n))
  | setPartition (node : Fin n) (partition : ℕ)

namespace World

/-- The partitions when a node tries to send its `k`-th message. -/
def partitionsAt (w : World n) (moves : List (Partitions n)) (k : ℕ) : Partitions n :=
  ((moves.take (k + 1)).getLast?).getD w.partition

/-- `Connection::encode`: whether the `k`-th message of a node can be sent. -/
def up (w : World n) (x : Fin n) (moves : List (Partitions n)) (k : ℕ) (dst : Fin n) : Bool :=
  w.partitionsAt moves k x = w.partitionsAt moves k dst && w.alive dst

/-- The inboxes after a node has sent messages. -/
def enqueue (inbox : Fin n → Option (Fin n) → List (Message n)) (x : Fin n)
    (sent : List (Fin n × Message n)) : Fin n → Option (Fin n) → List (Message n) :=
  fun dst src =>
    if src = some x then inbox dst src ++ (sent.filter fun m => m.1 = dst).map Prod.snd
    else inbox dst src

/-- The cluster after the turn of a node. A node that has panicked is not alive. -/
def afterTurn (w : World n) (x : Fin n) (t : Turn n) (moves : List (Partitions n)) : World n where
  node := Function.update w.node x t.node
  alive := Function.update w.alive x (!t.panicked)
  partition := moves.getLast?.getD w.partition
  inbox := enqueue w.inbox x t.sent
  submitted := w.submitted

/-- The cluster without the next message of a sender. -/
def dequeue (w : World n) (x : Fin n) (src : Option (Fin n)) (rest : List (Message n)) : World n :=
  { w with inbox := Function.update w.inbox x (Function.update (w.inbox x) src rest) }

/-- The cluster with one more command from a client. -/
def submit (w : World n) (x : Fin n) (command : Command) : World n where
  node := w.node
  alive := w.alive
  partition := w.partition
  inbox := Function.update w.inbox x (Function.update (w.inbox x) none
    (w.inbox x none ++ [.command { tag := w.submitted, command }]))
  submitted := w.submitted + 1

/-- The start of a fully connected cluster: no node has processed anything but its connections. -/
def connected (n : ℕ) : World n where
  node x := { RaftNode.new x with nodes := (List.finRange n).filter fun y => y ≠ x }
  alive _ := true
  partition _ := 0
  inbox _ _ := []
  submitted := 0

end World

/-- One step of the cluster. -/
def step (w : World n) : Action n → Option (World n × List (Event n))
  | .submit x command =>
    if w.alive x then some (w.submit x command, []) else none
  | .deliver x src moves =>
    if w.alive x then
      match w.inbox x src with
      | [] => none
      | msg :: rest =>
        let t := msg.execute (w.up x moves) (w.node x)
        some ((w.dequeue x src rest).afterTurn x t moves, t.events)
    else none
  | .timeout x moves =>
    if w.alive x then
      let t := (w.node x).timedOut (w.up x moves)
      some (w.afterTurn x t moves, t.events)
    else none
  | .setPartition x partition =>
    some ({ w with partition := Function.update w.partition x partition }, [])

/-- **The cluster** from a start: all interleavings of its nodes. -/
def cluster (start : World n) : Machine (World n) (Action n) (Event n) where
  init := start
  step := step

/-- Each step is a client that submits a command, the turn of a node that processes a message or
whose timeout fires, or a partition that changes. -/
theorem step_cases {w w' : World n} {a : Action n} {out : List (Event n)}
    (h : step w a = some (w', out)) :
    (∃ x command, a = .submit x command ∧ w.alive x = true ∧ out = [] ∧ w' = w.submit x command) ∨
    (∃ x src moves msg rest, a = .deliver x src moves ∧ w.alive x = true ∧
      w.inbox x src = msg :: rest ∧ out = (msg.execute (w.up x moves) (w.node x)).events ∧
      w' = (w.dequeue x src rest).afterTurn x (msg.execute (w.up x moves) (w.node x)) moves) ∨
    (∃ x moves, a = .timeout x moves ∧ w.alive x = true ∧
      out = ((w.node x).timedOut (w.up x moves)).events ∧
      w' = w.afterTurn x ((w.node x).timedOut (w.up x moves)) moves) ∨
    (∃ x partition, a = .setPartition x partition ∧ out = [] ∧
      w' = { w with partition := Function.update w.partition x partition }) := by
  cases a with
  | submit x command =>
    simp only [step] at h
    split_ifs at h with halive
    obtain ⟨rfl, rfl⟩ := by simpa using h
    exact .inl ⟨x, command, rfl, halive, rfl, rfl⟩
  | deliver x src moves =>
    simp only [step] at h
    split_ifs at h with halive
    split at h
    · simp at h
    next msg rest hinbox =>
      obtain ⟨rfl, rfl⟩ := by simpa using h
      exact .inr (.inl ⟨x, src, moves, msg, rest, rfl, halive, hinbox, rfl, rfl⟩)
  | timeout x moves =>
    simp only [step] at h
    split_ifs at h with halive
    obtain ⟨rfl, rfl⟩ := by simpa using h
    exact .inr (.inr (.inl ⟨x, moves, rfl, halive, rfl, rfl⟩))
  | setPartition x partition =>
    obtain ⟨rfl, rfl⟩ := by simpa [step] using h
    exact .inr (.inr (.inr ⟨x, partition, rfl, rfl, rfl⟩))

namespace World

variable {w : World n} {x dst : Fin n} {src src' : Option (Fin n)} {t : Turn n}
  {moves : List (Partitions n)} {m msg : Message n} {rest : List (Message n)}

@[simp] theorem afterTurn_node_self : (w.afterTurn x t moves).node x = t.node :=
  Function.update_self ..

theorem afterTurn_node_ne {y : Fin n} (h : y ≠ x) : (w.afterTurn x t moves).node y = w.node y :=
  Function.update_of_ne h ..

@[simp] theorem dequeue_node : (w.dequeue x src rest).node = w.node := rfl

/-- The messages in an inbox after a turn. -/
theorem mem_inbox_afterTurn : m ∈ (w.afterTurn x t moves).inbox dst src ↔
    m ∈ w.inbox dst src ∨ src = some x ∧ (dst, m) ∈ t.sent := by
  show m ∈ enqueue w.inbox x t.sent dst src ↔ _
  unfold enqueue
  split_ifs with hsrc
  · simp [hsrc]
  · simp [hsrc]

/-- The messages in an inbox after a client has submitted a command. -/
theorem mem_inbox_submit {command : Command} : m ∈ (w.submit x command).inbox dst src ↔
    m ∈ w.inbox dst src ∨ dst = x ∧ src = none ∧ m = .command ⟨w.submitted, command⟩ := by
  by_cases hdst : dst = x
  · subst hdst
    by_cases hsrc : src = none
    · subst hsrc
      simp [submit]
    · simp [submit, hsrc]
  · simp [submit, hdst]

/-- A command of a client leaves the messages of the nodes. -/
theorem inbox_submit_some {command : Command} (y : Fin n) :
    (w.submit x command).inbox dst (some y) = w.inbox dst (some y) := by
  by_cases hdst : dst = x
  · subst hdst
    simp [submit]
  · simp [submit, hdst]

theorem inbox_dequeue_self : (w.dequeue x src rest).inbox x src = rest := by
  simp [dequeue]

theorem inbox_dequeue_ne (h : ¬ (dst = x ∧ src' = src)) :
    (w.dequeue x src rest).inbox dst src' = w.inbox dst src' := by
  by_cases hdst : dst = x
  · subst hdst
    have hsrc : src' ≠ src := fun heq => h ⟨rfl, heq⟩
    simp [dequeue, Function.update_of_ne hsrc]
  · simp [dequeue, Function.update_of_ne hdst]

/-- Taking a message from an inbox leaves the others. -/
theorem mem_inbox_dequeue (hinbox : w.inbox x src = msg :: rest)
    (h : m ∈ (w.dequeue x src rest).inbox dst src') : m ∈ w.inbox dst src' := by
  by_cases heq : dst = x ∧ src' = src
  · obtain ⟨rfl, rfl⟩ := heq
    rw [inbox_dequeue_self] at h
    rw [hinbox]
    exact List.mem_cons_of_mem _ h
  · rwa [inbox_dequeue_ne heq] at h

end World

end Consensus
