import RustPractices.Consensus.Handlers

/-!
# The occurrences of commands

A command that a client has sent waits in one place, a message in flight or a slot among the
pending commands of one node, until a leader turns it into a log entry. A turn moves commands: what
a node keeps, sends and turns into entries is what it has kept and what it has received.

## Main definitions

* `World.places`: in how many places a command waits
* `Turn.weight`: in how many places a turn puts a command

## Main results

* `Message.execute_weight`, `RaftNode.timedOut_weight`: the turns of a node
* `Conserved.step`: one step of the cluster neither duplicates nor loses a command
-/

open Transition

namespace Consensus

variable {n : ℕ}

/-! ## Counting -/

section Counting

variable {α : Type*} [Fintype α] [DecidableEq α]

/-- Changing one summand. -/
theorem sum_add_of_ne (f g : α → ℕ) (a : α) (h : ∀ x, x ≠ a → g x = f x) :
    (∑ x, g x) + f a = (∑ x, f x) + g a := by
  have hrest : ∑ x ∈ Finset.univ.erase a, g x = ∑ x ∈ Finset.univ.erase a, f x :=
    Finset.sum_congr rfl fun x hx => h x (Finset.ne_of_mem_erase hx)
  rw [← Finset.add_sum_erase Finset.univ f (Finset.mem_univ a),
    ← Finset.add_sum_erase Finset.univ g (Finset.mem_univ a), hrest]
  omega

/-- The elements of a list, counted by the value of their first component. -/
theorem sum_countP_filter {β : Type*} (l : List (α × β)) (p : β → Bool) :
    ∑ a, ((l.filter fun m => m.1 = a).map Prod.snd).countP p = l.countP fun m => p m.2 := by
  induction l with
  | nil => simp
  | cons m l ih =>
    have hcons : ∀ a, (((m :: l).filter fun m => m.1 = a).map Prod.snd).countP p =
        ((l.filter fun m => m.1 = a).map Prod.snd).countP p +
          if m.1 = a then (if p m.2 then 1 else 0) else 0 := by
      intro a
      by_cases ha : m.1 = a
      · simp [ha, List.countP_cons]
      · simp [ha]
    rw [Finset.sum_congr rfl fun a _ => hcons a, Finset.sum_add_distrib, ih, Finset.sum_ite_eq,
      if_pos (Finset.mem_univ _), List.countP_cons]

end Counting

/-! ## The places of a command -/

/-- The message takes the command with this tag to a node. -/
def Message.carries (tag : ℕ) : Message n → Bool
  | .command cmd => cmd.tag = tag
  | _ => false

/-- The event turns the command with this tag into a log entry. -/
def Event.creates (tag : ℕ) : Event n → Bool
  | .created _ _ _ cmd => cmd.tag = tag
  | _ => false

/-- The number of slots that hold the command. -/
def held (cmds : List Request) (tag : ℕ) : ℕ :=
  cmds.countP fun cmd => cmd.tag = tag

/-- The number of messages in flight that take the command to a node. -/
def inFlight (inbox : Fin n → Option (Fin n) → List (Message n)) (tag : ℕ) : ℕ :=
  ∑ x, ∑ src, (inbox x src).countP fun m => m.carries tag

/-- The number of places in which a command waits. -/
def World.places (w : World n) (tag : ℕ) : ℕ :=
  (∑ x, held (w.node x).pendingCmds tag) + inFlight w.inbox tag

/-- The number of places in which a turn puts a command: the slots of the node, the messages that
have been sent, and the log entries that have been created. -/
def Turn.weight (t : Turn n) (tag : ℕ) : ℕ :=
  held t.node.pendingCmds tag + (t.sent.countP fun m => m.2.carries tag) +
    t.events.countP fun e => e.creates tag

section Places

variable {tag : ℕ}

@[simp] theorem held_append (cmds cmds' : List Request) :
    held (cmds ++ cmds') tag = held cmds tag + held cmds' tag :=
  List.countP_append ..

/-- Commands that are sent are in flight. -/
@[simp] theorem countP_carries_map (dst : Fin n) (cmds : List Request) :
    ((cmds.map fun cmd => (dst, (.command cmd : Message n))).countP fun m => m.2.carries tag) =
      held cmds tag := by
  rw [List.countP_map]
  rfl

/-- Commands that a leader turns into entries. -/
theorem countP_creates_zipIdx (x : Fin n) (T i : ℕ) (cmds : List Request) :
    ((cmds.zipIdx.map fun (cmd, k) => (.created x T (i + k) cmd : Event n)).countP
      fun e => e.creates tag) = held cmds tag := by
  have hfst : cmds.zipIdx.map Prod.fst = cmds := List.zipIdx_map_fst 0 cmds
  rw [List.countP_map]
  conv_rhs => rw [← hfst, held, List.countP_map]
  rfl

theorem countP_carries_eq_zero {sent : List (Fin n × Message n)}
    (h : ∀ dst m, (dst, m) ∈ sent → m.carries tag = false) :
    (sent.countP fun m => m.2.carries tag) = 0 := by
  apply List.countP_eq_zero.mpr
  rintro ⟨dst, m⟩ hm
  simp [h dst m hm]

theorem countP_creates_eq_zero {out : List (Event n)} (h : ∀ e ∈ out, e.creates tag = false) :
    (out.countP fun e => e.creates tag) = 0 := by
  apply List.countP_eq_zero.mpr
  intro e he
  simp [h e he]

end Places

/-! ## What a turn does to the commands -/

section Weight

variable (up : ℕ → Fin n → Bool) (s : RaftNode n) (tag : ℕ)

/-- A turn that keeps the pending commands, and neither sends nor creates any. -/
theorem Turn.weight_of_quiet {t : Turn n} (hcmds : t.node.pendingCmds = s.pendingCmds)
    (hsent : ∀ dst m, (dst, m) ∈ t.sent → m.carries tag = false)
    (hevents : ∀ e ∈ t.events, e.creates tag = false) :
    t.weight tag = held s.pendingCmds tag := by
  rw [weight, hcmds, countP_carries_eq_zero hsent, countP_creates_eq_zero hevents]
  rfl

theorem Request.execute_weight (cmd : Request) :
    (cmd.execute up s).weight tag = held s.pendingCmds tag + if cmd.tag = tag then 1 else 0 := by
  have hcmd : held [cmd] tag = if cmd.tag = tag then 1 else 0 := by
    simp [held, List.countP_cons]
  obtain ⟨-, heq⟩ | ⟨-, dst, cmds, pendingCmds, panicked, happend, -, heq⟩ :=
    cmd.execute_cases up s
  · rw [heq]
    have hsent : ∀ dsts (msg : AppendEntry n), ((RaftNode.sendAll up dsts fun _ =>
        .appendEntry msg).countP fun m => m.2.carries tag) = 0 := by
      intro dsts msg
      apply countP_carries_eq_zero
      intro dst m hm
      obtain ⟨-, rfl⟩ := RaftNode.mem_sendAll hm
      rfl
    show held s.pendingCmds tag + _ + _ = _
    rw [RaftNode.newAppendEntryMsg, hsent]
    simp [List.countP_cons, Event.creates]
  · rw [heq, ← hcmd, ← held_append, ← happend, Turn.weight, countP_carries_map, held_append]
    show held pendingCmds tag + held cmds tag + 0 = _
    omega

theorem AppendEntry.execute_weight (msg : AppendEntry n) :
    (msg.execute up s).weight tag = held s.pendingCmds tag := by
  obtain ⟨-, heq⟩ | ⟨-, cmds, pendingCmds, panicked, happend, -, heq⟩ := msg.execute_cases up s
  · rw [heq]
    exact Turn.weight_of_quiet s tag rfl (by simp) (by simp)
  · have hsent : ((msg.answer up (msg.follow s)).sent.countP fun m => m.2.carries tag) = 0 := by
      apply countP_carries_eq_zero
      intro dst m hm
      obtain ⟨-, -, _, _, -, rfl⟩ := AppendEntry.answer_sent hm
      rfl
    have hevents : ((msg.answer up (msg.follow s)).events.countP fun e => e.creates tag) = 0 := by
      apply countP_creates_eq_zero
      intro e he
      obtain ⟨_, -, rfl⟩ | ⟨_, _, -, rfl⟩ := AppendEntry.answer_events he <;> rfl
    rw [heq, Turn.weight, List.countP_append, hsent, countP_carries_map, List.countP_cons, hevents,
      ← happend, held_append]
    show held pendingCmds tag + (0 + held cmds tag) + 0 = _
    omega

theorem Vote.execute_weight (msg : Vote) :
    (msg.execute up s).weight tag = held s.pendingCmds tag := by
  have hsent : ((msg.execute up s).sent.countP fun m => m.2.carries tag) = 0 := by
    apply countP_carries_eq_zero
    intro dst m hm
    obtain ⟨-, _, rfl⟩ := Vote.execute_sent hm
    rfl
  obtain ⟨-, heq⟩ | ⟨-, -, heq⟩ | ⟨-, -, heq⟩ := msg.execute_cases up s
  · rw [heq]
    exact Turn.weight_of_quiet s tag rfl (by simp) (by simp)
  · rw [heq]
    exact Turn.weight_of_quiet s tag rfl (by simp) (by simp)
  · rw [Turn.weight, hsent, heq]
    show 0 + 0 + List.countP _ (_ :: _) = _
    rw [List.countP_cons, countP_creates_zipIdx]
    simp [Event.creates]

/-- What a node keeps, sends and turns into entries is what it has kept and received. -/
theorem Message.execute_weight (msg : Message n) :
    (msg.execute up s).weight tag =
      held s.pendingCmds tag + if msg.carries tag then 1 else 0 := by
  cases msg with
  | accept msg =>
    exact Turn.weight_of_quiet s tag rfl (by simp [execute, Accept.execute])
      (by simp [execute, Accept.execute])
  | command cmd =>
    have hcmd := cmd.execute_weight up s tag
    simpa [execute, carries] using hcmd
  | appendEntry msg => exact msg.execute_weight up s tag
  | appendEntryResponse msg =>
    obtain ⟨_, _, _, _, _, hnode⟩ := msg.execute_node up s
    apply Turn.weight_of_quiet s tag (congrArg (·.pendingCmds) hnode)
    · intro dst m hm
      obtain ⟨-, _, rfl, -⟩ := AppendEntryResponse.execute_sent hm
      rfl
    · intro e he
      obtain ⟨_, _, -, rfl⟩ := AppendEntryResponse.execute_events he
      rfl
  | requestVote msg =>
    apply Turn.weight_of_quiet s tag
    · obtain ⟨-, heq⟩ | ⟨-, -, _, heq⟩ | ⟨-, -, -, heq⟩ := msg.execute_cases up s <;>
        exact congrArg (·.node.pendingCmds) heq
    · intro dst m hm
      obtain ⟨-, -, rfl⟩ := RequestVote.execute_sent hm
      rfl
    · intro e he
      obtain ⟨-, heq⟩ | ⟨-, -, _, heq⟩ | ⟨-, -, -, heq⟩ := msg.execute_cases up s <;>
        rw [execute, heq] at he <;> simp at he <;> rw [he] <;> rfl
  | vote msg => exact msg.execute_weight up s tag

theorem RaftNode.timedOut_weight : (s.timedOut up).weight tag = held s.pendingCmds tag := by
  obtain ⟨-, heq⟩ | ⟨-, heq⟩ | ⟨-, heq⟩ := s.timedOut_cases up
  · rw [heq]
    refine Turn.weight_of_quiet s tag rfl ?_ (by simp)
    intro dst m hm
    dsimp only at hm
    obtain ⟨-, rfl⟩ := mem_sendAll hm
    rfl
  · rw [heq]
    refine Turn.weight_of_quiet s tag rfl ?_ (by simp [Event.creates])
    intro dst m hm
    dsimp only at hm
    obtain ⟨-, rfl⟩ := mem_sendAll hm
    rfl
  · rw [heq]
    exact Turn.weight_of_quiet s tag rfl (by simp [Turn.panic]) (by simp [Turn.panic])

end Weight

/-! ## What a step does to the commands -/

section Step

variable {w w' : World n} {tag : ℕ}

/-- Changing one inbox. -/
theorem inFlight_update (inbox : Fin n → Option (Fin n) → List (Message n)) (x : Fin n)
    (src : Option (Fin n)) (l : List (Message n)) (tag : ℕ) :
    inFlight (Function.update inbox x (Function.update (inbox x) src l)) tag +
        (inbox x src).countP (·.carries tag) =
      inFlight inbox tag + l.countP (·.carries tag) := by
  have hinner := sum_add_of_ne (fun src' => (inbox x src').countP (·.carries tag))
    (fun src' => (Function.update (inbox x) src l src').countP (·.carries tag)) src
    (fun src' hsrc => by rw [Function.update_of_ne hsrc])
  have houter := sum_add_of_ne (fun y => ∑ src', (inbox y src').countP (·.carries tag))
    (fun y => ∑ src', (Function.update inbox x (Function.update (inbox x) src l) y src').countP
      (·.carries tag)) x (fun y hy => by rw [Function.update_of_ne hy])
  simp only [Function.update_self] at hinner houter
  unfold inFlight
  omega

/-- Sending messages. -/
theorem inFlight_enqueue (inbox : Fin n → Option (Fin n) → List (Message n)) (x : Fin n)
    (sent : List (Fin n × Message n)) :
    inFlight (World.enqueue inbox x sent) tag =
      inFlight inbox tag + sent.countP fun m => m.2.carries tag := by
  have hone : ∀ dst src, (World.enqueue inbox x sent dst src).countP (·.carries tag) =
      (inbox dst src).countP (·.carries tag) + if src = some x then
        ((sent.filter fun m => m.1 = dst).map Prod.snd).countP (·.carries tag) else 0 := by
    intro dst src
    unfold World.enqueue
    split_ifs
    · exact List.countP_append
    · rfl
  simp only [inFlight, hone, Finset.sum_add_distrib, Finset.sum_ite_eq', Finset.mem_univ, if_true]
  rw [sum_countP_filter]

/-- The turn of a node moves commands. -/
theorem World.places_afterTurn (w : World n) (x : Fin n) (t : Turn n) (moves : List (Partitions n))
    (tag : ℕ) :
    (w.afterTurn x t moves).places tag + (t.events.countP fun e => e.creates tag) +
        held (w.node x).pendingCmds tag = w.places tag + t.weight tag := by
  have hheld := sum_add_of_ne (fun y => held (w.node y).pendingCmds tag)
    (fun y => held ((w.afterTurn x t moves).node y).pendingCmds tag) x
    (fun y hy => by rw [afterTurn_node_ne hy])
  simp only [afterTurn_node_self] at hheld
  have hinbox : inFlight (w.afterTurn x t moves).inbox tag = _ :=
    inFlight_enqueue w.inbox x t.sent
  rw [places, places, hinbox, Turn.weight]
  omega

/-- Each command that a client has sent waits in one place or has become one entry. -/
def Conserved (tr : List (Event n)) (w : World n) : Prop :=
  ∀ tag, w.places tag + (tr.countP fun e => e.creates tag) = if tag < w.submitted then 1 else 0

theorem Conserved.init : Conserved [] (World.connected n) := by
  intro tag
  simp [World.places, World.connected, RaftNode.new, inFlight, held]

/-- **One step of the cluster neither duplicates nor loses a command.** -/
theorem Conserved.step {tr out : List (Event n)} {a : Action n} (h : Conserved tr w)
    (hstep : step w a = some (w', out)) : Conserved (tr ++ out) w' := by
  intro tag
  rw [List.countP_append]
  rcases step_cases hstep with ⟨x, command, -, -, rfl, rfl⟩ |
    ⟨x, src, moves, msg, rest, -, -, hinbox, rfl, rfl⟩ | ⟨x, moves, -, -, rfl, rfl⟩ |
    ⟨x, partition, -, rfl, rfl⟩
  · have hupdate := inFlight_update w.inbox x none
      (w.inbox x none ++ [.command ⟨w.submitted, command⟩]) tag
    have hsubmit : (w.submit x command).places tag =
        w.places tag + if w.submitted = tag then 1 else 0 := by
      rw [List.countP_append, List.countP_singleton] at hupdate
      simp only [Message.carries, decide_eq_true_eq] at hupdate
      show _ + inFlight (Function.update w.inbox x _) tag = _ + inFlight w.inbox tag + _
      show (∑ y, held (w.node y).pendingCmds tag) + _ = (∑ y, held (w.node y).pendingCmds tag) + _ + _
      omega
    have hsubmitted : (w.submit x command).submitted = w.submitted + 1 := rfl
    have hold := h tag
    rw [hsubmit, hsubmitted, List.countP_nil]
    split_ifs at hold ⊢ <;> omega
  · have hupdate := inFlight_update w.inbox x src rest tag
    rw [hinbox, List.countP_cons] at hupdate
    have hdequeue : (w.dequeue x src rest).places tag + (if msg.carries tag then 1 else 0) =
        w.places tag := by
      show (∑ y, held (w.node y).pendingCmds tag) + inFlight (Function.update w.inbox x _) tag + _ =
        (∑ y, held (w.node y).pendingCmds tag) + inFlight w.inbox tag
      omega
    have hturn := (w.dequeue x src rest).places_afterTurn x
      (msg.execute (w.up x moves) (w.node x)) moves tag
    rw [msg.execute_weight, World.dequeue_node] at hturn
    have hold := h tag
    have hsubmitted : ((w.dequeue x src rest).afterTurn x (msg.execute (w.up x moves) (w.node x))
      moves).submitted = w.submitted := rfl
    rw [hsubmitted]
    omega
  · have hturn := w.places_afterTurn x ((w.node x).timedOut (w.up x moves)) moves tag
    rw [RaftNode.timedOut_weight] at hturn
    have hold := h tag
    have hsubmitted : (w.afterTurn x ((w.node x).timedOut (w.up x moves)) moves).submitted =
      w.submitted := rfl
    rw [hsubmitted]
    omega
  · rw [List.countP_nil]
    exact h tag

/-- Each command is turned into an entry at most once. -/
theorem Conserved.created_unique {tr : List (Event n)} (h : Conserved tr w) {x y : Fin n}
    {T T' i j : ℕ} {cmd cmd' : Request} (hx : .created x T i cmd ∈ tr)
    (hy : .created y T' j cmd' ∈ tr) (htag : cmd.tag = cmd'.tag) :
    x = y ∧ T = T' ∧ i = j ∧ cmd = cmd' := by
  have hlength : (tr.filter fun e => e.creates cmd'.tag).length ≤ 1 := by
    rw [← List.countP_eq_length_filter]
    have hone := h cmd'.tag
    split_ifs at hone <;> omega
  have hmem : .created x T i cmd ∈ tr.filter fun e => e.creates cmd'.tag :=
    List.mem_filter.mpr ⟨hx, by simpa [Event.creates] using htag⟩
  have hmem' : .created y T' j cmd' ∈ tr.filter fun e => e.creates cmd'.tag :=
    List.mem_filter.mpr ⟨hy, by simp [Event.creates]⟩
  match hfilter : tr.filter fun e => e.creates cmd'.tag with
  | [] => simp [hfilter] at hmem
  | [e] =>
    rw [hfilter, List.mem_singleton] at hmem hmem'
    simpa using hmem.trans hmem'.symm
  | _ :: _ :: _ => simp [hfilter] at hlength

end Step

end Consensus
