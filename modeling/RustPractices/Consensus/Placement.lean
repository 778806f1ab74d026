import RustPractices.Consensus.Occurrences

/-!
# Where the entries are

An entry stays at the index at which a leader has created it: entries are sent with their index,
and a node takes an entry over only when its log has an entry right before this index, since every
entry that is not the first one names a term of at least one before it. Each node applies the
indices of its log one after the other. With the conservation of the commands, no node applies a
command twice.

## Main definitions

* `LogEntry.CreatedAt`, `EntryData.CreatedIn`: an entry is where it has been created
* `Placed`: all entries of the cluster are where they have been created
* `appliedBy`: what a node has applied
* `InOrder`: each node has applied the indices from zero on

## Main results

* `Message.execute_placed`: a turn keeps entries in their places
* `commands_placed`: a command waits in one place or is one entry, which keeps its index, and no
  node applies it twice
-/

open Transition

namespace Consensus

variable {n : ℕ}

/-! ## Entries in their places -/

/-- The entry has been created at this index, in a term of a leader. -/
def LogEntry.CreatedAt (tr : List (Event n)) (i : ℕ) (e : LogEntry) : Prop :=
  1 ≤ e.term ∧ ∃ y, .created y e.term i e.entry ∈ tr

/-- The entry has been created at the index with which it is sent, and there is an entry before
it. -/
def EntryData.CreatedIn (tr : List (Event n)) (d : EntryData) : Prop :=
  (⟨d.term, d.command⟩ : LogEntry).CreatedAt tr d.index ∧ (d.index ≠ 0 → 1 ≤ d.prevTerm)

/-- The entries of a node are where they have been created. -/
structure RaftNode.Placed (tr : List (Event n)) (s : RaftNode n) : Prop where
  term : s.role ≠ .follower → 1 ≤ s.term
  log : ∀ i (e : LogEntry), s.log[i]? = some e → e.CreatedAt tr i
  pending : ∀ y d, s.pendingEntry y = some d → d.CreatedIn tr

/-- The entries of a message are where they have been created. -/
def Message.Placed (tr : List (Event n)) : Message n → Prop
  | .appendEntry msg => ∀ d, msg.entry = some d → d.CreatedIn tr
  | _ => True

/-- A turn that leaves entries where they have been created, and applies such entries only. -/
structure Turn.Placed (tr : List (Event n)) (t : Turn n) : Prop where
  node : t.node.Placed (tr ++ t.events)
  sent : ∀ dst m, (dst, m) ∈ t.sent → m.Placed (tr ++ t.events)
  applied : ∀ x i cmd, .applied x i cmd ∈ t.events → ∃ y T, .created y T i cmd ∈ tr ++ t.events

section Placed

variable {tr out : List (Event n)}

theorem LogEntry.CreatedAt.append {i : ℕ} {e : LogEntry} (h : e.CreatedAt tr i) :
    e.CreatedAt (tr ++ out) i := by
  obtain ⟨hterm, y, hcreated⟩ := h
  exact ⟨hterm, y, List.mem_append_left out hcreated⟩

theorem EntryData.CreatedIn.append {d : EntryData} (h : d.CreatedIn tr) : d.CreatedIn (tr ++ out) :=
  ⟨h.1.append, h.2⟩

theorem RaftNode.Placed.append {s : RaftNode n} (h : s.Placed tr) : s.Placed (tr ++ out) where
  term := h.term
  log i e he := (h.log i e he).append
  pending y d hd := (h.pending y d hd).append

theorem Message.Placed.append {m : Message n} (h : m.Placed tr) : m.Placed (tr ++ out) := by
  cases m with
  | appendEntry msg => exact fun d hd => (h d hd).append
  | _ => trivial

/-- The entries that a node sends are entries of its log. -/
theorem RaftNode.newEntryData_createdIn {s : RaftNode n}
    (hlog : ∀ i (e : LogEntry), s.log[i]? = some e → e.CreatedAt tr i) {i : ℕ} {d : EntryData}
    (hd : s.newEntryData i = some d) : d.CreatedIn tr := by
  obtain ⟨e, he, rfl⟩ := Option.map_eq_some_iff.mp hd
  refine ⟨hlog i e he, ?_⟩
  intro hi
  obtain ⟨k, rfl⟩ := Nat.exists_eq_succ_of_ne_zero hi
  have hlt : k < s.log.length := by
    have := (List.getElem?_eq_some_iff.mp he).1
    omega
  have hget : s.log[k]? = some s.log[k] := List.getElem?_eq_getElem hlt
  show 1 ≤ (s.log[k]?.map LogEntry.term).getD 0
  rw [hget]
  exact (hlog k _ hget).1

theorem RaftNode.lastEntryData_createdIn {s : RaftNode n}
    (hlog : ∀ i (e : LogEntry), s.log[i]? = some e → e.CreatedAt tr i) {d : EntryData}
    (hd : s.lastEntryData = some d) : d.CreatedIn tr := by
  unfold lastEntryData at hd
  split at hd
  · cases hd
  · exact newEntryData_createdIn hlog hd

/-- A log in which an entry matches has no gap before the index of the entry. -/
theorem EntryData.CreatedIn.index_le {s : RaftNode n} {d : EntryData} (h : d.CreatedIn tr)
    (hprev : d.prevTerm = s.prevEntryTerm d.index) : d.index ≤ s.log.length := by
  by_contra hlt
  have hpos : d.index ≠ 0 := by omega
  obtain ⟨k, hk⟩ := Nat.exists_eq_succ_of_ne_zero hpos
  have hterm := h.2 hpos
  rw [hprev, hk] at hterm
  have hnone : s.log[k]? = none := List.getElem?_eq_none (by omega)
  simp [RaftNode.prevEntryTerm, hnone] at hterm

/-- The entries of a log that has been cut off and has got a new last entry. -/
theorem getElem?_take_append_singleton {log : List LogEntry} {k i : ℕ} {e e' : LogEntry}
    (hk : k ≤ log.length) (h : (log.take k ++ [e'])[i]? = some e) :
    log[i]? = some e ∨ i = k ∧ e = e' := by
  rcases lt_trichotomy i k with hi | rfl | hi
  · rw [List.getElem?_append_left (by simp; omega), List.getElem?_take_of_lt hi] at h
    exact .inl h
  · rw [List.getElem?_append_right (by simp), List.length_take, min_eq_left hk, Nat.sub_self,
      List.getElem?_cons_zero] at h
    exact .inr ⟨rfl, (Option.some.inj h).symm⟩
  · rw [List.getElem?_eq_none (by simp; omega)] at h
    cases h

/-- An entry that is taken over lands at its index. -/
theorem RaftNode.Placed.respond {s : RaftNode n} (h : s.Placed tr) {d : EntryData}
    (hd : d.CreatedIn tr) (hprev : d.prevTerm = s.prevEntryTerm d.index) {i : ℕ} {e : LogEntry}
    (he : (s.log.take d.index ++ [⟨d.term, d.command⟩])[i]? = some e) : e.CreatedAt tr i := by
  rcases getElem?_take_append_singleton (hd.index_le hprev) he with he | ⟨rfl, rfl⟩
  · exact h.log i e he
  · exact hd.1

/-- New entries are created at the end of the log. -/
theorem RaftNode.Placed.append_log {s : RaftNode n} (h : s.Placed tr) (cmds : List Request)
    (hterm : 1 ≤ s.term)
    (hout : ∀ k cmd, cmds[k]? = some cmd → .created s.id s.term (s.log.length + k) cmd ∈ out)
    {i : ℕ} {e : LogEntry}
    (he : (s.log ++ cmds.map fun cmd => ⟨s.term, cmd⟩)[i]? = some e) :
    e.CreatedAt (tr ++ out) i := by
  rcases lt_or_ge i s.log.length with hi | hi
  · rw [List.getElem?_append_left hi] at he
    exact (h.log i e he).append
  · rw [List.getElem?_append_right hi, List.getElem?_map] at he
    obtain ⟨cmd, hcmd, rfl⟩ := Option.map_eq_some_iff.mp he
    have hmem := hout _ cmd hcmd
    rw [Nat.add_sub_cancel' hi] at hmem
    exact ⟨hterm, s.id, List.mem_append_right _ hmem⟩

/-- A turn that leaves the log and the pending entries, and sends none of them. -/
theorem Turn.Placed.of_log {s : RaftNode n} (h : s.Placed tr) {t : Turn n}
    (hterm : t.node.role ≠ .follower → 1 ≤ t.node.term) (hlog : t.node.log = s.log)
    (hpending : ∀ y d, t.node.pendingEntry y = some d → d.CreatedIn tr)
    (hsent : ∀ dst m, (dst, m) ∈ t.sent → m.Placed tr)
    (happlied : ∀ x i cmd, .applied x i cmd ∈ t.events → ∃ e, s.log[i]? = some e ∧ cmd = e.entry) :
    t.Placed tr := by
  constructor
  · constructor
    · exact hterm
    · intro i e he
      rw [hlog] at he
      exact (h.log i e he).append
    · exact fun y d hd => (hpending y d hd).append
  · exact fun dst m hm => (hsent dst m hm).append
  · intro x i cmd hi
    obtain ⟨e, he, rfl⟩ := happlied x i cmd hi
    obtain ⟨-, y, hy⟩ := h.log i e he
    exact ⟨y, e.term, List.mem_append_left _ hy⟩

end Placed

/-! ## The turns of a node -/

section Turns

variable {tr : List (Event n)} {s : RaftNode n} (up : ℕ → Fin n → Bool)

/-- A leader creates an entry at the end of its log. -/
theorem Request.execute_placed (cmd : Request) (h : s.Placed tr) : (cmd.execute up s).Placed tr := by
  obtain ⟨hrole, heq⟩ | ⟨-, dst, cmds, pendingCmds, panicked, -, -, heq⟩ := cmd.execute_cases up s
  · have hlog : ∀ i (e : LogEntry), (s.pushLogEntry ⟨s.term, cmd⟩).log[i]? = some e →
        e.CreatedAt (tr ++ [.created s.id s.term s.log.length cmd]) i := by
      intro i e he
      refine h.append_log [cmd] (h.term (by simp [hrole])) ?_ he
      intro k cmd' hk
      cases k with
      | zero =>
        obtain rfl : cmd = cmd' := by simpa using hk
        simp
      | succ k => simp at hk
    have hdata : ∀ d, (s.pushLogEntry ⟨s.term, cmd⟩).newEntryData s.log.length = some d →
        d.CreatedIn (tr ++ [.created s.id s.term s.log.length cmd]) :=
      fun d hd => RaftNode.newEntryData_createdIn hlog hd
    rw [heq]
    refine ⟨⟨h.term, hlog, ?_⟩, ?_, ?_⟩
    · intro y d hd
      dsimp only at hd
      split_ifs at hd
      · exact hdata d hd
      · exact (h.pending y d hd).append
    · intro dst m hm
      dsimp only at hm
      obtain ⟨-, rfl⟩ := RaftNode.mem_sendAll hm
      exact hdata
    · intro x i cmd' hi
      simp at hi
  · rw [heq]
    refine .of_log h h.term rfl h.pending ?_ (by simp)
    intro dst m hm
    obtain ⟨cmd, -, hcmd⟩ := List.mem_map.mp hm
    obtain ⟨-, rfl⟩ := by simpa using hcmd
    trivial

/-- A node takes an entry over at the index at which it has been created. -/
theorem AppendEntry.execute_placed (msg : AppendEntry n) (h : s.Placed tr)
    (hmsg : ∀ d, msg.entry = some d → d.CreatedIn tr) : (msg.execute up s).Placed tr := by
  obtain ⟨-, heq⟩ | ⟨-, cmds, pendingCmds, panicked, -, -, heq⟩ := msg.execute_cases up s
  · rw [heq]
    exact .of_log h h.term rfl h.pending (by simp) (by simp)
  have hsent : ∀ dst m, (dst, m) ∈ (msg.execute up s).sent → m.Placed tr := by
    intro dst m hm
    rw [heq] at hm
    rcases List.mem_append.mp hm with hm | hm
    · obtain ⟨-, -, _, _, -, rfl⟩ := AppendEntry.answer_sent hm
      trivial
    · obtain ⟨cmd, -, hcmd⟩ := List.mem_map.mp hm
      obtain ⟨-, rfl⟩ := by simpa using hcmd
      trivial
  have hnode : (msg.execute up s).node =
      { (msg.answer up (msg.follow s)).node with pendingCmds } := congrArg (·.node) heq
  obtain ⟨log, logEntrySuccess, networkNode, book, committed, hanswer⟩ :=
    msg.answer_node up (msg.follow s)
  have hrole : (msg.execute up s).node.role = .follower := by
    rw [hnode, hanswer]
    rfl
  have hpending : (msg.execute up s).node.pendingEntry = s.pendingEntry := by
    rw [hnode, hanswer]
    rfl
  constructor
  · constructor
    · simp [hrole]
    · intro i e he
      rw [hnode] at he
      have hanswer : ∀ i (e : LogEntry), (msg.answer up (msg.follow s)).node.log[i]? = some e →
          e.CreatedAt tr i := by
        unfold AppendEntry.answer
        split
        next d hd =>
          rcases msg.respond_cases d up (msg.follow s) with
            ⟨-, heq⟩ | ⟨-, heq⟩ | ⟨-, -, heq⟩ | ⟨-, hprev, heq⟩ <;> rw [heq]
          · exact h.log
          · exact h.log
          · exact h.log
          · exact fun i e he => h.respond (hmsg d hd) hprev he
        · split_ifs
          · obtain ⟨_, _, _, hnode⟩ := RaftNode.applyLogs_node (msg.follow s).committed
              (min msg.committed (msg.follow s).log.length - (msg.follow s).committed) (msg.follow s)
            rw [hnode]
            exact h.log
          · exact h.log
      exact (hanswer i e he).append
    · rw [hpending]
      exact fun y d hd => (h.pending y d hd).append
  · exact fun dst m hm => (hsent dst m hm).append
  · intro x i cmd hi
    rw [heq] at hi
    rcases List.mem_cons.mp hi with hi | hi
    · cases hi
    · obtain ⟨_, -, hi⟩ | ⟨j, e, he, hi⟩ := AppendEntry.answer_events hi
      · cases hi
      · obtain ⟨-, rfl, rfl⟩ : x = _ ∧ i = j ∧ cmd = e.entry := by simpa using hi
        obtain ⟨-, y, hy⟩ := h.log i e he
        exact ⟨y, e.term, List.mem_append_left _ hy⟩

/-- A leader sends the entries of its log. -/
theorem AppendEntryResponse.execute_placed (msg : AppendEntryResponse n) (h : s.Placed tr) :
    (msg.execute up s).Placed tr := by
  have hsend : ∀ (s' : RaftNode n) index, s'.log = s.log → s'.pendingEntry = s.pendingEntry →
      (∀ y d, (msg.sendEntry index up s').node.pendingEntry y = some d → d.CreatedIn tr) ∧
      ∀ dst m, (dst, m) ∈ (msg.sendEntry index up s').sent → m.Placed tr := by
    intro s' index hlog hpending
    have hdata : ∀ d, s'.newEntryData index = some d → d.CreatedIn tr :=
      fun d hd => RaftNode.newEntryData_createdIn (hlog ▸ h.log) hd
    constructor
    · intro y d hd
      unfold AppendEntryResponse.sendEntry at hd
      dsimp only at hd
      split_ifs at hd
      · dsimp only at hd
        by_cases hy : y = msg.nodeId
        · subst hy
          rw [Function.update_self] at hd
          exact hdata d hd
        · rw [Function.update_of_ne hy, hpending] at hd
          exact h.pending y d hd
      · dsimp only at hd
        by_cases hy : y = msg.nodeId
        · subst hy
          rw [Function.update_self] at hd
          exact hdata d hd
        · rw [Function.update_of_ne hy, hpending] at hd
          exact h.pending y d hd
      · rw [Turn.panic, hpending] at hd
        exact h.pending y d hd
    · intro dst m hm
      obtain ⟨-, -, entry, hentry, rfl⟩ := AppendEntryResponse.sendEntry_sent hm
      intro d hd
      obtain rfl := Option.some.inj hd
      exact hdata entry hentry
  obtain ⟨_, _, _, _, _, hnode⟩ := msg.execute_node up s
  obtain ⟨_, _, _, _, hack⟩ := msg.acknowledge_node s
  have hboth : (∀ y d, (msg.execute up s).node.pendingEntry y = some d → d.CreatedIn tr) ∧
      ∀ dst m, (dst, m) ∈ (msg.execute up s).sent → m.Placed tr := by
    unfold AppendEntryResponse.execute
    split_ifs
    · have hrest := hsend (msg.acknowledge s).node (msg.index + 1) (by rw [hack]) (by rw [hack])
      constructor
      · apply Turn.andThen_node (P := fun s' => ∀ y d, s'.pendingEntry y = some d → d.CreatedIn tr)
        · rw [hack]
          exact h.pending
        · exact fun _ => hrest.1
      · intro dst m hm
        rcases Turn.mem_sent_andThen hm with hm | hm
        · simp [AppendEntryResponse.acknowledge_sent] at hm
        · exact hrest.2 dst m hm
    · split
      · exact ⟨h.pending, by simp [Turn.panic]⟩
      · exact hsend s _ rfl rfl
    · exact ⟨h.pending, by simp⟩
  refine .of_log h ?_ (congrArg (·.log) hnode) hboth.1 hboth.2 ?_
  · rw [hnode]
    exact h.term
  · intro x i cmd hi
    obtain ⟨j, e, he, hi⟩ := AppendEntryResponse.execute_events hi
    obtain ⟨-, rfl, rfl⟩ : x = _ ∧ i = j ∧ cmd = e.entry := by simpa using hi
    exact ⟨e, he, rfl⟩

theorem RequestVote.execute_placed (msg : RequestVote n) (h : s.Placed tr) :
    (msg.execute up s).Placed tr := by
  have hsent : ∀ dst m, (dst, m) ∈ (msg.execute up s).sent → m.Placed tr := by
    intro dst m hm
    obtain ⟨-, -, rfl⟩ := RequestVote.execute_sent hm
    trivial
  obtain ⟨-, heq⟩ | ⟨hterm, -, _, heq⟩ | ⟨hterm, -, -, heq⟩ := msg.execute_cases up s <;>
    rw [heq] at hsent ⊢
  · exact .of_log h h.term rfl h.pending hsent (by simp)
  · exact .of_log h (fun _ => Nat.one_le_of_lt hterm) rfl h.pending hsent (by simp)
  · exact .of_log h (fun _ => Nat.one_le_of_lt hterm) rfl h.pending hsent (by simp)

/-- A new leader creates entries at the end of its log. -/
theorem Vote.execute_placed (msg : Vote) (h : s.Placed tr) : (msg.execute up s).Placed tr := by
  obtain ⟨-, heq⟩ | ⟨-, -, heq⟩ | ⟨⟨hrole, -⟩, -, heq⟩ := msg.execute_cases up s
  · rw [heq]
    exact .of_log h h.term rfl h.pending (by simp) (by simp)
  · rw [heq]
    exact .of_log h h.term rfl h.pending (by simp) (by simp)
  have hterm : 1 ≤ s.term := h.term (by simp [hrole])
  have hpending : ∀ y d, { s with votes := s.votes + 1 }.lead.pendingEntry y = some d →
      d.CreatedIn tr := by
    intro y d hd
    dsimp only [RaftNode.lead] at hd
    split_ifs at hd
    · exact RaftNode.lastEntryData_createdIn (s := { s with votes := s.votes + 1 }) h.log hd
    · exact h.pending y d hd
  rw [heq]
  refine ⟨⟨fun _ => hterm, ?_, fun y d hd => (hpending y d hd).append⟩, ?_, ?_⟩
  · intro i e he
    refine h.append_log s.pendingCmds hterm ?_ he
    intro k cmd hk
    refine List.mem_cons_of_mem _ (List.mem_map.mpr ⟨(cmd, k), ?_, rfl⟩)
    exact List.mk_mem_zipIdx_iff_getElem?.mpr hk
  · intro dst m hm
    dsimp only at hm
    obtain ⟨-, rfl⟩ := RaftNode.mem_sendAll hm
    exact fun d hd => (hpending dst d hd).append
  · intro x i cmd hi
    rcases List.mem_cons.mp hi with hi | hi
    · cases hi
    · obtain ⟨_, -, hi⟩ := List.mem_map.mp hi
      cases hi

/-- A turn keeps entries where they have been created. -/
theorem Message.execute_placed (msg : Message n) (h : s.Placed tr) (hmsg : msg.Placed tr) :
    (msg.execute up s).Placed tr := by
  cases msg with
  | accept msg =>
    refine .of_log h h.term rfl ?_ (by simp [execute, Accept.execute])
      (by simp [execute, Accept.execute])
    intro y d hd
    dsimp only [execute, Accept.execute] at hd
    by_cases hy : y = msg.address
    · subst hy
      simp at hd
    · rw [Function.update_of_ne hy] at hd
      exact h.pending y d hd
  | command cmd => exact cmd.execute_placed up h
  | appendEntry msg => exact msg.execute_placed up h hmsg
  | appendEntryResponse msg => exact msg.execute_placed up h
  | requestVote msg => exact msg.execute_placed up h
  | vote msg => exact msg.execute_placed up h

theorem RaftNode.timedOut_placed (h : s.Placed tr) : (s.timedOut up).Placed tr := by
  obtain ⟨-, heq⟩ | ⟨-, heq⟩ | ⟨-, heq⟩ := s.timedOut_cases up <;> rw [heq]
  · refine .of_log h h.term rfl h.pending ?_ (by simp)
    intro dst m hm
    dsimp only at hm
    obtain ⟨-, rfl⟩ := mem_sendAll hm
    exact fun d hd => h.pending dst d hd
  · refine .of_log h (by simp) rfl h.pending ?_ (by simp)
    intro dst m hm
    dsimp only at hm
    obtain ⟨-, rfl⟩ := mem_sendAll hm
    trivial
  · exact .of_log h h.term rfl h.pending (by simp [Turn.panic]) (by simp [Turn.panic])

end Turns

/-- **All entries of the cluster are where they have been created.** -/
structure Placed (tr : List (Event n)) (w : World n) : Prop where
  node : ∀ x, (w.node x).Placed tr
  inbox : ∀ x src m, m ∈ w.inbox x src → m.Placed tr
  applied : ∀ x i cmd, .applied x i cmd ∈ tr → ∃ y T, .created y T i cmd ∈ tr

namespace Placed

variable {tr out : List (Event n)} {w w' : World n} {a : Action n}

theorem init : Placed [] (World.connected n) where
  node x := by
    constructor
    · exact fun h => absurd rfl h
    · exact fun i e he => by simp [World.connected, RaftNode.new] at he
    · exact fun y d hd => by simp [World.connected, RaftNode.new] at hd
  inbox _ _ _ hm := by simp [World.connected] at hm
  applied _ _ _ h := by simp at h

theorem afterTurn (h : Placed tr w) {x : Fin n} {t : Turn n} {moves : List (Partitions n)}
    (ht : t.Placed tr) : Placed (tr ++ t.events) (w.afterTurn x t moves) where
  node y := by
    by_cases hy : y = x
    · subst hy
      rw [World.afterTurn_node_self]
      exact ht.node
    · rw [World.afterTurn_node_ne hy]
      exact (h.node y).append
  inbox y src m hm := by
    rcases World.mem_inbox_afterTurn.mp hm with hm | ⟨-, hm⟩
    · exact (h.inbox y src m hm).append
    · exact ht.sent y m hm
  applied y i cmd hi := by
    rcases List.mem_append.mp hi with hi | hi
    · obtain ⟨z, T, hz⟩ := h.applied y i cmd hi
      exact ⟨z, T, List.mem_append_left _ hz⟩
    · exact ht.applied y i cmd hi

/-- One step of the cluster keeps entries in their places. -/
theorem step (h : Placed tr w) (hstep : step w a = some (w', out)) : Placed (tr ++ out) w' := by
  rcases step_cases hstep with ⟨x, command, -, -, rfl, rfl⟩ |
    ⟨x, src, moves, msg, rest, -, -, hinbox, rfl, rfl⟩ | ⟨x, moves, -, -, rfl, rfl⟩ |
    ⟨x, partition, -, rfl, rfl⟩
  · rw [List.append_nil]
    refine ⟨h.node, ?_, h.applied⟩
    intro y src m hm
    rcases World.mem_inbox_submit.mp hm with hm | ⟨-, -, rfl⟩
    · exact h.inbox y src m hm
    · trivial
  · have hdequeue : Placed tr (w.dequeue x src rest) :=
      ⟨h.node, fun y z m hm => h.inbox y z m (World.mem_inbox_dequeue hinbox hm), h.applied⟩
    have hmsg : msg ∈ w.inbox x src := hinbox ▸ List.mem_cons_self
    exact hdequeue.afterTurn (msg.execute_placed _ (h.node x) (h.inbox x src msg hmsg))
  · exact h.afterTurn (RaftNode.timedOut_placed _ (h.node x))
  · rw [List.append_nil]
    exact ⟨h.node, h.inbox, h.applied⟩

end Placed

/-! ## Applying the log in order -/

/-- The event, as far as the node `x` has applied something. -/
def Event.application (x : Fin n) : Event n → Option (ℕ × Request)
  | .applied y i cmd => if y = x then some (i, cmd) else none
  | _ => none

/-- What the node `x` has applied so far, with the indices of the entries. -/
def appliedBy (x : Fin n) (tr : List (Event n)) : List (ℕ × Request) :=
  tr.filterMap (Event.application x)

@[simp] theorem appliedBy_append (x : Fin n) (tr out : List (Event n)) :
    appliedBy x (tr ++ out) = appliedBy x tr ++ appliedBy x out :=
  List.filterMap_append ..

theorem mem_appliedBy {x : Fin n} {tr : List (Event n)} {i : ℕ} {cmd : Request} :
    (i, cmd) ∈ appliedBy x tr ↔ .applied x i cmd ∈ tr := by
  rw [appliedBy, List.mem_filterMap]
  constructor
  · rintro ⟨e, he, happ⟩
    cases e with
    | applied y j cmd' =>
      rw [Event.application] at happ
      split_ifs at happ with hy
      obtain ⟨rfl, rfl⟩ : j = i ∧ cmd' = cmd := by simpa using happ
      rwa [← hy]
    | _ => simp [Event.application] at happ
  · intro h
    exact ⟨_, h, by simp [Event.application]⟩

/-- **A relation between a node and its turn that applying the log keeps**: it holds of the turns that
apply nothing, of turns one after the other, and of a turn that applies entries, and it looks at
nothing but what has been applied and written. -/
structure Turn.Applies (P : RaftNode n → Turn n → Prop) : Prop where
  quiet {s : RaftNode n} {t : Turn n} : (∀ e ∈ t.events, ∀ x i cmd, e ≠ .applied x i cmd) →
    t.node.committed = s.committed → t.node.networkNode = s.networkNode → P s t
  andThen {s : RaftNode n} {t : Turn n} {f : RaftNode n → Turn n} : P s t → t.node.id = s.id →
    (t.panicked = false → P t.node (f t.node)) → P s (t.andThen f)
  applyLogs (count : ℕ) (s : RaftNode n) : P s (RaftNode.applyLogs s.committed count s)
  congr {s s' : RaftNode n} {t t' : Turn n} : P s' t' → s'.id = s.id →
    s'.committed = s.committed → s'.networkNode = s.networkNode →
    (∀ x, appliedBy x t.events = appliedBy x t'.events) → t.node.committed = t'.node.committed →
    t.node.networkNode = t'.node.networkNode → (t.panicked = false → t'.panicked = false) → P s t

namespace Turn.Applies

variable {P : RaftNode n → Turn n → Prop} (h : Turn.Applies P) (up : ℕ → Fin n → Bool)
  (s : RaftNode n)

include h

theorem answer (msg : AppendEntry n) : P s (msg.answer up s) := by
  unfold AppendEntry.answer
  split
  next d hd =>
    rcases msg.respond_cases d up s with
      ⟨-, heq⟩ | ⟨-, heq⟩ | ⟨-, -, heq⟩ | ⟨-, -, heq⟩ <;> rw [heq] <;>
      exact h.quiet (by simp [Turn.panic]) rfl rfl
  · split_ifs
    · exact h.applyLogs _ s
    · exact h.quiet (by simp) rfl rfl

theorem acknowledge (msg : AppendEntryResponse n) : P s (msg.acknowledge s) := by
  unfold AppendEntryResponse.acknowledge
  split_ifs
  · split
    · exact h.quiet (by simp [Turn.panic]) rfl rfl
    next success _ =>
      dsimp only
      split_ifs
      · have happlied := h.applyLogs (msg.index + 1 - s.committed) { s with
          logEntrySuccess := s.logEntrySuccess.set msg.index (insert msg.nodeId success) }
        exact h.congr happlied rfl rfl rfl (fun _ => rfl) rfl rfl id
      · exact h.quiet (by simp) rfl rfl
  · exact h.quiet (by simp) rfl rfl

/-- The rule for a message. -/
theorem execute (msg : Message n) : P s (msg.execute up s) := by
  cases msg with
  | accept msg => exact h.quiet (by simp [Message.execute, Accept.execute]) rfl rfl
  | command cmd =>
    obtain ⟨-, heq⟩ | ⟨-, _, _, _, _, -, -, heq⟩ := cmd.execute_cases up s <;>
      rw [Message.execute, heq] <;> exact h.quiet (by simp) rfl rfl
  | appendEntry msg =>
    obtain ⟨-, heq⟩ | ⟨-, cmds, pendingCmds, panicked, -, -, heq⟩ := msg.execute_cases up s <;>
      rw [Message.execute, heq]
    · exact h.quiet (by simp) rfl rfl
    · refine h.congr (h.answer up (msg.follow s) msg) rfl rfl rfl (fun _ => rfl) rfl rfl ?_
      intro hpanicked
      exact (Bool.or_eq_false_iff.mp hpanicked).1
  | appendEntryResponse msg =>
    obtain ⟨_, _, _, _, hack⟩ := msg.acknowledge_node s
    -- only the first part of the turn applies anything
    have hsend : ∀ s' index, P s' (msg.sendEntry index up s') := by
      intro s' index
      obtain ⟨_, hnode⟩ := msg.sendEntry_node index up s'
      apply h.quiet
      · simp [AppendEntryResponse.sendEntry_events]
      · exact congrArg (·.committed) hnode
      · exact congrArg (·.networkNode) hnode
    rw [Message.execute, AppendEntryResponse.execute]
    split_ifs
    · exact h.andThen (h.acknowledge s msg) (congrArg (·.id) hack) fun _ => hsend _ _
    · split
      · exact h.quiet (by simp [Turn.panic]) rfl rfl
      · exact hsend s _
    · exact h.quiet (by simp) rfl rfl
  | requestVote msg =>
    obtain ⟨-, heq⟩ | ⟨-, -, _, heq⟩ | ⟨-, -, -, heq⟩ := msg.execute_cases up s <;>
      rw [Message.execute, heq] <;> exact h.quiet (by simp) rfl rfl
  | vote msg =>
    obtain ⟨-, heq⟩ | ⟨-, -, heq⟩ | ⟨-, -, heq⟩ := msg.execute_cases up s <;>
      rw [Message.execute, heq]
    · exact h.quiet (by simp) rfl rfl
    · exact h.quiet (by simp) rfl rfl
    · refine h.quiet ?_ rfl rfl
      intro e he x i cmd happlied
      subst happlied
      rcases List.mem_cons.mp he with he | he
      · cases he
      · obtain ⟨_, -, he⟩ := List.mem_map.mp he
        cases he

/-- The rule for a timeout. -/
theorem timedOut : P s (s.timedOut up) := by
  obtain ⟨-, heq⟩ | ⟨-, heq⟩ | ⟨-, heq⟩ := s.timedOut_cases up <;> rw [heq] <;>
    exact h.quiet (by simp [Turn.panic]) rfl rfl

end Turn.Applies

/-- A turn of the node `s` that applies entries from the first one on that has not been applied. -/
structure Turn.InOrder (s : RaftNode n) (t : Turn n) : Prop where
  own : ∀ x, x ≠ s.id → appliedBy x t.events = []
  committed : ∃ k, (appliedBy s.id t.events).map Prod.fst = List.range' s.committed k ∧
    (t.panicked = false → t.node.committed = s.committed + k)

section InOrder

variable {s : RaftNode n} {t : Turn n}

/-- A turn that applies nothing. -/
theorem Turn.InOrder.of_quiet (hevents : ∀ e ∈ t.events, ∀ x i cmd, e ≠ .applied x i cmd)
    (hcommitted : t.node.committed = s.committed) : t.InOrder s := by
  have hnil : ∀ x, appliedBy x t.events = [] := by
    intro x
    apply List.eq_nil_iff_forall_not_mem.mpr
    rintro ⟨i, cmd⟩ hmem
    exact hevents _ (mem_appliedBy.mp hmem) x i cmd rfl
  exact ⟨fun x _ => hnil x, 0, by simp [hnil], fun _ => hcommitted⟩

/-- Turns in order, one after the other. -/
theorem Turn.InOrder.andThen {f : RaftNode n → Turn n} (h : t.InOrder s) (hid : t.node.id = s.id)
    (hf : t.panicked = false → (f t.node).InOrder t.node) : (t.andThen f).InOrder s := by
  cases hpanicked : t.panicked with
  | true =>
    rw [Turn.andThen_of_panicked hpanicked]
    exact h
  | false =>
    obtain ⟨k, happlied, hcommitted⟩ := h.committed
    obtain ⟨k', happlied', hcommitted'⟩ := (hf hpanicked).committed
    have hcommitted := hcommitted hpanicked
    rw [Turn.andThen_of_not_panicked hpanicked]
    constructor
    · intro x hx
      rw [appliedBy_append, h.own x hx, (hf hpanicked).own x (hid ▸ hx)]
      rfl
    · refine ⟨k + k', ?_, ?_⟩
      · rw [hid, hcommitted] at happlied'
        rw [appliedBy_append, List.map_append, happlied, happlied', List.range'_append_1]
      · intro hpanicked'
        have := hcommitted' hpanicked'
        show (f t.node).node.committed = _
        omega

/-- Applying one entry, and counting it. -/
theorem RaftNode.applyLog_inOrder (s : RaftNode n) :
    ((s.applyLog s.committed).andThen fun s' =>
      { node := { s' with committed := s'.committed + 1 } }).InOrder s := by
  unfold applyLog
  split
  · exact .of_quiet (by simp [Turn.andThen, Turn.panic]) rfl
  · split
    · exact .of_quiet (by simp [Turn.andThen, Turn.panic]) rfl
    · split
      · refine ⟨?_, 1, ?_, by simp [Turn.andThen]⟩
        · intro x hx
          simp [Turn.andThen, appliedBy, Event.application, hx.symm]
        · simp [Turn.andThen, appliedBy, Event.application]
      · refine ⟨?_, 1, ?_, by simp [Turn.andThen]⟩
        · intro x hx
          simp [Turn.andThen, appliedBy, Event.application, hx.symm]
        · simp [Turn.andThen, appliedBy, Event.application]

theorem RaftNode.applyLogs_inOrder (count : ℕ) (s : RaftNode n) :
    (applyLogs s.committed count s).InOrder s := by
  induction count generalizing s with
  | zero => exact .of_quiet (by simp [applyLogs]) rfl
  | succ count ih =>
    obtain ⟨networkNode, book, hnode⟩ := applyLog_node s s.committed
    have hsplit : applyLogs s.committed (count + 1) s =
        ((s.applyLog s.committed).andThen fun s' =>
          { node := { s' with committed := s'.committed + 1 } }).andThen
            fun s' => applyLogs s'.committed count s' := by
      rw [applyLogs]
      cases hpanicked : (s.applyLog s.committed).panicked with
      | true => simp only [Turn.andThen, hpanicked, if_true]
      | false => simp [Turn.andThen, hpanicked, hnode]
    rw [hsplit]
    refine (applyLog_inOrder s).andThen ?_ fun _ => ih _
    apply Turn.andThen_node (P := fun s' => s'.id = s.id)
    · rw [hnode]
    · exact fun hid => hid

/-- The turns in order are closed under what the handlers do. -/
theorem Turn.InOrder.applies : Turn.Applies (n := n) Turn.InOrder where
  quiet hevents hcommitted _ := .of_quiet hevents hcommitted
  andThen := Turn.InOrder.andThen
  applyLogs count s := RaftNode.applyLogs_inOrder count s
  congr h hid hcommitted _ hevents hnode _ hpanicked := by
    obtain ⟨hown, k, happlied, hlast⟩ := h
    rw [hid, hcommitted, ← hevents] at happlied
    rw [hcommitted] at hlast
    refine ⟨?_, k, happlied, fun halive => hnode.trans (hlast (hpanicked halive))⟩
    intro x hx
    rw [hevents]
    exact hown x (hid ▸ hx)

/-- A turn applies entries in order. -/
theorem Message.execute_inOrder (msg : Message n) (up : ℕ → Fin n → Bool) (s : RaftNode n) :
    (msg.execute up s).InOrder s :=
  Turn.InOrder.applies.execute up s msg

theorem RaftNode.timedOut_inOrder (up : ℕ → Fin n → Bool) (s : RaftNode n) :
    (s.timedOut up).InOrder s :=
  Turn.InOrder.applies.timedOut up s

end InOrder

/-- Each node has applied the indices from zero on, one after the other. A node that has panicked
does not count its last one. -/
def InOrder (tr : List (Event n)) (w : World n) : Prop :=
  ∀ x, ∃ k, (appliedBy x tr).map Prod.fst = List.range k ∧
    (w.alive x = true → (w.node x).committed = k)

namespace InOrder

variable {tr out : List (Event n)} {w w' : World n} {a : Action n}

theorem init : InOrder [] (World.connected n) := fun _ => ⟨0, rfl, fun _ => rfl⟩

theorem afterTurn (h : InOrder tr w) {x : Fin n} {t : Turn n} {moves : List (Partitions n)}
    (hid : (w.node x).id = x) (halive : w.alive x = true) (ht : t.InOrder (w.node x)) :
    InOrder (tr ++ t.events) (w.afterTurn x t moves) := by
  intro y
  obtain ⟨k, happlied, hcommitted⟩ := h y
  rw [appliedBy_append, List.map_append, happlied]
  by_cases hy : y = x
  · subst hy
    obtain ⟨k', happlied', hcommitted'⟩ := ht.committed
    have hcommitted := hcommitted halive
    rw [hid, hcommitted] at happlied'
    refine ⟨k + k', ?_, ?_⟩
    · rw [happlied', List.range_eq_range', List.range_eq_range']
      simpa using List.range'_append_1 (s := 0) (m := k) (n := k')
    · intro halive'
      have hpanicked : t.panicked = false := by simpa [World.afterTurn] using halive'
      rw [World.afterTurn_node_self, hcommitted' hpanicked, hcommitted]
  · rw [ht.own y (by rwa [hid])]
    refine ⟨k, by simp, ?_⟩
    intro halive'
    rw [World.afterTurn_node_ne hy]
    exact hcommitted (by simpa [World.afterTurn, hy] using halive')

/-- One step of the cluster. -/
theorem step (h : InOrder tr w) (hconnected : Connected w) (hstep : step w a = some (w', out)) :
    InOrder (tr ++ out) w' := by
  rcases step_cases hstep with ⟨x, command, -, -, rfl, rfl⟩ |
    ⟨x, src, moves, msg, rest, -, halive, -, rfl, rfl⟩ | ⟨x, moves, -, halive, rfl, rfl⟩ |
    ⟨x, partition, -, rfl, rfl⟩
  · rw [List.append_nil]
    exact h
  · have hdequeue : InOrder tr (w.dequeue x src rest) := h
    exact hdequeue.afterTurn (hconnected.id x) halive (msg.execute_inOrder _ _)
  · exact h.afterTurn (hconnected.id x) halive (RaftNode.timedOut_inOrder _ _)
  · rw [List.append_nil]
    exact h

end InOrder

/-! ## The commands of the clients -/

/-- The invariants of the commands hold along every run. -/
theorem placed_of_run {ok : World n → Action n → Prop} {tr : List (Event n)} {w : World n}
    (h : (cluster (World.connected n)).Run ok tr w) :
    Connected w ∧ Conserved tr w ∧ Placed tr w ∧ InOrder tr w := by
  refine Machine.Run.invariant
    (P := fun tr w => Connected w ∧ Conserved tr w ∧ Placed tr w ∧ InOrder tr w) ?_ ?_ h
  · exact ⟨Connected.init, Conserved.init, Placed.init, InOrder.init⟩
  · rintro tr w a w' out ⟨hconnected, hconserved, hplaced, horder⟩ - hstep
    exact ⟨hconnected.step hstep, hconserved.step hstep, hplaced.step hstep,
      horder.step hconnected hstep⟩

/-- What becomes of the commands of the clients. -/
structure CommandsPlaced (tr : List (Event n)) (w : World n) : Prop where
  /-- A command waits in one place, a message or a slot, or has been turned into one entry. -/
  once : ∀ tag < w.submitted, w.places tag + (tr.countP fun e => e.creates tag) = 1
  /-- In the logs, the command is at the index at which its entry has been created. -/
  log : ∀ x T i cmd, .created x T i cmd ∈ tr →
    ∀ y j (e : LogEntry), (w.node y).log[j]? = some e → e.entry.tag = cmd.tag → j = i
  /-- In the messages, the command has the index at which its entry has been created. -/
  message : ∀ x T i cmd, .created x T i cmd ∈ tr → ∀ y src msg d,
    .appendEntry msg ∈ w.inbox y src → msg.entry = some d → d.command.tag = cmd.tag → d.index = i
  /-- A node applies the indices from zero on, each once. -/
  inOrder : ∀ x, (appliedBy x tr).map Prod.fst = List.range (appliedBy x tr).length
  /-- A node applies no command twice. -/
  applied : ∀ x, ((appliedBy x tr).map fun a => a.2.tag).Nodup

/-- **Every command waits in one place until it becomes one entry**, which stays at its index, and
each node applies the indices from zero on, and no command twice. -/
theorem commands_placed {tr : List (Event n)} {w : World n}
    (h : (cluster (World.connected n)).Run Machine.unguarded tr w) : CommandsPlaced tr w := by
  obtain ⟨-, hconserved, hplaced, horder⟩ := placed_of_run h
  constructor
  · intro tag htag
    have hone := hconserved tag
    rwa [if_pos htag] at hone
  · intro x T i cmd hcreated y j e he htag
    obtain ⟨-, z, hz⟩ := (hplaced.node y).log j e he
    exact (hconserved.created_unique hz hcreated htag).2.2.1
  · intro x T i cmd hcreated y src msg d hmsg hd htag
    obtain ⟨⟨-, z, hz⟩, -⟩ := hplaced.inbox y src _ hmsg d hd
    exact (hconserved.created_unique hz hcreated htag).2.2.1
  · intro x
    obtain ⟨k, hindices, -⟩ := horder x
    have hlength : (appliedBy x tr).length = k := by
      simpa using congrArg List.length hindices
    rw [hindices, hlength]
  · intro x
    obtain ⟨k, hindices, -⟩ := horder x
    have hpairwise : (appliedBy x tr).Pairwise fun a b => a.1 ≠ b.1 := by
      have hnodup : ((appliedBy x tr).map Prod.fst).Nodup := hindices ▸ List.nodup_range
      exact List.pairwise_map.mp hnodup
    refine List.pairwise_map.mpr (hpairwise.imp_of_mem ?_)
    rintro ⟨i, cmd⟩ ⟨j, cmd'⟩ ha hb hne htag
    obtain ⟨_, _, hcmd⟩ := hplaced.applied x i cmd (mem_appliedBy.mp ha)
    obtain ⟨_, _, hcmd'⟩ := hplaced.applied x j cmd' (mem_appliedBy.mp hb)
    exact hne (hconserved.created_unique hcmd hcmd' htag).2.2.1

/-- The client of node 1 submits a command, which node 1 forwards to node 0 when that has been elected.
There it becomes an entry and is applied. -/
theorem commands_placed_forwarded :
    ∃ w₀ tr₀ w tr,
      (cluster (World.connected 3)).exec [.submit 1 (.openAccount "a"), .deliver 1 none [],
        .timeout 0 [], .deliver 1 (some 0) [], .deliver 0 (some 1) [], .deliver 1 (some 0) []] =
          some (w₀, tr₀) ∧
      .command ⟨0, .openAccount "a"⟩ ∈ w₀.inbox 0 (some 1) ∧
      (cluster (World.connected 3)).execFrom w₀ tr₀ [.deliver 0 (some 1) [], .deliver 1 (some 0) [],
        .deliver 0 (some 1) []] = some (w, tr) ∧
      .created 0 1 0 ⟨0, .openAccount "a"⟩ ∈ tr ∧ .applied 0 0 ⟨0, .openAccount "a"⟩ ∈ tr ∧
      CommandsPlaced tr w := by
  have hexec : ((cluster (World.connected 3)).exec
      [.submit 1 (.openAccount "a"), .deliver 1 none [], .timeout 0 [], .deliver 1 (some 0) [],
        .deliver 0 (some 1) [], .deliver 1 (some 0) []]).map (fun r =>
          (decide (.command ⟨0, .openAccount "a"⟩ ∈ r.1.inbox 0 (some 1)),
            ((cluster (World.connected 3)).execFrom r.1 r.2 [.deliver 0 (some 1) [],
              .deliver 1 (some 0) [], .deliver 0 (some 1) []]).map fun r' => decide
                (.created 0 1 0 ⟨0, .openAccount "a"⟩ ∈ r'.2 ∧
                  .applied 0 0 ⟨0, .openAccount "a"⟩ ∈ r'.2))) =
      some (true, some true) := by
    decide +kernel
  obtain ⟨⟨w₀, tr₀⟩, hexec, hpair⟩ := Option.map_eq_some_iff.mp hexec
  obtain ⟨hflight, hrest⟩ := Prod.mk.inj hpair
  obtain ⟨⟨w, tr⟩, hrest, hmem⟩ := Option.map_eq_some_iff.mp hrest
  have hrun := Machine.run_execFrom (Machine.run_exec hexec) hrest
  obtain ⟨hcreated, happlied⟩ := of_decide_eq_true hmem
  exact ⟨w₀, tr₀, w, tr, hexec, of_decide_eq_true hflight, hrest, hcreated, happlied,
    commands_placed hrun⟩

end Consensus
