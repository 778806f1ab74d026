import RustPractices.Consensus.Acknowledgement
import RustPractices.Consensus.Repair

/-!
# The entries of leaders

An entry in flight is an entry of its sender, at its index: the sender has been elected in the term of
the message, and its log is the history of this term. As long as no leader is asked for a vote that it
does not give, the terms of the entries of a log ascend.

## Main definitions

* `World.Acts`: the turn of a node in a step of the cluster
* `Genuine`: the entries in flight are entries of their senders, in the order of their terms

## Main results

* `steady_cases`: a steady step is the turn of a node, or it leaves the nodes
* `Grown.new_of_elected`: the history of a term grows by entries of this term
* `Genuine.step`: one steady step of the cluster
-/

open Transition Replication

namespace Consensus

variable {n : ℕ}

/-! ## Entries of a log -/

section EntryAt

variable {log log' : List LogEntry} {i : ℕ} {d : EntryData}

theorem entryAt_eq_some : entryAt log i = some d ↔
    d.index = i ∧ log[i]? = some ⟨d.term, d.command⟩ ∧
      d.prevTerm = termBefore LogEntry.term log i := by
  unfold entryAt
  rw [Option.map_eq_some_iff]
  constructor
  · rintro ⟨e, he, rfl⟩
    exact ⟨rfl, he, rfl⟩
  · rintro ⟨rfl, he, hprev⟩
    exact ⟨_, he, by rw [← hprev]⟩

/-- A longer log has the same entries. -/
theorem entryAt_of_grown (hle : log <+: log') (h : entryAt log i = some d) :
    entryAt log' i = some d := by
  obtain ⟨rest, rfl⟩ := hle
  obtain ⟨hindex, he, hprev⟩ := entryAt_eq_some.mp h
  obtain ⟨hlt, -⟩ := List.getElem?_eq_some_iff.mp he
  refine entryAt_eq_some.mpr ⟨hindex, ?_, ?_⟩
  · rw [List.getElem?_append_left hlt, he]
  · rw [hprev, termBefore_append _ _ hlt.le]

end EntryAt

/-! ## The turns of a step -/

/-- The turn `t` of the node `x`, in which it processes `msg` or its timeout fires. -/
inductive World.Acts (w : World n) (x : Fin n) : Option (Message n) → Turn n → World n → Prop
  | deliver {src : Option (Fin n)} {moves : List (Partitions n)} {msg : Message n}
      {rest : List (Message n)} :
      w.Steady (.deliver x src moves) → w.inbox x src = msg :: rest →
      Acts w x (some msg) (msg.execute (w.up x moves) (w.node x))
        ((w.dequeue x src rest).afterTurn x (msg.execute (w.up x moves) (w.node x)) moves)
  | timeout (moves : List (Partitions n)) :
      Acts w x none ((w.node x).timedOut (w.up x moves))
        (w.afterTurn x ((w.node x).timedOut (w.up x moves)) moves)

/-- A steady step is the turn of a node, or it leaves the nodes and the messages between them. -/
theorem steady_cases {w w' : World n} {a : Action n} {out : List (Event n)} (hsteady : w.Steady a)
    (hstep : step w a = some (w', out)) :
    (out = [] ∧ w'.node = w.node ∧ ∀ x y, w'.inbox x (some y) = w.inbox x (some y)) ∨
    ∃ x msg t, w.Acts x msg t w' ∧ out = t.events ∧
      ∀ m, msg = some m → ∃ src moves, a = .deliver x src moves ∧ m ∈ (w.inbox x src).head? := by
  rcases step_cases hstep with ⟨x, command, -, -, rfl, rfl⟩ |
    ⟨x, src, moves, msg, rest, rfl, -, hinbox, rfl, rfl⟩ | ⟨x, moves, -, -, rfl, rfl⟩ |
    ⟨x, partition, -, rfl, rfl⟩
  · exact .inl ⟨rfl, rfl, fun _ y => World.inbox_submit_some y⟩
  · refine .inr ⟨x, some msg, _, .deliver hsteady hinbox, rfl, ?_⟩
    rintro m hm
    obtain rfl := Option.some.inj hm
    exact ⟨src, moves, rfl, by rw [hinbox, List.head?_cons, Option.mem_some]⟩
  · exact .inr ⟨x, none, _, .timeout moves, rfl, fun m hm => by cases hm⟩
  · exact .inl ⟨rfl, rfl, fun _ _ => rfl⟩

namespace World.Acts

variable {hist : ℕ → List LogEntry} {tr : List (Event n)} {w w' : World n} {x y : Fin n}
  {t : Turn n} {msg : Option (Message n)}

theorem replicates (h : w.Acts x msg t w') (hmatching : Matching hist tr w) :
    t.Replicates hist tr w x msg := by
  cases h with
  | deliver hsteady hinbox =>
    exact hmatching.histories.execute_replicates hmatching.connected hsteady hinbox
  | timeout moves => exact Histories.timedOut_replicates hmatching.connected

theorem node_self (h : w.Acts x msg t w') : w'.node x = t.node := by
  cases h with
  | deliver _ _ => exact afterTurn_node_self
  | timeout _ => exact afterTurn_node_self

theorem node_ne (h : w.Acts x msg t w') (hy : y ≠ x) : w'.node y = w.node y := by
  cases h with
  | deliver _ _ => exact afterTurn_node_ne hy
  | timeout _ => exact afterTurn_node_ne hy

/-- What is in flight after a turn has been in flight before, or has been sent. -/
theorem mem_inbox (h : w.Acts x msg t w') {src : Option (Fin n)} {m : Message n}
    (hm : m ∈ w'.inbox y src) : m ∈ w.inbox y src ∨ src = some x ∧ (y, m) ∈ t.sent := by
  cases h with
  | deliver _ hinbox =>
    rcases mem_inbox_afterTurn.mp hm with hold | hnew
    · exact .inl (mem_inbox_dequeue hinbox hold)
    · exact .inr hnew
  | timeout _ => exact mem_inbox_afterTurn.mp hm

/-- The message that is processed has been in flight. -/
theorem received (h : w.Acts x msg t w') {m : Message n} (hm : msg = some m) :
    ∃ src, m ∈ w.inbox x src := by
  cases h with
  | @deliver src _ _ _ _ hinbox =>
    obtain rfl := Option.some.inj hm
    exact ⟨src, hinbox ▸ List.mem_cons_self⟩
  | timeout _ => cases hm

end World.Acts

/-! ## The histories of a step -/

/-- A leader extends its log by entries of its term. -/
theorem Turn.Replicates.log_of_leader {hist : ℕ → List LogEntry} {tr : List (Event n)} {w : World n}
    {x : Fin n} {msg : Option (Message n)} {t : Turn n} (ht : t.Replicates hist tr w x msg)
    (hrole : t.node.role = .leader) : ∃ cmds : List Request, t.node.log =
      (w.node x).log ++ cmds.map fun cmd => ⟨(w.node x).term, cmd⟩ := by
  cases ht.logged with
  | keep hlog _ _ => exact ⟨[], by rw [hlog, List.map_nil, List.append_nil]⟩
  | create cmds _ _ _ hlog _ => exact ⟨cmds, hlog⟩
  | accept _ _ _ _ _ hrole' => simp [hrole'] at hrole

/-- A node that has been elected in a term has led it as long as it has this term. -/
theorem Matching.leads {hist : ℕ → List LogEntry} {tr : List (Event n)} {w : World n} {c : Fin n}
    {T : ℕ} (h : Matching hist tr w) (hc : .elected c T ∈ tr) (hle : (w.node c).term ≤ T) :
    (w.node c).term = T ∧ (w.node c).role = .leader ∧ hist T = (w.node c).log := by
  obtain rfl : (w.node c).term = T := le_antisymm hle (h.election.elected c T hc).1
  have hrole := h.histories.elected c hc
  exact ⟨rfl, hrole, h.histories.leader c hrole⟩

namespace Grown

variable {hist hist' : ℕ → List LogEntry} {tr tr' : List (Event n)} {w w' : World n} {x : Fin n}
  {t : Turn n} {msg : Option (Message n)}

/-- A step that leaves the nodes leaves the histories. -/
theorem eq_of_node (hgrown : Grown hist hist' w') (hnode : w'.node = w.node)
    (h : Histories hist tr w) (h' : Histories hist' tr' w') : hist' = hist := by
  funext T
  rcases hgrown.led T with heq | ⟨x, hrole, rfl⟩
  · exact heq
  · rw [h'.leader x hrole, hnode, h.leader x (hnode ▸ hrole)]

/-- What is new in the history of a term in which a node has been elected is of this term. -/
theorem new_of_elected (hgrown : Grown hist hist' w') (hm : Matching hist tr w)
    (hact : w.Acts x msg t w') (hm' : Matching hist' (tr ++ t.events) w') {c : Fin n} {T : ℕ}
    (hc : .elected c T ∈ tr) (k : ℕ) (e : LogEntry) (he : (hist' T)[k]? = some e) :
    (hist T)[k]? = some e ∨ e.term = T := by
  rcases hgrown.led T with heq | ⟨y, hrole, rfl⟩
  · exact .inl (heq ▸ he)
  obtain rfl : c = y :=
    hm'.election.eq_of_elected (List.mem_append_left _ hc) (hm'.leader y hrole)
  rw [hm'.histories.leader c hrole] at he
  by_cases hx : c = x
  · subst hx
    have ht := hact.replicates hm
    have hterm : (w.node c).term ≤ (w'.node c).term := by
      rw [hact.node_self]
      exact ht.electoral.term_le
    obtain ⟨hterm', -, hlog⟩ := hm.leads hc hterm
    rw [hact.node_self] at hrole he
    obtain ⟨cmds, hextend⟩ := ht.log_of_leader hrole
    rw [hextend, ← hlog, List.getElem?_append] at he
    split_ifs at he
    · exact .inl he
    · obtain ⟨cmd, -, rfl⟩ := List.mem_map.mp (List.mem_of_getElem? he)
      exact .inr hterm'
  · rw [hact.node_ne hx] at hrole he
    have hlog := hm.histories.leader c hrole
    rw [hact.node_ne hx, hlog]
    exact .inl he

end Grown

/-! ## Genuine entries -/

/-- **The entries are genuine**: they are sent by leaders that have them at their indices, and the terms
of the entries of a log ascend to the term of its node. -/
structure Genuine (hist : ℕ → List LogEntry) (w : World n) : Prop where
  log_le : ∀ x, ∀ e ∈ (w.node x).log, e.term ≤ (w.node x).term
  hist_le : ∀ T, ∀ e ∈ hist T, e.term ≤ T
  sorted : ∀ T, (hist T).Pairwise fun e e' => e.term ≤ e'.term
  pending : ∀ x y d, (w.node x).role = .leader → y ≠ x → (w.node x).pendingEntry y = some d →
    entryAt (w.node x).log d.index = some d
  entry : ∀ x src a d, .appendEntry a ∈ w.inbox x src → a.entry = some d →
    entryAt (hist a.term) d.index = some d

namespace Genuine

variable {hist hist' : ℕ → List LogEntry} {tr out : List (Event n)} {w w' : World n} {x : Fin n}
  {t : Turn n} {msg : Option (Message n)}

theorem init : Genuine (fun _ => []) (World.connected n) where
  log_le _ _ h := by simp [World.connected, RaftNode.new] at h
  hist_le _ _ h := by simp at h
  sorted _ := .nil
  pending _ _ _ h := by simp [World.connected, RaftNode.new] at h
  entry _ _ _ _ h := by simp [World.connected] at h

/-- The terms of a log ascend. -/
theorem sorted_log (h : Genuine hist w) (hhist : Histories hist tr w) (x : Fin n) :
    (w.node x).log.Pairwise fun e e' => e.term ≤ e'.term :=
  (hhist.log x).pairwise h.sorted

/-- The terms of a log after a turn. -/
theorem log_le_turn (h : Genuine hist w) (ht : t.Replicates hist tr w x msg)
    (hmsg : ∀ a d, msg = some (.appendEntry a) → a.entry = some d →
      entryAt (hist a.term) d.index = some d) {e : LogEntry} (he : e ∈ t.node.log) :
    e.term ≤ t.node.term := by
  have hterm := ht.electoral.term_le
  cases ht.logged with
  | keep hlog _ _ => exact (h.log_le x e (hlog ▸ he)).trans hterm
  | create cmds _ hterm' _ hlog _ =>
    rw [hlog] at he
    rcases List.mem_append.mp he with he | he
    · exact (h.log_le x e he).trans hterm
    · obtain ⟨cmd, -, rfl⟩ := List.mem_map.mp he
      exact hterm'.ge
  | accept a d ha hd _ _ hterm' _ hlog _ =>
    rw [hlog] at he
    rcases List.mem_append.mp he with he | he
    · exact (h.log_le x e (List.mem_of_mem_take he)).trans hterm
    · obtain rfl := List.mem_singleton.mp he
      obtain ⟨-, hentry, -⟩ := entryAt_eq_some.mp (hmsg a d ha hd)
      rw [hterm']
      exact h.hist_le a.term _ (List.mem_of_getElem? hentry)

/-- The turn of a node. -/
theorem turn (h : Genuine hist w) (hm : Matching hist tr w) (hact : w.Acts x msg t w')
    (hm' : Matching hist' (tr ++ t.events) w') (hgrown : Grown hist hist' w') :
    Genuine hist' w' := by
  have ht := hact.replicates hm
  have hlog : ∀ y, ∀ e ∈ (w'.node y).log, e.term ≤ (w'.node y).term := by
    intro y e he
    by_cases hy : y = x
    · subst hy
      rw [hact.node_self] at he ⊢
      refine h.log_le_turn ht (fun a d ha hd => ?_) he
      obtain ⟨src, hmem⟩ := hact.received ha
      exact h.entry y src a d hmem hd
    · rw [hact.node_ne hy] at he ⊢
      exact h.log_le y e he
  have hpending : ∀ y z d, (w'.node y).role = .leader → z ≠ y →
      (w'.node y).pendingEntry z = some d → entryAt (w'.node y).log d.index = some d := by
    intro y z d hrole hz hd
    by_cases hy : y = x
    · subst hy
      rw [hact.node_self] at hrole hd ⊢
      rcases ht.pending z d hd with ⟨hd, hold⟩ | ⟨i, hd⟩
      · obtain ⟨cmds, hextend⟩ := ht.log_of_leader hrole
        have hentry := h.pending y z d (hold hrole (hm.connected.mem_nodes.mpr hz)) hz hd
        exact entryAt_of_grown (hextend ▸ List.prefix_append _ _) hentry
      · rw [RaftNode.newEntryData_eq] at hd
        obtain ⟨rfl, -⟩ := entryAt_eq_some.mp hd
        exact hd
    · rw [hact.node_ne hy] at hrole hd ⊢
      exact h.pending y z d hrole hz hd
  refine ⟨hlog, ?_, ?_, hpending, ?_⟩
  · intro T e he
    rcases hgrown.led T with heq | ⟨y, hrole, rfl⟩
    · exact h.hist_le T e (heq ▸ he)
    · rw [hm'.histories.leader y hrole] at he
      exact hlog y e he
  · intro T
    rcases hgrown.led T with heq | ⟨y, hrole, rfl⟩
    · rw [heq]
      exact h.sorted T
    rw [hm'.histories.leader y hrole]
    by_cases hy : y = x
    · subst hy
      rw [hact.node_self] at hrole ⊢
      obtain ⟨cmds, hextend⟩ := ht.log_of_leader hrole
      rw [hextend]
      refine List.pairwise_append.mpr ⟨h.sorted_log hm.histories y, ?_, ?_⟩
      · exact List.pairwise_map.mpr (List.pairwise_of_forall fun _ _ => le_rfl)
      · intro e he e' he'
        obtain ⟨cmd, -, rfl⟩ := List.mem_map.mp he'
        exact h.log_le y e he
    · rw [hact.node_ne hy]
      exact h.sorted_log hm.histories y
  · intro y src a d ha hd
    rcases hact.mem_inbox ha with hold | ⟨rfl, hnew⟩
    · exact entryAt_of_grown (hgrown.le a.term) (h.entry y src a d hold hd)
    · obtain ⟨hmsg', hy, -⟩ := ht.append y a hnew
      obtain ⟨helected, -⟩ := hm'.histories.inbox y x _ ha
      obtain rfl : a = _ := Message.appendEntry.inj hmsg'
      have hterm : (w'.node x).term = t.node.term := by rw [hact.node_self]
      have hrole := hm'.histories.elected x (hterm.symm ▸ helected)
      have hentry := hpending x y d hrole hy (by rw [hact.node_self]; exact hd)
      rw [← hm'.histories.leader x hrole, hterm] at hentry
      exact hentry

/-- A step that leaves the nodes and the messages between them. -/
theorem quiet (h : Genuine hist w) (hm' : Matching hist tr w') (hnode : w'.node = w.node)
    (hinbox : ∀ x y, w'.inbox x (some y) = w.inbox x (some y)) : Genuine hist w' where
  log_le := hnode ▸ h.log_le
  hist_le := h.hist_le
  sorted := h.sorted
  pending := hnode ▸ h.pending
  entry x src a d ha hd := by
    cases src with
    | none =>
      obtain ⟨cmd, hcmd⟩ := hm'.connected.client x _ ha
      cases hcmd
    | some y => exact h.entry x (some y) a d (hinbox x y ▸ ha) hd

/-- One steady step of the cluster keeps the entries genuine. -/
theorem step (h : Genuine hist w) (hm : Matching hist tr w) {a : Action n} (hsteady : w.Steady a)
    (hstep : step w a = some (w', out)) (hm' : Matching hist' (tr ++ out) w')
    (hgrown : Grown hist hist' w') : Genuine hist' w' := by
  rcases steady_cases hsteady hstep with ⟨rfl, hnode, hinbox⟩ | ⟨x, msg, t, hact, rfl, -⟩
  · obtain rfl := hgrown.eq_of_node hnode hm.histories hm'.histories
    exact h.quiet hm' hnode hinbox
  · exact h.turn hm hact hm' hgrown

end Genuine

end Consensus
