import RustPractices.Consensus.Applying
import RustPractices.Consensus.LogMatching
import RustPractices.Consensus.Startup

/-!
# The order of the commands of one office

A command may wait at its office, at a leader that has been deposed or in a message, while a later
command of the same office reaches a new leader on another way and becomes an entry first. The nodes
then apply the two commands in the wrong order. They apply all commands of each office in order as
long as a command becomes an entry only after the earlier ones of its office.

## Main definitions

* `offices`: the offices of the commands that have been submitted
* `Message.creations`: the commands that a message turns into entries
* `Message.entries`: the entries that a message gives to a node
* `World.InSequence`: commands that come after all earlier ones of their offices
* `Sequential`: the steps that create entries in sequence and give a node no other entry than the
  one that it has applied

## Main results

* `offices_in_order`: each node applies the commands of each office in order, in runs with
  sequential steps
* `office_overtaken`: a run in which a command is overtaken
-/

open Transition Replication

namespace Consensus

variable {n : ℕ}

/-- The offices to which the commands have been submitted, after one more step: that of the command
with the tag `k` is the `k`-th one. -/
def offices (g : List (Fin n)) (_ : World n) (a : Action n) (_ : World n) : List (Fin n) :=
  match a with
  | .submit x _ => g ++ [x]
  | _ => g

/-- The cluster with the offices of the commands. -/
def clusterOffices (n : ℕ) : Machine (World n × List (Fin n)) (Action n) (Event n) :=
  (cluster (World.connected n)).ghost [] offices

/-- The first command is of another office than the second one, or has been submitted before it. -/
def Before (g : List (Fin n)) (c d : Request) : Prop :=
  g[c.tag]? = g[d.tag]? → c.tag < d.tag

instance (g : List (Fin n)) (c d : Request) : Decidable (Before g c d) :=
  inferInstanceAs (Decidable (_ → _))

/-! ## The entries of a turn -/

/-- The command has been turned into an entry. -/
def Created (tr : List (Event n)) (cmd : Request) : Prop :=
  ∃ x T i, .created x T i cmd ∈ tr

/-- The commands that the message makes the node turn into entries. -/
def Message.creations (s : RaftNode n) : Message n → List Request
  | .command cmd => if s.role = .leader then [cmd] else []
  | .vote v => if (Message.vote v : Message n).Elects s then s.pendingCmds else []
  | .accept _ | .appendEntry _ | .appendEntryResponse _ | .requestVote _ => []

/-- The command of the entry that the node takes over, with its index. -/
def AppendEntry.taken (up : ℕ → Fin n → Bool) (s : RaftNode n) (a : AppendEntry n) :
    List (ℕ × Request) :=
  match a.entry with
  | some d =>
    if s.term ≤ a.term ∧ a.nodeId ∈ s.nodes ∧ up 0 a.nodeId ∧
        d.prevTerm = s.prevEntryTerm d.index then
      [(d.index, d.command)]
    else []
  | none => []

/-- The commands of the entries that the message gives to the node, with their indices. -/
def Message.entries (up : ℕ → Fin n → Bool) (s : RaftNode n) : Message n → List (ℕ × Request)
  | .appendEntry a => a.taken up s
  | msg => (msg.creations s).zipIdx.map fun (cmd, k) => (s.log.length + k, cmd)

section Turns

variable {up : ℕ → Fin n → Bool} {s : RaftNode n} {msg : Message n}

/-- A message that is not an `AppendEntry` extends the log by the commands that it turns into
entries. -/
theorem Message.execute_log_of_ne (h : ∀ a, msg ≠ .appendEntry a) :
    (msg.execute up s).node.log = s.log ++ (msg.creations s).map fun cmd => ⟨s.term, cmd⟩ := by
  cases msg with
  | accept msg => exact (List.append_nil _).symm
  | command cmd =>
    obtain ⟨hrole, heq⟩ | ⟨hrole, _, _, _, _, -, -, heq⟩ := cmd.execute_cases up s <;>
      rw [execute, heq, creations]
    · rw [if_pos hrole]
      rfl
    · rw [if_neg hrole]
      exact (List.append_nil _).symm
  | appendEntry a => exact absurd rfl (h a)
  | appendEntryResponse msg =>
    obtain ⟨_, _, _, _, _, hnode⟩ := msg.execute_node up s
    rw [execute, hnode]
    exact (List.append_nil _).symm
  | requestVote msg =>
    obtain ⟨-, heq⟩ | ⟨-, -, _, heq⟩ | ⟨-, -, -, heq⟩ := msg.execute_cases up s <;>
      rw [execute, heq] <;> exact (List.append_nil _).symm
  | vote v =>
    obtain ⟨hnot, heq⟩ | ⟨hcandidate, hvotes, heq⟩ | ⟨hcandidate, hvotes, heq⟩ :=
      v.execute_cases up s <;> rw [execute, heq, creations]
    · rw [if_neg fun helects => hnot ⟨helects.1, helects.2.1⟩]
      exact (List.append_nil _).symm
    · rw [if_neg fun helects => absurd helects.2.2 (not_lt.mpr hvotes)]
      exact (List.append_nil _).symm
    · rw [if_pos (show Elects s (.vote v) from ⟨hcandidate.1, hcandidate.2, hvotes⟩)]
      rfl

/-- The log of a leader after a message. -/
theorem Message.execute_log_of_leader (h : (msg.execute up s).node.role = .leader) :
    (msg.execute up s).node.log = s.log ++ (msg.creations s).map fun cmd => ⟨s.term, cmd⟩ := by
  cases msg with
  | appendEntry a =>
    obtain ⟨-, heq⟩ | ⟨-, _, _, _, -, -, heq⟩ := a.execute_cases up s
    · rw [execute, heq]
      exact (List.append_nil _).symm
    · obtain ⟨_, _, _, _, _, hanswer⟩ := a.answer_node up (a.follow s)
      rw [execute, heq, hanswer] at h
      cases h
  | accept _ | command _ | appendEntryResponse _ | requestVote _ | vote _ =>
    exact execute_log_of_ne (by simp)

/-- The entries of the log after a message have been there before, or the message has given them to
the node. -/
theorem Message.execute_entries (hindex : ∀ a d, msg = .appendEntry a → a.entry = some d →
      d.prevTerm = s.prevEntryTerm d.index → d.index ≤ s.log.length) {i : ℕ} {e : LogEntry}
    (he : (msg.execute up s).node.log[i]? = some e) :
    s.log[i]? = some e ∨ (i, e.entry) ∈ msg.entries up s := by
  have hcreated : (∀ a, msg ≠ .appendEntry a) → s.log[i]? = some e ∨
      (i, e.entry) ∈ (msg.creations s).zipIdx.map fun (cmd, k) => (s.log.length + k, cmd) := by
    intro hne
    rw [execute_log_of_ne hne] at he
    rcases lt_or_ge i s.log.length with hi | hi
    · exact .inl (by rwa [List.getElem?_append_left hi] at he)
    · rw [List.getElem?_append_right hi, List.getElem?_map] at he
      obtain ⟨cmd, hcmd, rfl⟩ := Option.map_eq_some_iff.mp he
      refine .inr (List.mem_map.mpr ⟨(cmd, i - s.log.length), ?_, ?_⟩)
      · exact List.mk_mem_zipIdx_iff_getElem?.mpr hcmd
      · show (s.log.length + (i - s.log.length), cmd) = (i, cmd)
        rw [Nat.add_sub_cancel' hi]
  cases msg with
  | accept _ | command _ | appendEntryResponse _ | requestVote _ | vote _ =>
    exact hcreated (by simp)
  | appendEntry a =>
    obtain ⟨-, heq⟩ | ⟨hterm, _, _, _, -, -, heq⟩ := a.execute_cases up s <;>
      rw [execute, heq] at he
    · exact .inl he
    have he : (a.answer up (a.follow s)).node.log[i]? = some e := he
    unfold AppendEntry.answer at he
    split at he
    next d hd =>
      unfold AppendEntry.respond at he
      dsimp only at he
      split_ifs at he with hnode hup hprev
      · have hprev : d.prevTerm = (a.follow s).prevEntryTerm d.index := by simpa using hprev
        rcases getElem?_take_append_singleton (hindex a d rfl hd hprev) he with he | ⟨rfl, rfl⟩
        · exact .inl he
        · have htaken : s.term ≤ a.term ∧ a.nodeId ∈ s.nodes ∧ up 0 a.nodeId ∧
              d.prevTerm = s.prevEntryTerm d.index := ⟨hterm, hnode, hup, hprev⟩
          right
          simp only [entries, AppendEntry.taken, hd]
          rw [if_pos htaken]
          exact List.mem_singleton_self _
      · exact .inl he
      · exact .inl he
      · exact .inl he
    · split_ifs at he
      · obtain ⟨_, _, _, hnode⟩ := RaftNode.applyLogs_node (a.follow s).committed
          (min a.committed (a.follow s).log.length - (a.follow s).committed) (a.follow s)
        rw [hnode] at he
        exact .inl he
      · exact .inl he

/-- The commands that a message turns into entries. -/
theorem Message.mem_creations {cmd : Request} :
    cmd ∈ msg.creations s ↔ Created (msg.execute up s).events cmd := by
  unfold Created
  cases msg with
  | accept msg => simp [creations, execute, Accept.execute]
  | command c =>
    obtain ⟨hrole, heq⟩ | ⟨hrole, _, _, _, _, -, -, heq⟩ := c.execute_cases up s <;>
      rw [execute, heq, creations]
    · simp [hrole]
    · simp [hrole]
  | appendEntry msg =>
    have hnot : ∀ x T i, .created x T i cmd ∉ (msg.execute up s).events := by
      intro x T i h
      obtain ⟨-, heq⟩ | ⟨-, _, _, _, -, -, heq⟩ := msg.execute_cases up s <;> rw [heq] at h
      · simp at h
      · rcases List.mem_cons.mp h with h | h
        · cases h
        · obtain ⟨_, -, h⟩ | ⟨_, _, -, h⟩ := AppendEntry.answer_events h <;> cases h
    simp [creations, execute, hnot]
  | appendEntryResponse msg =>
    have hnot : ∀ x T i, .created x T i cmd ∉ (msg.execute up s).events := by
      intro x T i h
      obtain ⟨_, _, -, h⟩ := AppendEntryResponse.execute_events h
      cases h
    simp [creations, execute, hnot]
  | requestVote msg =>
    obtain ⟨-, heq⟩ | ⟨-, -, _, heq⟩ | ⟨-, -, -, heq⟩ := msg.execute_cases up s <;>
      rw [execute, heq, creations] <;> simp
  | vote v =>
    obtain ⟨hnot, heq⟩ | ⟨hcandidate, hvotes, heq⟩ | ⟨hcandidate, hvotes, heq⟩ :=
      v.execute_cases up s <;> rw [execute, heq, creations]
    · rw [if_neg fun helects => hnot ⟨helects.1, helects.2.1⟩]
      simp
    · rw [if_neg fun helects => absurd helects.2.2 (not_lt.mpr hvotes)]
      simp
    · rw [if_pos (show Elects s (.vote v) from ⟨hcandidate.1, hcandidate.2, hvotes⟩)]
      constructor
      · intro hcmd
        obtain ⟨k, hk⟩ := List.mem_iff_getElem?.mp hcmd
        refine ⟨s.id, s.term, s.log.length + k, List.mem_cons_of_mem _ ?_⟩
        exact List.mem_map.mpr ⟨(cmd, k), List.mk_mem_zipIdx_iff_getElem?.mpr hk, rfl⟩
      · rintro ⟨x, T, i, hmem⟩
        rcases List.mem_cons.mp hmem with hmem | hmem
        · cases hmem
        · obtain ⟨⟨cmd', k⟩, hk, heq⟩ := List.mem_map.mp hmem
          obtain ⟨-, -, -, rfl⟩ := by simpa using heq
          exact List.fst_mem_of_mem_zipIdx hk

theorem RaftNode.not_timedOut_created {cmd : Request} : ¬ Created (s.timedOut up).events cmd := by
  rintro ⟨x, T, i, h⟩
  obtain ⟨-, heq⟩ | ⟨-, heq⟩ | ⟨-, heq⟩ := s.timedOut_cases up <;> rw [heq] at h <;>
    simp [Turn.panic] at h

end Turns

/-! ## Entries in sequence -/

/-- The commands come after all earlier commands of their offices: these do not wait anywhere, or
they are among the commands. -/
structure World.InSequence (w : World n) (g : List (Fin n)) (cmds : List Request) : Prop where
  among : cmds.Pairwise (Before g)
  others : ∀ cmd ∈ cmds, ∀ tag < cmd.tag, g[tag]? = g[cmd.tag]? →
    w.places tag = 0 ∨ tag ∈ cmds.map Request.tag

instance (w : World n) (g : List (Fin n)) (cmds : List Request) :
    Decidable (w.InSequence g cmds) :=
  decidable_of_iff (cmds.Pairwise (Before g) ∧ ∀ cmd ∈ cmds, ∀ tag < cmd.tag,
      g[tag]? = g[cmd.tag]? → w.places tag = 0 ∨ tag ∈ cmds.map Request.tag)
    ⟨fun h => ⟨h.1, h.2⟩, fun h => ⟨h.1, h.2⟩⟩

/-- At the indices of the entries, the node has applied no other commands. -/
def RaftNode.Agrees (s : RaftNode n) (entries : List (ℕ × Request)) : Prop :=
  ∀ p ∈ entries, ∀ line ∈ s.networkNode.logFile[p.1]?, line.2 = p.2

instance (s : RaftNode n) (entries : List (ℕ × Request)) : Decidable (s.Agrees entries) :=
  inferInstanceAs (Decidable (∀ p ∈ entries, ∀ line ∈ s.networkNode.logFile[p.1]?, line.2 = p.2))

/-- The step is steady, turns commands into entries in sequence, and gives a node no other entry at
an index than the one that it has applied. -/
def Sequential (s : World n × List (Fin n)) (a : Action n) : Prop :=
  s.1.Steady a ∧ match a with
    | .deliver x src moves => ∀ msg ∈ (s.1.inbox x src).head?,
        s.1.InSequence s.2 (msg.creations (s.1.node x)) ∧
          (s.1.node x).Agrees (msg.entries (s.1.up x moves) (s.1.node x))
    | _ => True

instance (s : World n × List (Fin n)) : (a : Action n) → Decidable (Sequential s a)
  | .deliver x src _ =>
    inferInstanceAs (Decidable (_ ∧ ∀ msg ∈ (s.1.inbox x src).head?, _ ∧ _))
  | .submit .. | .timeout .. | .setPartition .. => inferInstanceAs (Decidable (_ ∧ True))

section Created

variable {tr out : List (Event n)} {w : World n} {c d : Request}

theorem Created.append_left (h : Created tr c) : Created (tr ++ out) c := by
  obtain ⟨x, T, i, hmem⟩ := h
  exact ⟨x, T, i, List.mem_append_left _ hmem⟩

theorem Created.append_right (h : Created out c) : Created (tr ++ out) c := by
  obtain ⟨x, T, i, hmem⟩ := h
  exact ⟨x, T, i, List.mem_append_right _ hmem⟩

theorem created_append : Created (tr ++ out) c ↔ Created tr c ∨ Created out c := by
  constructor
  · rintro ⟨x, T, i, hmem⟩
    rcases List.mem_append.mp hmem with hmem | hmem
    · exact .inl ⟨x, T, i, hmem⟩
    · exact .inr ⟨x, T, i, hmem⟩
  · rintro (h | h)
    · exact h.append_left
    · exact h.append_right

theorem Created.countP_pos (h : Created tr c) : 0 < tr.countP fun e => e.creates c.tag := by
  obtain ⟨x, T, i, hmem⟩ := h
  exact List.countP_pos_iff.mpr ⟨_, hmem, by simp [Event.creates]⟩

/-- Entries are made of commands that have been submitted. -/
theorem Conserved.tag_lt (h : Conserved tr w) (hc : Created tr c) : c.tag < w.submitted := by
  have hone := h c.tag
  have hpos := hc.countP_pos
  split_ifs at hone with hlt
  · exact hlt
  · omega

/-- A command that has become an entry does not become one again. -/
theorem Conserved.tag_ne (h : Conserved (tr ++ out) w) (hc : Created tr c) (hd : Created out d) :
    c.tag ≠ d.tag := by
  intro htag
  have hone := h d.tag
  have hpos := hc.countP_pos
  have hpos' := hd.countP_pos
  rw [htag] at hpos
  rw [List.countP_append] at hone
  split_ifs at hone <;> omega

/-- A command that does not wait has become an entry. -/
theorem Conserved.exists_created (h : Conserved tr w) {tag : ℕ} (hplaces : w.places tag = 0)
    (htag : tag < w.submitted) : ∃ c, Created tr c ∧ c.tag = tag := by
  have hone := h tag
  rw [hplaces, if_pos htag] at hone
  have hpos : 0 < tr.countP fun e => e.creates tag := by omega
  obtain ⟨e, he, hcreates⟩ := List.countP_pos_iff.mp hpos
  cases e with
  | created x T i c => exact ⟨c, ⟨x, T, i, he⟩, by simpa [Event.creates] using hcreates⟩
  | _ => simp [Event.creates] at hcreates

/-- More commands of the offices. -/
theorem Before.append {g : List (Fin n)} (h : Before g c d) (hc : c.tag < g.length)
    (hd : d.tag < g.length) (x : Fin n) : Before (g ++ [x]) c d := by
  intro heq
  rw [List.getElem?_append_left hc, List.getElem?_append_left hd] at heq
  exact h heq

end Created

/-! ## The invariant -/

/-- The invariants of a run with steady steps, with what the nodes have applied. -/
structure Executed (hist : ℕ → List LogEntry) (tr : List (Event n)) (w : World n) : Prop where
  matching : Matching hist tr w
  conserved : Conserved tr w
  inOrder : InOrder tr w
  recorded : Recorded tr w

theorem Executed.init : Executed (fun _ => []) [] (World.connected n) :=
  ⟨.init, .init, .init, .init⟩

theorem Executed.step {hist : ℕ → List LogEntry} {tr out : List (Event n)} {w w' : World n}
    {a : Action n} (h : Executed hist tr w) (hsteady : w.Steady a)
    (hstep : step w a = some (w', out)) :
    ∃ hist', Grown hist hist' w' ∧ Executed hist' (tr ++ out) w' := by
  obtain ⟨hist', hgrown, hmatching⟩ := h.matching.step hsteady hstep
  exact ⟨hist', hgrown, hmatching, h.conserved.step hstep,
    h.inOrder.step h.matching.connected hstep, h.recorded.step h.matching.connected hstep⟩

/-- **The invariant of offices**: the histories and what the nodes have applied are in the order of
the offices, and no earlier command of an office is left behind by an entry. -/
structure Ordered (hist : ℕ → List LogEntry) (tr : List (Event n)) (w : World n)
    (g : List (Fin n)) : Prop where
  earlier : ∀ c, Created tr c → ∀ tag < c.tag, g[tag]? = g[c.tag]? → ∃ d, Created tr d ∧ d.tag = tag
  created : ∀ T, ∀ e ∈ hist T, Created tr e.entry
  hist : ∀ T, (hist T).Pairwise fun e e' => Before g e.entry e'.entry
  log : ∀ x i cmd, (i, cmd) ∈ appliedBy x tr → ∀ e, (w.node x).log[i]? = some e → e.entry = cmd
  applied : ∀ x i j c d, (i, c) ∈ appliedBy x tr → (j, d) ∈ appliedBy x tr → i < j → Before g c d

namespace Ordered

variable {hist hist' : ℕ → List LogEntry} {tr out : List (Event n)} {w w' : World n}
  {g : List (Fin n)} {x : Fin n}

theorem init : Ordered (fun _ => []) [] (World.connected n) [] where
  earlier _ h := by simp [Created] at h
  created _ _ h := by simp at h
  hist _ := .nil
  log _ _ _ h := by simp [appliedBy] at h
  applied _ _ _ _ _ h := by simp [appliedBy] at h

/-- More commands of the offices. -/
theorem append (h : Ordered hist tr w g) (hlt : ∀ c, Created tr c → c.tag < g.length)
    (happlied : ∀ x i c, (i, c) ∈ appliedBy x tr → Created tr c) (y : Fin n) :
    Ordered hist tr w (g ++ [y]) where
  earlier c hc tag htag heq := by
    have hlt := hlt c hc
    rw [List.getElem?_append_left hlt, List.getElem?_append_left (htag.trans hlt)] at heq
    exact h.earlier c hc tag htag heq
  created := h.created
  hist T := by
    refine (h.hist T).imp_of_mem ?_
    intro e e' he he' hbefore
    exact hbefore.append (hlt _ (h.created T e he)) (hlt _ (h.created T e' he')) y
  log := h.log
  applied x i j c d hc hd hij := by
    have hbefore := h.applied x i j c d hc hd hij
    exact hbefore.append (hlt _ (happlied x i c hc)) (hlt _ (happlied x j d hd)) y

/-- The logs are in the order of the offices. -/
theorem pairwise_log (h : Ordered hist tr w g) (hmatching : Matching hist tr w) (x : Fin n) :
    (w.node x).log.Pairwise fun e e' => Before g e.entry e'.entry :=
  (hmatching.histories.log x).pairwise h.hist

/-- A log is in the order of the offices when its new entries are in sequence. -/
theorem pairwise_append (h : Ordered hist tr w g) (hexecuted : Executed hist tr w)
    (hconserved : Conserved (tr ++ out) w') {cmds : List Request} (hsequence : w.InSequence g cmds)
    (hcmds : ∀ cmd ∈ cmds, Created out cmd) (T : ℕ) :
    ((w.node x).log ++ cmds.map fun cmd => (⟨T, cmd⟩ : LogEntry)).Pairwise
      fun e e' => Before g e.entry e'.entry := by
  refine List.pairwise_append.mpr ⟨h.pairwise_log hexecuted.matching x, ?_, ?_⟩
  · exact List.pairwise_map.mpr hsequence.among
  · intro e he e' he' heq
    obtain ⟨cmd, hcmd, rfl⟩ := List.mem_map.mp he'
    obtain ⟨i, hi⟩ := List.mem_iff_getElem?.mp he
    obtain ⟨-, y, hy⟩ := (hexecuted.matching.placed.node x).log i e hi
    have hcreated : Created tr e.entry := ⟨y, e.term, i, hy⟩
    rcases lt_trichotomy e.entry.tag cmd.tag with hlt | heq' | hgt
    · exact hlt
    · exact absurd heq' (hconserved.tag_ne hcreated (hcmds cmd hcmd))
    · obtain ⟨d, hd, htag⟩ := h.earlier _ hcreated cmd.tag hgt heq.symm
      exact absurd htag (hconserved.tag_ne hd (hcmds cmd hcmd))

/-- The turn of a node. -/
theorem turn (h : Ordered hist tr w g) (hexecuted : Executed hist tr w)
    (hexecuted' : Executed hist' (tr ++ out) w') (hgrown : Grown hist hist' w')
    (hnodes : ∀ y, y ≠ x → w'.node y = w.node y) (cmds : List Request)
    (entries : List (ℕ × Request)) (hsequence : w.InSequence g cmds)
    (hcmds : ∀ cmd, cmd ∈ cmds ↔ Created out cmd) (hsubmitted : ∀ cmd ∈ cmds, cmd.tag < w.submitted)
    (hlead : (w'.node x).role = .leader → (w'.node x).log =
      (w.node x).log ++ cmds.map fun cmd => ⟨(w.node x).term, cmd⟩)
    (hagrees : (w.node x).Agrees entries)
    (hentries : ∀ i (e : LogEntry), (w'.node x).log[i]? = some e →
      (w.node x).log[i]? = some e ∨ (i, e.entry) ∈ entries)
    (happlied : ∀ i cmd, (i, cmd) ∈ appliedBy x out →
      ∃ e, (w'.node x).log[i]? = some e ∧ e.entry = cmd)
    (hothers : ∀ y, y ≠ x → appliedBy y out = []) :
    Ordered hist' (tr ++ out) w' g := by
  have hleader : ∀ y, (w'.node y).role = .leader →
      (w'.node y).log.Pairwise fun e e' => Before g e.entry e'.entry := by
    intro y hrole
    by_cases hy : y = x
    · subst hy
      rw [hlead hrole]
      exact h.pairwise_append hexecuted hexecuted'.conserved hsequence
        (fun cmd hcmd => (hcmds cmd).mp hcmd) _
    · rw [hnodes y hy]
      exact h.pairwise_log hexecuted.matching y
  have hhist : ∀ T, (hist' T).Pairwise fun e e' => Before g e.entry e'.entry := by
    intro T
    rcases hgrown.leader T with heq | ⟨y, hrole, heq⟩ <;> rw [heq]
    · exact h.hist T
    · exact hleader y hrole
  have hlog : ∀ y i cmd, (i, cmd) ∈ appliedBy y (tr ++ out) →
      ∀ e, (w'.node y).log[i]? = some e → e.entry = cmd := by
    intro y i cmd hmem e he
    rw [appliedBy_append] at hmem
    by_cases hy : y = x
    · subst hy
      rcases List.mem_append.mp hmem with hold | hnew
      · rcases hentries i e he with he | hentry
        · exact h.log y i cmd hold e he
        · have hfile : ((w.node y).networkNode.logFile.map Prod.snd)[i]? = some cmd := by
            rw [hexecuted.recorded y, List.getElem?_map,
              hexecuted.inOrder.getElem?_appliedBy hold]
            rfl
          rw [List.getElem?_map] at hfile
          obtain ⟨line, hline, rfl⟩ := Option.map_eq_some_iff.mp hfile
          exact (hagrees _ hentry line hline).symm
      · obtain ⟨e', he', rfl⟩ := happlied i cmd hnew
        rw [he'] at he
        rw [Option.some.inj he]
    · rw [hothers y hy, List.append_nil] at hmem
      rw [hnodes y hy] at he
      exact h.log y i cmd hmem e he
  constructor
  · intro c hc tag htag heq
    rcases created_append.mp hc with hold | hnew
    · obtain ⟨d, hd, hdtag⟩ := h.earlier c hold tag htag heq
      exact ⟨d, hd.append_left, hdtag⟩
    · have hmem := (hcmds c).mpr hnew
      -- an earlier command of the office is an entry already, or becomes one in the same turn
      rcases hsequence.others c hmem tag htag heq with hplaces | hamong
      · obtain ⟨d, hd, hdtag⟩ :=
          hexecuted.conserved.exists_created hplaces (htag.trans (hsubmitted c hmem))
        exact ⟨d, hd.append_left, hdtag⟩
      · obtain ⟨d, hd, hdtag⟩ := List.mem_map.mp hamong
        exact ⟨d, ((hcmds d).mp hd).append_right, hdtag⟩
  · intro T e he
    rcases hgrown.leader T with heq | ⟨y, -, heq⟩ <;> rw [heq] at he
    · exact (h.created T e he).append_left
    · obtain ⟨i, hi⟩ := List.mem_iff_getElem?.mp he
      obtain ⟨-, z, hz⟩ := (hexecuted'.matching.placed.node y).log i e hi
      exact ⟨z, e.term, i, hz⟩
  · exact hhist
  · exact hlog
  · intro y i j c d hc hd hij
    have hc' := hc
    rw [appliedBy_append] at hc hd
    -- the later one has been applied before the turn, and so has the earlier one, or in the turn
    rcases List.mem_append.mp hd with hd | hd
    · rcases List.mem_append.mp hc with hc | hc
      · exact h.applied y i j c d hc hd hij
      · exact absurd hij (hexecuted'.inOrder.lt_of_append hd hc).not_gt
    · by_cases hy : y = x
      · subst hy
        obtain ⟨e', he', rfl⟩ := happlied j d hd
        obtain ⟨hj, heq'⟩ := List.getElem?_eq_some_iff.mp he'
        have hi := List.getElem?_eq_getElem (hij.trans hj)
        have heq := hlog y i c hc' _ hi
        have hpairwise := (hexecuted'.matching.histories.log y).pairwise hhist
        have hbefore := List.pairwise_iff_getElem.mp hpairwise i j (hij.trans hj) hj hij
        rwa [heq, heq'] at hbefore
      · rw [hothers y hy] at hd
        cases hd

/-- A step that gives no node an entry. -/
theorem quiet (h : Ordered hist tr w g) (hexecuted : Executed hist tr w)
    (hexecuted' : Executed hist' (tr ++ out) w') (hgrown : Grown hist hist' w')
    (hnodes : ∀ y, y ≠ x → w'.node y = w.node y) (hlog : (w'.node x).log = (w.node x).log)
    (hcreated : ∀ cmd, ¬ Created out cmd) (happlied : ∀ y, appliedBy y out = []) :
    Ordered hist' (tr ++ out) w' g := by
  refine h.turn hexecuted hexecuted' hgrown hnodes [] [] ⟨.nil, by simp⟩ ?_ (by simp) ?_ ?_ ?_ ?_
    fun y _ => happlied y
  · intro cmd
    simp [hcreated cmd]
  · intro _
    rw [hlog, List.map_nil, List.append_nil]
  · intro p hp
    cases hp
  · intro i e he
    exact .inl (hlog ▸ he)
  · intro i cmd hmem
    rw [happlied] at hmem
    cases hmem

/-- One sequential step of the cluster, with the offices as they are before it. -/
theorem step (h : Ordered hist tr w g) (hexecuted : Executed hist tr w) {a : Action n}
    (hsequential : Sequential (w, g) a) (hstep : step w a = some (w', out)) :
    ∃ hist', Executed hist' (tr ++ out) w' ∧ Ordered hist' (tr ++ out) w' g := by
  obtain ⟨hist', hgrown, hexecuted'⟩ := hexecuted.step hsequential.1 hstep
  refine ⟨hist', hexecuted', ?_⟩
  rcases step_cases hstep with ⟨x, command, -, -, rfl, rfl⟩ |
    ⟨x, src, moves, msg, rest, rfl, -, hinbox, rfl, rfl⟩ | ⟨x, moves, -, -, rfl, rfl⟩ |
    ⟨x, partition, -, rfl, rfl⟩
  · exact h.quiet (x := x) hexecuted hexecuted' hgrown (fun _ _ => rfl) rfl (by simp [Created])
      fun _ => rfl
  · have hmem : msg ∈ w.inbox x src := hinbox ▸ List.mem_cons_self
    obtain ⟨hsequence, hagrees⟩ :=
      hsequential.2 msg (by rw [hinbox, List.head?_cons, Option.mem_some])
    have hcmds : ∀ cmd, cmd ∈ msg.creations (w.node x) ↔
        Created (msg.execute (w.up x moves) (w.node x)).events cmd := fun _ => Message.mem_creations
    refine h.turn hexecuted hexecuted' hgrown (fun y hy => World.afterTurn_node_ne hy) _ _ hsequence
      hcmds ?_ ?_ hagrees ?_ ?_ ?_
    · intro cmd hcmd
      exact hexecuted'.conserved.tag_lt ((hcmds cmd).mp hcmd).append_right
    · intro hrole
      rw [World.afterTurn_node_self] at hrole ⊢
      exact Message.execute_log_of_leader hrole
    · intro i e he
      rw [World.afterTurn_node_self] at he
      refine Message.execute_entries ?_ he
      rintro a d rfl hd hprev
      have hplaced := hexecuted.matching.placed.inbox x src _ hmem
      exact (hplaced d hd).index_le hprev
    · intro i cmd happlied
      rw [World.afterTurn_node_self]
      exact Message.execute_applied (mem_appliedBy.mp happlied)
    · intro y hy
      exact (msg.execute_inOrder _ _).own y (by rwa [hexecuted.matching.connected.id x])
  · refine h.quiet hexecuted hexecuted' hgrown (fun y hy => World.afterTurn_node_ne hy) ?_
      (fun _ => RaftNode.not_timedOut_created) ?_
    · rw [World.afterTurn_node_self]
      obtain ⟨-, heq⟩ | ⟨-, heq⟩ | ⟨-, heq⟩ := (w.node x).timedOut_cases (w.up x moves) <;>
        exact congrArg (·.node.log) heq
    · intro y
      apply List.eq_nil_iff_forall_not_mem.mpr
      rintro ⟨i, cmd⟩ hmem
      exact RaftNode.not_timedOut_applied (mem_appliedBy.mp hmem)
  · exact h.quiet (x := x) hexecuted hexecuted' hgrown (fun _ _ => rfl) rfl (by simp [Created])
      fun _ => rfl

end Ordered

/-- The invariants hold along every run with sequential steps. -/
theorem Ordered.of_run {tr : List (Event n)} {s : World n × List (Fin n)}
    (h : (clusterOffices n).Run Sequential tr s) :
    ∃ hist, Executed hist tr s.1 ∧ Ordered hist tr s.1 s.2 ∧ s.2.length = s.1.submitted := by
  refine Machine.Run.invariant (P := fun tr s =>
    ∃ hist, Executed hist tr s.1 ∧ Ordered hist tr s.1 s.2 ∧ s.2.length = s.1.submitted) ?_ ?_ h
  · exact ⟨_, .init, .init, rfl⟩
  · rintro tr ⟨w, g⟩ a ⟨w', g'⟩ out ⟨hist, hexecuted, hordered, hlength⟩ hsequential hstep
    obtain ⟨hstep, hg⟩ := Machine.step_of_ghost hstep
    dsimp only at hexecuted hordered hlength hstep hg ⊢
    obtain ⟨hist', hexecuted', hordered'⟩ := hordered.step hexecuted hsequential hstep
    refine ⟨hist', hexecuted', ?_⟩
    rcases step_cases hstep with ⟨x, command, rfl, -, rfl, rfl⟩ |
      ⟨x, src, moves, msg, rest, rfl, -, -, rfl, rfl⟩ | ⟨x, moves, rfl, -, rfl, rfl⟩ |
      ⟨x, partition, rfl, rfl, rfl⟩
    · have hlt : ∀ c, Created (tr ++ []) c → c.tag < g.length := by
        intro c hc
        rw [List.append_nil] at hc
        rw [hlength]
        exact hexecuted.conserved.tag_lt hc
      rw [hg]
      refine ⟨hordered'.append hlt ?_ x, ?_⟩
      · intro y i c hmem
        obtain ⟨z, T, hz⟩ := hexecuted'.matching.placed.applied y i c (mem_appliedBy.mp hmem)
        exact ⟨z, T, i, hz⟩
      · show (g ++ [x]).length = w.submitted + 1
        rw [List.length_append, hlength]
        rfl
    · exact ⟨hg ▸ hordered', hg ▸ hlength⟩
    · exact ⟨hg ▸ hordered', hg ▸ hlength⟩
    · exact ⟨hg ▸ hordered', hg ▸ hlength⟩

/-- Each node applies the commands of each office in the order in which they have been submitted. -/
def InOfficeOrder (tr : List (Event n)) (g : List (Fin n)) : Prop :=
  ∀ (x : Fin n) (k k' i i' : ℕ) (c d : Request),
    (appliedBy x tr)[k]? = some (i, c) → (appliedBy x tr)[k']? = some (i', d) →
      ∀ office, g[c.tag]? = some office → g[d.tag]? = some office → c.tag < d.tag → k < k'

/-- **Each node applies the commands of each office in order**, in a run with sequential steps. -/
theorem offices_in_order {tr : List (Event n)} {s : World n × List (Fin n)}
    (h : (clusterOffices n).Run Sequential tr s) : InOfficeOrder tr s.2 := by
  obtain ⟨hist, hexecuted, hordered, -⟩ := Ordered.of_run h
  intro x k k' i i' c d hk hk' office hc hd htag
  have hinOrder := hexecuted.inOrder
  obtain rfl := hinOrder.index_eq hk
  obtain rfl := hinOrder.index_eq hk'
  rcases lt_trichotomy i i' with hlt | rfl | hgt
  · exact hlt
  · obtain ⟨-, rfl⟩ : i = i ∧ c = d := by simpa using hk.symm.trans hk'
    exact absurd htag (lt_irrefl _)
  · have hbefore := hordered.applied x i' i d c (List.mem_of_getElem? hk')
      (List.mem_of_getElem? hk) hgt
    exact absurd (hbefore (hd.trans hc.symm)) htag.not_gt

/-- The leader gets two commands of its own office, and applies both. -/
theorem offices_in_order_two :
    ∃ tr s, (clusterOffices 3).Run Sequential tr s ∧
      appliedBy 0 tr = [(0, ⟨0, .openAccount "a"⟩), (1, ⟨1, .openAccount "b"⟩)] ∧
      InOfficeOrder tr s.2 := by
  have hexec : (((clusterOffices 3).guard Sequential).exec (electionOfZero ++
      ([.submit 0 (.openAccount "a"), .submit 0 (.openAccount "b"), .deliver 0 none [],
        .deliver 0 none [], .deliver 1 (some 0) [], .deliver 1 (some 0) [], .deliver 0 (some 1) [],
        .deliver 1 (some 0) [], .deliver 0 (some 1) []] : List (Action 3)))).map
        (fun r => appliedBy 0 r.2) =
      some [(0, ⟨0, .openAccount "a"⟩), (1, ⟨1, .openAccount "b"⟩)] := by
    decide +kernel
  obtain ⟨⟨s, tr⟩, hexec, happlied⟩ := Option.map_eq_some_iff.mp hexec
  have hrun := Machine.Run.of_guard (Machine.run_exec hexec)
  exact ⟨tr, s, hrun, happlied, offices_in_order hrun⟩

/-- **A command can be overtaken by a later one of its office.** -/
theorem office_overtaken :
    ¬ ∀ tr s, (clusterOffices 3).Run Machine.unguarded tr s → InOfficeOrder tr s.2 := by
  intro h
  have hexec : ((clusterOffices 3).exec overtaking).map (fun r => (appliedBy 2 r.2, r.1.2)) =
      some ([(0, ⟨1, .openAccount "b"⟩), (1, ⟨0, .openAccount "a"⟩)], [1, 1]) := by
    decide +kernel
  obtain ⟨⟨s, tr⟩, hexec, hend⟩ := Option.map_eq_some_iff.mp hexec
  obtain ⟨happlied, hoffices⟩ := Prod.mk.inj hend
  have hlt := h tr s (Machine.run_exec hexec) 2 1 0 1 0 ⟨0, .openAccount "a"⟩ ⟨1, .openAccount "b"⟩
    (by rw [happlied]; rfl) (by rw [happlied]; rfl) 1 (by rw [hoffices]; rfl)
    (by rw [hoffices]; rfl) (by decide)
  exact absurd hlt (by decide)

end Consensus
