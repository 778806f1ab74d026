import RustPractices.Consensus.Agreement

/-!
# The replicated bank

A node writes an entry to its log file before it executes the command on its book. As long as it does not
panic, its book is what the commands of the log file make of an empty book, so that a node could be
restored from its file. Where the nodes agree on what they apply, the cluster is one bank: there is one
sequence of commands, and each node has executed a beginning of it.

## Main definitions

* `RaftNode.Restorable`: the log file of a node restores its book
* `World.OneBank`: the nodes have executed beginnings of one sequence of commands

## Main results

* `log_file_restores`: the log file restores the book, along every run
* `one_bank`: the nodes are replicas of one bank
-/

open Transition

namespace Consensus

variable {n : ℕ}

/-! ## Restoring a node -/

/-- The lines of the log file are numbered from one on. -/
structure NetworkNode.Numbered (net : NetworkNode) : Prop where
  lines : net.logFile.map Prod.fst = List.range' 1 net.logFile.length
  last : net.logEntryNo = net.logFile.length

theorem NetworkNode.Numbered.append {net net' : NetworkNode} {cmd : Request} (h : net.Numbered)
    (happend : net.append cmd = some net') : net'.Numbered := by
  unfold NetworkNode.append at happend
  split_ifs at happend
  obtain rfl := Option.some.inj happend
  constructor
  · rw [List.map_append, h.lines, List.length_append]
    simp [h.last, List.range'_concat, Nat.add_comm]
  · simp [h.last]

/-- The turn keeps the numbers of the lines. -/
def Turn.KeepsNumbers (s : RaftNode n) (t : Turn n) : Prop :=
  s.networkNode.Numbered → t.node.networkNode.Numbered

theorem RaftNode.applyLog_numbers (s : RaftNode n) (index : ℕ) :
    (s.applyLog index).KeepsNumbers s := by
  intro h
  unfold applyLog
  split
  · exact h
  · split
    · exact h
    next net hnet => split <;> exact h.append hnet

theorem RaftNode.applyLogs_numbers (index count : ℕ) (s : RaftNode n) :
    (applyLogs index count s).KeepsNumbers s := by
  induction count generalizing index s with
  | zero => exact fun h => h
  | succ count ih =>
    intro h
    apply Turn.andThen_node (P := fun s' => s'.networkNode.Numbered)
    · exact s.applyLog_numbers index h
    · exact fun hfirst => ih (index + 1) _ hfirst

/-- The turns that keep the numbers are closed under what the handlers do. -/
theorem Turn.KeepsNumbers.applies : Turn.Applies (n := n) Turn.KeepsNumbers where
  quiet _ _ hnode h := hnode ▸ h
  andThen := by
    intro s t f ht hid hf h
    cases hpanicked : t.panicked with
    | true =>
      rw [Turn.andThen_of_panicked hpanicked]
      exact ht h
    | false =>
      rw [Turn.andThen_of_not_panicked hpanicked]
      exact hf hpanicked (ht h)
  applyLogs count s := s.applyLogs_numbers s.committed count
  congr hkeeps _ _ hnet _ _ hnode _ h := hnode ▸ hkeeps (hnet ▸ h)

/-- **The log file of a node restores its book**: there is a numbered line for each entry that counts as
committed, and the commands of the lines make the book. -/
structure RaftNode.Restorable (s : RaftNode n) : Prop where
  numbered : s.networkNode.Numbered
  committed : s.committed = s.networkNode.logFile.length
  book : Book.empty.executeAll checkedAdd (s.networkNode.logFile.map fun line => line.2.command) =
    some s.book

/-- The books of the nodes that have not panicked are what they have executed. -/
structure Booked (tr : List (Event n)) (w : World n) : Prop where
  numbered : ∀ x, (w.node x).networkNode.Numbered
  book : ∀ x, w.alive x = true →
    Book.empty.executeAll checkedAdd (appliedCommands x tr) = some (w.node x).book

namespace Booked

variable {tr out : List (Event n)} {w w' : World n} {a : Action n}

theorem init : Booked [] (World.connected n) where
  numbered _ := ⟨rfl, rfl⟩
  book _ _ := rfl

/-- The turn of a node. -/
theorem afterTurn (h : Booked tr w) {x : Fin n} {t : Turn n} {moves : List (Partitions n)}
    {bound : ℕ} (hid : (w.node x).id = x) (halive : w.alive x = true) (horder : t.InOrder (w.node x))
    (hto : t.CommitsTo (w.node x) bound) (hnumbers : t.KeepsNumbers (w.node x)) :
    Booked (tr ++ t.events) (w.afterTurn x t moves) := by
  constructor
  · intro y
    by_cases hy : y = x
    · subst hy
      rw [World.afterTurn_node_self]
      exact hnumbers (h.numbered y)
    · rw [World.afterTurn_node_ne hy]
      exact h.numbered y
  · intro y halive'
    by_cases hy : y = x
    · subst hy
      have hpanicked : t.panicked = false := by simpa [World.afterTurn] using halive'
      have hbook := hto.book hpanicked
      rw [hid] at hbook
      rw [World.afterTurn_node_self, appliedCommands_append, Book.executeAll_bind, h.book y halive]
      exact hbook
    · have hnone : appliedCommands y t.events = [] := by
        rw [appliedCommands, horder.own y (by rwa [hid]), List.map_nil]
      rw [World.afterTurn_node_ne hy, appliedCommands_append, hnone, List.append_nil]
      exact h.book y (by simpa [World.afterTurn, hy] using halive')

/-- One step of the cluster. -/
theorem step (h : Booked tr w) (hconnected : Connected w) (hstep : step w a = some (w', out)) :
    Booked (tr ++ out) w' := by
  rcases step_cases hstep with ⟨x, command, -, -, rfl, rfl⟩ |
    ⟨x, src, moves, msg, rest, -, halive, -, rfl, rfl⟩ | ⟨x, moves, -, halive, rfl, rfl⟩ |
    ⟨x, partition, -, rfl, rfl⟩
  · rw [List.append_nil]
    exact ⟨h.numbered, h.book⟩
  · obtain ⟨bound, -, hto⟩ := msg.execute_commits (w.up x moves) (w.node x)
    have hdequeue : Booked tr (w.dequeue x src rest) := ⟨h.numbered, h.book⟩
    exact hdequeue.afterTurn (hconnected.id x) halive (msg.execute_inOrder _ _) hto
      (Turn.KeepsNumbers.applies.execute _ _ msg)
  · exact h.afterTurn (hconnected.id x) halive (RaftNode.timedOut_inOrder _ _)
      (RaftNode.timedOut_commits _ _) (Turn.KeepsNumbers.applies.timedOut _ _)
  · rw [List.append_nil]
    exact ⟨h.numbered, h.book⟩

theorem of_run {ok : World n → Action n → Prop} (h : (cluster (World.connected n)).Run ok tr w) :
    Booked tr w := by
  have hinv := h.invariant (P := fun tr w => Connected w ∧ Booked tr w) ⟨.init, .init⟩ ?_
  · exact hinv.2
  · rintro tr w a w' out ⟨hconnected, hbooked⟩ - hstep
    exact ⟨hconnected.step hstep, hbooked.step hconnected hstep⟩

end Booked

/-- The commands of a log file are those that the node has applied. -/
theorem Recorded.commands {tr : List (Event n)} {w : World n} (h : Recorded tr w) (x : Fin n) :
    ((w.node x).networkNode.logFile.map fun line => line.2.command) = appliedCommands x tr := by
  have hlines := congrArg (List.map Request.command) (h x)
  rwa [List.map_map, List.map_map] at hlines

/-- **The log file of every node that has not panicked restores its book**, along every run. -/
theorem log_file_restores {tr : List (Event n)} {w : World n}
    (h : (cluster (World.connected n)).Run Machine.unguarded tr w) {x : Fin n}
    (halive : w.alive x = true) : (w.node x).Restorable := by
  have hbooked := Booked.of_run h
  have hrecorded := Recorded.of_run h
  obtain ⟨-, -, -, horder⟩ := placed_of_run h
  obtain ⟨k, hindices, hcommitted⟩ := horder x
  refine ⟨hbooked.numbered x, ?_, ?_⟩
  · have hlines := congrArg List.length (hrecorded x)
    have hlength := congrArg List.length hindices
    simp only [List.length_map, List.length_range] at hlines hlength
    rw [hcommitted halive, hlines, hlength]
  · rw [hrecorded.commands, hbooked.book x halive]

/-- An entry is applied, and its line is in the log file. -/
theorem log_file_restores_one :
    ∃ tr w, (cluster (World.connected 3)).Run Machine.unguarded tr w ∧ w.alive 1 = true ∧
      (w.node 1).networkNode.logFile = [(1, ⟨0, .openAccount "a"⟩)] ∧ (w.node 1).Restorable := by
  obtain ⟨tr, w, hrun, -, ⟨halive, hfile⟩, -⟩ := exists_applied
  have hrun' : (cluster (World.connected 3)).Run Machine.unguarded tr w := hrun.mono fun _ _ _ => trivial
  exact ⟨tr, w, hrun', halive, hfile, log_file_restores hrun' halive⟩

/-! ## One bank -/

/-- **The cluster is one bank**: there is one sequence of commands of the clients, no command twice. Each
node has applied a beginning of it, and its book is what this beginning makes of an empty book, unless
it has panicked. -/
def World.OneBank (w : World n) : Prop :=
  ∃ cmds : List Request, (cmds.map Request.tag).Nodup ∧ (∀ cmd ∈ cmds, cmd.tag < w.submitted) ∧
    ∀ x, (w.node x).networkNode.logFile.map Prod.snd <+: cmds ∧
      (w.alive x = true → Book.empty.executeAll checkedAdd
        ((cmds.take (w.node x).committed).map Request.command) = some (w.node x).book)

/-- Two nodes have applied beginnings of one sequence. -/
theorem prefix_of_agree {tr : List (Event n)} {w : World n} (horder : InOrder tr w) {x y : Fin n}
    (hagree : ∀ i cmd cmd', .applied x i cmd ∈ tr → .applied y i cmd' ∈ tr → cmd = cmd')
    (hle : (appliedBy x tr).length ≤ (appliedBy y tr).length) :
    (appliedBy x tr).map Prod.snd <+: (appliedBy y tr).map Prod.snd := by
  refine List.prefix_iff_getElem?.mpr fun i hi => ?_
  rw [List.length_map] at hi
  have hx := List.getElem?_eq_getElem hi
  have hy := List.getElem?_eq_getElem (hi.trans_le hle)
  rw [List.getElem_map, List.getElem?_map, hy]
  generalize (appliedBy x tr)[i] = a at hx ⊢
  generalize (appliedBy y tr)[i] = b at hy ⊢
  obtain ⟨j, cmd⟩ := a
  obtain ⟨j', cmd'⟩ := b
  obtain rfl := horder.index_eq hx
  obtain rfl := horder.index_eq hy
  rw [hagree j' cmd cmd' (mem_appliedBy.mp (List.mem_of_getElem? hx))
    (mem_appliedBy.mp (List.mem_of_getElem? hy))]
  rfl

/-- **The nodes are replicas of one bank**, in a run in which no response makes a majority for an entry
of an earlier term. -/
theorem one_bank {tr : List (Event n)} {w : World n}
    (h : (cluster (World.connected n)).Run World.CommitsOwn tr w) : w.OneBank := by
  rcases isEmpty_or_nonempty (Fin n) with hempty | hnonempty
  · exact ⟨[], .nil, by simp, fun x => hempty.elim x⟩
  have hrecorded := Recorded.of_run h
  have hbooked := Booked.of_run h
  obtain ⟨-, hconserved, hplaced, horder⟩ := placed_of_run h
  have hall := commands_placed (h.mono fun _ _ _ => trivial)
  obtain ⟨y, hy⟩ := Finite.exists_max fun x => (appliedBy x tr).length
  have hbegin : ∀ x, (appliedBy x tr).map Prod.snd <+: (appliedBy y tr).map Prod.snd :=
    fun x => prefix_of_agree horder (fun i cmd cmd' => applied_agree h) (hy x)
  refine ⟨(appliedBy y tr).map Prod.snd, ?_, ?_, fun x => ⟨hrecorded x ▸ hbegin x, fun halive => ?_⟩⟩
  · rw [List.map_map]
    exact hall.applied y
  · intro cmd hcmd
    obtain ⟨⟨i, cmd⟩, hmem, rfl⟩ := List.mem_map.mp hcmd
    obtain ⟨z, T, hz⟩ := hplaced.applied y i cmd (mem_appliedBy.mp hmem)
    have hone := hconserved cmd.tag
    split_ifs at hone with hlt
    · exact hlt
    · have hpos : 0 < tr.countP fun e => e.creates cmd.tag :=
        List.countP_pos_iff.mpr ⟨_, hz, by simp [Event.creates]⟩
      omega
  · obtain ⟨k, hindices, hcommitted⟩ := horder x
    have hlength : ((appliedBy x tr).map Prod.snd).length = (w.node x).committed := by
      have hlength := congrArg List.length hindices
      simp only [List.length_map, List.length_range] at hlength ⊢
      rw [hcommitted halive, hlength]
    rw [← hlength, ← List.prefix_iff_eq_take.mp (hbegin x), List.map_map]
    exact hbooked.book x halive

/-- Two of three nodes have executed a command, and the third one has executed none. -/
theorem one_bank_two :
    ∃ tr w, (cluster (World.connected 3)).Run World.CommitsOwn tr w ∧
      .applied 0 0 ⟨0, .openAccount "a"⟩ ∈ tr ∧ .applied 1 0 ⟨0, .openAccount "a"⟩ ∈ tr ∧
      w.OneBank := by
  obtain ⟨tr, w, hrun, ⟨hzero, hone⟩, -⟩ := exists_applied
  exact ⟨tr, w, hrun, hzero, hone, one_bank hrun⟩

end Consensus
