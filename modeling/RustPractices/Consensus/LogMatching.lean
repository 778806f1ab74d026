import RustPractices.Consensus.Leadership
import RustPractices.Consensus.Logging
import RustPractices.Consensus.Placement
import RustPractices.Replication.Histories

/-!
# Log matching

As long as no leader is asked for a vote that it does not give, each term has one writer: the node
that has been elected in it. The history of a term is the log of its leader, which outlives the
leader. All logs, all pending entries and all entries in flight come from the histories, and so do
the indices of the responses, which are answers to the node that has been elected in their term.

## Main definitions

* `EntryData.From`, `Message.From`: what is pending or in flight comes from the histories
* `Histories`: the invariant of histories
* `Turn.Replicates`: what a turn needs to be for the invariant

## Main results

* `Histories.step`: one steady step of the cluster keeps the invariant, with longer histories
* `log_matching`: two logs agree up to every index at which their terms agree, in runs with steady
  steps
* `log_mismatch`: a run that ends with two entries of one term at one index
-/

open Transition Replication

namespace Consensus

variable {n : ℕ}

/-- The entry is one of the histories, and so is the entry before it. -/
structure EntryData.From (hist : ℕ → List LogEntry) (d : EntryData) : Prop where
  entry : (hist d.term)[d.index]? = some ⟨d.term, d.command⟩
  prev : d.prevTerm = termBefore LogEntry.term (hist d.term) d.index

/-- An entry in flight is one of the histories and lies within the log of its sender, which has been
elected in the term of the message. A response in flight is on the way back to this sender. -/
def Message.From (hist : ℕ → List LogEntry) (tr : List (Event n)) (dst src : Fin n) :
    Message n → Prop
  | .appendEntry a => .elected src a.term ∈ tr ∧
      ∀ d, a.entry = some d → d.From hist ∧ d.index < (hist a.term).length
  | .appendEntryResponse r => .elected dst r.term ∈ tr ∧ r.index < (hist r.term).length ∧
      (r.success = false → r.index ≠ 0)
  | _ => True

/-- **The invariant of histories.** -/
structure Histories (hist : ℕ → List LogEntry) (tr : List (Event n)) (w : World n) : Prop where
  unelected : ∀ T, (∀ c, .elected c T ∉ tr) → hist T = []
  positive : ∀ c T, .elected c T ∈ tr → T ≠ 0
  follows : ∀ T, Follows LogEntry.term hist (hist T)
  log : ∀ x, Follows LogEntry.term hist (w.node x).log
  success : ∀ x, (w.node x).logEntrySuccess.length = (w.node x).log.length
  leader : ∀ x, (w.node x).role = .leader → hist (w.node x).term = (w.node x).log
  elected : ∀ x, .elected x (w.node x).term ∈ tr → (w.node x).role = .leader
  pending : ∀ x y d, (w.node x).pendingEntry y = some d → d.From hist
  pending_lt : ∀ x y d, (w.node x).role = .leader → y ≠ x →
    (w.node x).pendingEntry y = some d → d.index < (w.node x).log.length
  inbox : ∀ x y m, m ∈ w.inbox x (some y) → m.From hist tr x y

/-- The histories have grown to those of `hist'`, and each that is longer now is the log of a
leader. -/
structure Grown (hist hist' : ℕ → List LogEntry) (w : World n) : Prop where
  le : ∀ T, hist T <+: hist' T
  leader : ∀ T, hist' T = hist T ∨ ∃ x, (w.node x).role = .leader ∧ hist' T = (w.node x).log
  /-- Only the history of a term that has a leader grows. -/
  led : ∀ T, hist' T = hist T ∨ ∃ x, (w.node x).role = .leader ∧ (w.node x).term = T

theorem Grown.refl {hist : ℕ → List LogEntry} {w : World n} : Grown hist hist w :=
  ⟨fun _ => List.prefix_rfl, fun _ => .inl rfl, fun _ => .inl rfl⟩

theorem Histories.zero {hist : ℕ → List LogEntry} {tr : List (Event n)} {w : World n}
    (h : Histories hist tr w) : hist 0 = [] :=
  h.unelected 0 fun c hc => h.positive c 0 hc rfl

section From

variable {hist hist' : ℕ → List LogEntry} {tr : List (Event n)} {s : RaftNode n} {d : EntryData}

theorem RaftNode.prevEntryTerm_eq (s : RaftNode n) (i : ℕ) :
    s.prevEntryTerm i = termBefore LogEntry.term s.log i := by
  cases i <;> rfl

/-- The histories may grow. -/
theorem EntryData.From.mono (h : d.From hist) (hle : ∀ T, hist T <+: hist' T) : d.From hist' := by
  obtain ⟨hlt, -⟩ := List.getElem?_eq_some_iff.mp h.entry
  obtain ⟨rest, hrest⟩ := hle d.term
  constructor
  · rw [← hrest, List.getElem?_append_left hlt, h.entry]
  · rw [← hrest, termBefore_append _ _ hlt.le, h.prev]

theorem Message.From.mono {m : Message n} {dst src : Fin n} (h : m.From hist tr dst src)
    (hle : ∀ T, hist T <+: hist' T) (out : List (Event n)) : m.From hist' (tr ++ out) dst src := by
  cases m with
  | appendEntry a =>
    refine ⟨List.mem_append_left _ h.1, fun d hd => ⟨(h.2 d hd).1.mono hle, ?_⟩⟩
    exact (h.2 d hd).2.trans_le (hle a.term).length_le
  | appendEntryResponse r =>
    exact ⟨List.mem_append_left _ h.1, h.2.1.trans_le (hle r.term).length_le, h.2.2⟩
  | accept _ | command _ | requestVote _ | vote _ => trivial

/-- The data of an entry of a log that follows the histories. -/
theorem RaftNode.newEntryData_from (h : Follows LogEntry.term hist s.log) {i : ℕ}
    (hd : s.newEntryData i = some d) : d.From hist := by
  obtain ⟨rfl, he, hprev⟩ := newEntryData_eq_some.mp hd
  have htake : s.log.take d.index = (hist d.term).take d.index := by
    have := congrArg (List.take d.index) (h _ _ he)
    rwa [List.take_take, List.take_take, min_eq_left (Nat.le_succ _)] at this
  constructor
  · exact h.getElem? he
  · rw [hprev, prevEntryTerm_eq, termBefore_congr htake]

/-- An entry that is taken over is put behind the entries that were before it when it was
created. -/
theorem EntryData.From.take_eq (h : d.From hist) (hhist : ∀ T, Follows LogEntry.term hist (hist T))
    (hzero : hist 0 = []) (hlog : Follows LogEntry.term hist s.log)
    (hprev : d.prevTerm = s.prevEntryTerm d.index) :
    s.log.take d.index ++ [⟨d.term, d.command⟩] = (hist d.term).take (d.index + 1) := by
  obtain ⟨hlt, -⟩ := List.getElem?_eq_some_iff.mp h.entry
  have htake := hlog.take_eq (hhist d.term) hzero hlt.le
    (by rw [← h.prev, hprev, RaftNode.prevEntryTerm_eq])
  rw [htake, List.take_add_one, h.entry]
  rfl

end From

/-! ## Terms and roles -/

section Terms

variable {s : RaftNode n} {t : Turn n} {msg : Option (Message n)}

/-- No turn lowers the term. -/
theorem Electoral.term_le (h : Electoral s t msg) : s.term ≤ t.node.term := by
  cases h with
  | quiet _ hterm _ _ => exact hterm.ge
  | follow _ hterm _ => exact hterm
  | raise hterm hterm' _ => exact hterm'.symm ▸ hterm.le
  | grant _ hterm hterm' _ _ => exact hterm'.symm ▸ hterm.le
  | count _ _ hterm _ _ => exact hterm.ge
  | elect _ _ hterm _ _ _ _ _ => exact hterm.ge
  | candidacy _ hterm _ _ _ => omega

/-- Only a candidate is elected, in its own term. -/
theorem Electoral.elected_mem (h : Electoral s t msg) {c : Fin n} {T : ℕ}
    (hmem : .elected c T ∈ t.events) : c = s.id ∧ T = s.term ∧ s.role = .candidate ∧
      t.node.role = .leader ∧ t.node.term = s.term := by
  cases h with
  | quiet _ _ _ hno => simpa [Event.isElection] using hno.events _ hmem
  | follow _ _ hno => simpa [Event.isElection] using hno.events _ hmem
  | raise _ _ hno => simpa [Event.isElection] using hno.events _ hmem
  | grant _ _ _ _ hevents => simp [hevents] at hmem
  | count _ _ _ _ hno => simpa [Event.isElection] using hno.events _ hmem
  | elect hrole _ hterm hleader _ _ hevents hout =>
    rw [hevents] at hmem
    rcases List.mem_cons.mp hmem with hmem | hmem
    · obtain ⟨rfl, rfl⟩ : c = s.id ∧ T = s.term := by simpa using hmem
      exact ⟨rfl, rfl, hrole, hleader, hterm⟩
    · simpa [Event.isElection] using hout _ hmem
  | candidacy _ _ _ _ hevents => simp [hevents] at hmem

/-- A term in which a node is elected has had no leader before. -/
theorem ElectionInv.not_elected_before {tr out : List (Event n)} {w : World n}
    (h : ElectionInv (tr ++ out) w) {c : Fin n} {T : ℕ} (hout : .elected c T ∈ out) (c' : Fin n) :
    .elected c' T ∉ tr := by
  intro hmem
  have honce := h.elected_once T
  rw [List.countP_append] at honce
  have hbefore : 0 < tr.countP (·.electedIn T) :=
    List.countP_pos_iff.mpr ⟨_, hmem, by simp [Event.electedIn]⟩
  have hafter : 0 < out.countP (·.electedIn T) :=
    List.countP_pos_iff.mpr ⟨_, hout, by simp [Event.electedIn]⟩
  omega

/-- A leader stays the leader of its term, unless it follows another leader of this term. -/
theorem Message.execute_deposed (up : ℕ → Fin n → Bool) (msg : Message n) (hrole : s.role = .leader)
    (hterm : (msg.execute up s).node.term = s.term) :
    (msg.execute up s).node.role = .leader ∨ ∃ a, msg = .appendEntry a ∧ a.term = s.term := by
  cases msg with
  | accept msg => exact .inl hrole
  | command cmd =>
    obtain ⟨-, heq⟩ | ⟨-, _, _, _, _, -, -, heq⟩ := cmd.execute_cases up s <;>
      exact .inl ((congrArg (·.node.role) heq).trans hrole)
  | appendEntry msg =>
    obtain ⟨-, heq⟩ | ⟨-, _, _, _, -, -, heq⟩ := msg.execute_cases up s
    · exact .inl ((congrArg (·.node.role) heq).trans hrole)
    · obtain ⟨_, _, _, _, _, hanswer⟩ := msg.answer_node up (msg.follow s)
      rw [execute, heq, hanswer] at hterm
      exact .inr ⟨msg, rfl, hterm⟩
  | appendEntryResponse msg =>
    obtain ⟨_, _, _, _, _, hnode⟩ := msg.execute_node up s
    exact .inl ((congrArg (·.role) hnode).trans hrole)
  | requestVote msg =>
    obtain ⟨-, heq⟩ | ⟨hlt, -, _, heq⟩ | ⟨hlt, -, -, heq⟩ := msg.execute_cases up s
    · exact .inl ((congrArg (·.node.role) heq).trans hrole)
    · have hterm' : (msg.execute up s).node.term = msg.term := congrArg (·.node.term) heq
      exact absurd (hterm'.symm.trans hterm) hlt.ne'
    · have hterm' : (msg.execute up s).node.term = msg.term := congrArg (·.node.term) heq
      exact absurd (hterm'.symm.trans hterm) hlt.ne'
  | vote msg =>
    obtain ⟨-, heq⟩ | ⟨-, -, heq⟩ | ⟨-, -, heq⟩ := msg.execute_cases up s
    · exact .inl ((congrArg (·.node.role) heq).trans hrole)
    · exact .inl ((congrArg (·.node.role) heq).trans hrole)
    · exact .inl (congrArg (·.node.role) heq)

end Terms

/-! ## The turns of a node -/

/-- What the handlers say about the turn `t` of the node `x`, in which it processes `msg`. -/
structure Turn.Replicates (hist : ℕ → List LogEntry) (tr : List (Event n)) (w : World n)
    (x : Fin n) (msg : Option (Message n)) (t : Turn n) : Prop where
  electoral : Electoral (w.node x) t msg
  logged : Logged (w.node x) t msg
  pending : t.Pending (w.node x)
  stays : t.node.role = .leader → (w.node x).role = .leader ∧ t.node.term = (w.node x).term ∨
    .elected x t.node.term ∈ t.events
  deposed : (w.node x).role = .leader → t.node.term = (w.node x).term →
    t.node.role = .leader ∨ ∃ a, msg = some (.appendEntry a) ∧ a.term = (w.node x).term
  append : ∀ dst a, (dst, .appendEntry a) ∈ t.sent →
    .appendEntry a = t.node.newAppendEntryMsg (t.node.pendingEntry dst) ∧ dst ≠ x ∧
    (t.node.role = .leader ∨ ∃ r, msg = some (.appendEntryResponse r) ∧
      r.term = (w.node x).term ∧ t.node.term = (w.node x).term)
  response : ∀ dst r, (dst, .appendEntryResponse r) ∈ t.sent →
    ∃ a d, msg = some (.appendEntry a) ∧ a.entry = some d ∧ dst = a.nodeId ∧ r.term = a.term ∧
      r.index = d.index ∧ (r.success = false → d.prevTerm ≠ (w.node x).prevEntryTerm d.index)
  received : ∀ m, msg = some m → (∃ cmd, m = .command cmd) ∨
    ∃ y, y ≠ x ∧ SentBy y m ∧ m.From hist tr x y

namespace Turn.Replicates

variable {hist hist' : ℕ → List LogEntry} {tr : List (Event n)} {w : World n} {x : Fin n}
  {msg : Option (Message n)} {t : Turn n}

/-- The sender of an `AppendEntry` has been elected in its term. -/
theorem appended (ht : t.Replicates hist tr w x msg) {a : AppendEntry n}
    (ha : msg = some (.appendEntry a)) : a.nodeId ≠ x ∧ .elected a.nodeId a.term ∈ tr ∧
      ∀ d, a.entry = some d → d.From hist ∧ d.index < (hist a.term).length := by
  obtain ⟨cmd, hcmd⟩ | ⟨y, hy, hsender, hfrom⟩ := ht.received _ ha
  · cases hcmd
  · obtain rfl : a.nodeId = y := hsender
    exact ⟨hy, hfrom⟩

/-- A response comes to a node that has been elected in its term. -/
theorem responded (ht : t.Replicates hist tr w x msg) {r : AppendEntryResponse n}
    (hr : msg = some (.appendEntryResponse r)) : .elected x r.term ∈ tr := by
  obtain ⟨cmd, hcmd⟩ | ⟨y, -, -, hfrom⟩ := ht.received _ hr
  · cases hcmd
  · exact hfrom.1

/-- A node that has been elected in its term leads it after the turn. -/
theorem elected (ht : t.Replicates hist tr w x msg) (h : Histories hist tr w)
    (helection : ElectionInv tr w) (hmem : .elected x t.node.term ∈ tr ++ t.events) :
    t.node.role = .leader := by
  rcases List.mem_append.mp hmem with hold | hnew
  · have hterm : t.node.term = (w.node x).term :=
      le_antisymm (helection.elected x _ hold).1 ht.electoral.term_le
    have hrole := h.elected x (hterm ▸ hold)
    rcases ht.deposed hrole hterm with hrole' | ⟨a, ha, hterm'⟩
    · exact hrole'
    · obtain ⟨hne, helected, -⟩ := ht.appended ha
      rw [hterm', ← hterm] at helected
      exact absurd (helection.eq_of_elected helected hold) hne
  · exact (ht.electoral.elected_mem hnew).2.2.2.1

/-- What a turn sends comes from the histories after it. -/
theorem sent_from (ht : t.Replicates hist tr w x msg) (h : Histories hist tr w)
    (hconnected : Connected w) (helection : ElectionInv tr w)
    (hleads : t.node.role = .leader → .elected x t.node.term ∈ tr ++ t.events)
    (hle : ∀ T, hist T <+: hist' T) (hlog : Follows LogEntry.term hist' t.node.log)
    (hhist : t.node.role = .leader → hist' t.node.term = t.node.log)
    (hlength : t.node.role = .leader → (w.node x).log.length ≤ t.node.log.length)
    {dst : Fin n} {m : Message n} (hm : (dst, m) ∈ t.sent) :
    m.From hist' (tr ++ t.events) dst x := by
  cases m with
  | accept _ | command _ | requestVote _ | vote _ => trivial
  | appendEntry a =>
    obtain ⟨hmsg', hdst, hrole⟩ := ht.append dst a hm
    obtain rfl : a = _ := Message.appendEntry.inj hmsg'
    have hrole : t.node.role = .leader := by
      rcases hrole with hrole | ⟨r, hr, hterm, hterm'⟩
      · exact hrole
      · refine ht.elected h helection (List.mem_append_left _ ?_)
        rw [hterm', ← hterm]
        exact ht.responded hr
    refine ⟨hleads hrole, ?_⟩
    intro d hd
    dsimp only at hd
    show d.From hist' ∧ d.index < (hist' t.node.term).length
    rw [hhist hrole]
    rcases ht.pending dst d hd with ⟨hd, hold⟩ | ⟨i, hd⟩
    · have hrole' := hold hrole (hconnected.mem_nodes.mpr hdst)
      refine ⟨(h.pending x dst d hd).mono hle, ?_⟩
      exact (h.pending_lt x dst d hrole' hdst hd).trans_le (hlength hrole)
    · refine ⟨RaftNode.newEntryData_from hlog hd, ?_⟩
      obtain ⟨rfl, he, -⟩ := RaftNode.newEntryData_eq_some.mp hd
      exact (List.getElem?_eq_some_iff.mp he).1
  | appendEntryResponse r =>
    obtain ⟨a, d, ha, hd, rfl, hterm, hindex, hnack⟩ := ht.response dst r hm
    obtain ⟨-, helected, hentry⟩ := ht.appended ha
    obtain ⟨hfrom, hlt⟩ := hentry d hd
    refine ⟨List.mem_append_left _ (hterm ▸ helected), ?_, ?_⟩
    · rw [hindex, hterm]
      exact hlt.trans_le (hle a.term).length_le
    · intro hfail hzero
      apply hnack hfail
      rw [hfrom.prev, ← hindex, hzero]
      rfl

end Turn.Replicates

/-! ## The steps of the cluster -/

namespace Histories

variable {hist hist' : ℕ → List LogEntry} {tr : List (Event n)} {w w' : World n} {x : Fin n}
  {t : Turn n} {moves : List (Partitions n)} {msg : Option (Message n)}

theorem init : Histories (fun _ => []) [] (World.connected n) where
  unelected _ _ := rfl
  positive _ _ h := by simp at h
  follows _ := .nil
  log _ := .nil
  success _ := rfl
  leader _ _ := rfl
  elected _ h := by simp at h
  pending _ _ _ h := by simp [World.connected, RaftNode.new] at h
  pending_lt _ _ _ _ _ h := by simp [World.connected, RaftNode.new] at h
  inbox _ _ _ h := by simp [World.connected] at h

/-- The turn of a node, of which it is left to say what it does to the histories. -/
theorem afterTurn (h : Histories hist tr w) (hconnected : Connected w)
    (hplaced : (w.node x).Placed tr) (helection : ElectionInv tr w)
    (hleads : LeaderInv (tr ++ t.events) (w.afterTurn x t moves))
    (ht : t.Replicates hist tr w x msg) (hle : ∀ T, hist T <+: hist' T)
    (hunelected : ∀ T, (∀ c, .elected c T ∉ tr ++ t.events) → hist' T = [])
    (hhist : ∀ T, Follows LogEntry.term hist' (hist' T))
    (hlog : Follows LogEntry.term hist' t.node.log)
    (hsuccess : t.node.logEntrySuccess.length = t.node.log.length)
    (hleader : t.node.role = .leader → hist' t.node.term = t.node.log)
    (hothers : ∀ y, y ≠ x → (w.node y).role = .leader → hist' (w.node y).term = (w.node y).log)
    (hlength : t.node.role = .leader → (w.node x).log.length ≤ t.node.log.length) :
    Histories hist' (tr ++ t.events) (w.afterTurn x t moves) where
  unelected := hunelected
  positive c T hc := by
    rcases List.mem_append.mp hc with hc | hc
    · exact h.positive c T hc
    · obtain ⟨-, rfl, hrole, -, -⟩ := ht.electoral.elected_mem hc
      have := hplaced.term (by simp [hrole])
      omega
  follows := hhist
  log y := by
    by_cases hy : y = x
    · subst hy
      rwa [World.afterTurn_node_self]
    · rw [World.afterTurn_node_ne hy]
      exact (h.log y).mono hle
  success y := by
    by_cases hy : y = x
    · subst hy
      rwa [World.afterTurn_node_self]
    · rw [World.afterTurn_node_ne hy]
      exact h.success y
  leader y := by
    by_cases hy : y = x
    · subst hy
      rwa [World.afterTurn_node_self]
    · rw [World.afterTurn_node_ne hy]
      exact hothers y hy
  elected y hmem := by
    by_cases hy : y = x
    · subst hy
      rw [World.afterTurn_node_self] at hmem ⊢
      exact ht.elected h helection hmem
    · rw [World.afterTurn_node_ne hy] at hmem ⊢
      rcases List.mem_append.mp hmem with hold | hnew
      · exact h.elected y hold
      · exact absurd ((ht.electoral.elected_mem hnew).1.trans (hconnected.id x)) hy
  pending y z d hd := by
    by_cases hy : y = x
    · subst hy
      rw [World.afterTurn_node_self] at hd
      rcases ht.pending z d hd with ⟨hd, -⟩ | ⟨i, hd⟩
      · exact (h.pending y z d hd).mono hle
      · exact RaftNode.newEntryData_from hlog hd
    · rw [World.afterTurn_node_ne hy] at hd
      exact (h.pending y z d hd).mono hle
  pending_lt y z d hrole hz hd := by
    by_cases hy : y = x
    · subst hy
      rw [World.afterTurn_node_self] at hrole hd ⊢
      rcases ht.pending z d hd with ⟨hd, hold⟩ | ⟨i, hd⟩
      · have hrole' := hold hrole (hconnected.mem_nodes.mpr hz)
        exact (h.pending_lt y z d hrole' hz hd).trans_le (hlength hrole)
      · obtain ⟨rfl, he, -⟩ := RaftNode.newEntryData_eq_some.mp hd
        exact (List.getElem?_eq_some_iff.mp he).1
    · rw [World.afterTurn_node_ne hy] at hrole hd ⊢
      exact h.pending_lt y z d hrole hz hd
  inbox y z m hm := by
    rcases World.mem_inbox_afterTurn.mp hm with hold | ⟨hz, hnew⟩
    · exact (h.inbox y z m hold).mono hle _
    · obtain rfl := Option.some.inj hz
      have helected := hleads z
      rw [World.afterTurn_node_self] at helected
      exact ht.sent_from h hconnected helection helected hle hlog hleader hlength hnew

/-- A leader turns commands into entries, and its log becomes the history of its term. -/
theorem create (h : Histories hist tr w) (hconnected : Connected w)
    (hplaced : (w.node x).Placed tr) (helection : ElectionInv tr w)
    (helection' : ElectionInv (tr ++ t.events) (w.afterTurn x t moves))
    (hleads : LeaderInv (tr ++ t.events) (w.afterTurn x t moves))
    (ht : t.Replicates hist tr w x msg) {cmds : List Request} (hrole : t.node.role = .leader)
    (hterm : t.node.term = (w.node x).term)
    (hbefore : (w.node x).role = .leader ∨ .elected (w.node x).id (w.node x).term ∈ t.events)
    (hlog : t.node.log = (w.node x).log ++ cmds.map fun cmd => ⟨(w.node x).term, cmd⟩)
    (hsuccess : t.node.logEntrySuccess.length = (w.node x).logEntrySuccess.length + cmds.length) :
    ∃ hist', Grown hist hist' (w.afterTurn x t moves) ∧
      Histories hist' (tr ++ t.events) (w.afterTurn x t moves) := by
  have hmem : .elected x (w.node x).term ∈ tr ++ t.events := by
    have helected := hleads x
    rw [World.afterTurn_node_self, hterm] at helected
    exact helected hrole
  -- the history of the term is the log before the turn, or the term has no history yet
  have hbegin : hist (w.node x).term <+: t.node.log := by
    rcases hbefore with hbefore | hbefore
    · rw [h.leader x hbefore, hlog]
      exact List.prefix_append _ _
    · rw [h.unelected _ (helection'.not_elected_before hbefore)]
      exact List.nil_prefix
  have hle : ∀ T, hist T <+: Function.update hist (w.node x).term t.node.log T :=
    prefix_update hbegin
  have hlog' : Follows LogEntry.term (Function.update hist (w.node x).term t.node.log)
      t.node.log := by
    rw [hlog] at hle ⊢
    refine ((h.log x).mono hle).append (Function.update_self ..) ?_
    intro e he
    obtain ⟨cmd, -, rfl⟩ := List.mem_map.mp he
    rfl
  have hgrown : Grown hist (Function.update hist (w.node x).term t.node.log)
      (w.afterTurn x t moves) := by
    refine ⟨hle, fun T => ?_, fun T => ?_⟩
    · by_cases hT : T = (w.node x).term
      · subst hT
        exact .inr ⟨x, by rwa [World.afterTurn_node_self], by
          rw [Function.update_self, World.afterTurn_node_self]⟩
      · exact .inl (Function.update_of_ne hT _ _)
    · by_cases hT : T = (w.node x).term
      · exact .inr ⟨x, by rwa [World.afterTurn_node_self], by
          rw [World.afterTurn_node_self, hterm, hT]⟩
      · exact .inl (Function.update_of_ne hT _ _)
  refine ⟨_, hgrown, ?_⟩
  refine h.afterTurn hconnected hplaced helection hleads ht hle ?_ ?_ hlog' ?_ ?_ ?_ ?_
  · intro T hT
    have hne : T ≠ (w.node x).term := by
      rintro rfl
      exact hT x hmem
    rw [Function.update_of_ne hne]
    exact h.unelected T fun c hc => hT c (List.mem_append_left _ hc)
  · intro T
    by_cases hT : T = (w.node x).term
    · subst hT
      rwa [Function.update_self]
    · rw [Function.update_of_ne hT]
      exact (h.follows T).mono hle
  · rw [hsuccess, hlog, h.success]
    simp
  · intro _
    rw [hterm, Function.update_self]
  · intro y hy hrole'
    have hne : (w.node y).term ≠ (w.node x).term := by
      intro hterm'
      have helected := hleads y
      rw [World.afterTurn_node_ne hy, hterm'] at helected
      exact hy (helection'.eq_of_elected (helected hrole') hmem)
    rw [Function.update_of_ne hne, h.leader y hrole']
  · intro _
    rw [hlog, List.length_append]
    exact Nat.le_add_right _ _

/-- What a turn does to the histories: a leader extends the one of its term. -/
theorem turn (h : Histories hist tr w) (hconnected : Connected w) (hplaced : (w.node x).Placed tr)
    (helection : ElectionInv tr w)
    (helection' : ElectionInv (tr ++ t.events) (w.afterTurn x t moves))
    (hleads : LeaderInv (tr ++ t.events) (w.afterTurn x t moves))
    (ht : t.Replicates hist tr w x msg) :
    ∃ hist', Grown hist hist' (w.afterTurn x t moves) ∧
      Histories hist' (tr ++ t.events) (w.afterTurn x t moves) := by
  have hunelected : ∀ T, (∀ c, .elected c T ∉ tr ++ t.events) → hist T = [] :=
    fun T hT => h.unelected T fun c hc => hT c (List.mem_append_left _ hc)
  cases ht.logged with
  | keep hlog hsuccess hrole =>
    refine ⟨hist, .refl, ?_⟩
    refine h.afterTurn hconnected hplaced helection hleads ht (fun _ => List.prefix_rfl) hunelected
      h.follows (hlog.symm ▸ h.log x) ?_ ?_ (fun y _ => h.leader y) fun _ => hlog ▸ le_rfl
    · rw [hsuccess, hlog, h.success]
    · intro hrole'
      rcases ht.stays hrole' with ⟨hrole, hterm⟩ | hmem
      · rw [hterm, hlog, h.leader x hrole]
      · simp [(ht.electoral.elected_mem hmem).2.2.1] at hrole
        exact absurd hrole' hrole
  | accept a d ha hd hterm hrole hterm' hprev hlog hsuccess =>
    obtain ⟨-, -, hentry⟩ := ht.appended ha
    obtain ⟨hfrom, -⟩ := hentry d hd
    have htake := hfrom.take_eq h.follows h.zero (h.log x) hprev
    have hnot : t.node.role ≠ .leader := by simp [hrole]
    refine ⟨hist, .refl, ?_⟩
    refine h.afterTurn hconnected hplaced helection hleads ht (fun _ => List.prefix_rfl) hunelected
      h.follows ?_ ?_ (fun hrole' => absurd hrole' hnot) (fun y _ => h.leader y)
      fun hrole' => absurd hrole' hnot
    · rw [hlog, htake]
      exact (h.follows _).take _
    · rw [hsuccess, hlog, h.success]
      simp
  | create cmds hrole hterm hbefore hlog hsuccess =>
    exact h.create hconnected hplaced helection helection' hleads ht hrole hterm hbefore hlog hsuccess

/-- Taking a message from an inbox. -/
theorem dequeue (h : Histories hist tr w) {src : Option (Fin n)} {msg : Message n}
    {rest : List (Message n)} (hinbox : w.inbox x src = msg :: rest) :
    Histories hist tr (w.dequeue x src rest) :=
  { h with inbox := fun y z m hm => h.inbox y z m (World.mem_inbox_dequeue hinbox hm) }

/-- The turn of a node that processes a message in a steady step. -/
theorem execute_replicates (h : Histories hist tr w) (hconnected : Connected w)
    {src : Option (Fin n)} {msg : Message n} {rest : List (Message n)}
    (hsteady : w.Steady (.deliver x src moves)) (hinbox : w.inbox x src = msg :: rest) :
    (msg.execute (w.up x moves) (w.node x)).Replicates hist tr w x (some msg) where
  electoral := msg.execute_electoral _ _
  logged := msg.execute_logged _ _
  pending := msg.execute_pending _ _
  stays hrole := by
    have hbefore := msg.execute_leader (w.up x moves) (w.node x) ?_ hrole
    · rwa [hconnected.id x] at hbefore
    · intro hrole'
      exact hsteady hrole' msg (by rw [hinbox, List.head?_cons, Option.mem_some])
  deposed hrole hterm := by
    rcases msg.execute_deposed (w.up x moves) hrole hterm with hrole' | ⟨a, rfl, hterm'⟩
    · exact .inl hrole'
    · exact .inr ⟨a, rfl, hterm'⟩
  append dst a ha := by
    obtain ⟨hsent, hrole⟩ := Message.execute_appendEntry ha
    refine ⟨hsent, hconnected.mem_nodes.mp (Message.execute_sent ha).1, ?_⟩
    rcases hrole with hrole | ⟨r, rfl, hterm⟩
    · exact .inl hrole
    · obtain ⟨_, _, _, _, _, hnode⟩ := r.execute_node (w.up x moves) (w.node x)
      exact .inr ⟨r, rfl, hterm, congrArg (·.term) hnode⟩
  response dst r hr := by
    obtain ⟨a, d, rfl, hd, -, hdst, -, hterm, hindex, hnack, -⟩ :=
      Message.execute_appendEntryResponse hr
    exact ⟨a, d, rfl, hd, hdst, hterm, hindex, hnack⟩
  received m hm := by
    obtain rfl := Option.some.inj hm
    have hmem : msg ∈ w.inbox x src := hinbox ▸ List.mem_cons_self
    cases src with
    | none => exact .inl (hconnected.client x msg hmem)
    | some y =>
      obtain ⟨hy, hsender⟩ := hconnected.sender x y msg hmem
      exact .inr ⟨y, hy, hsender, h.inbox x y msg hmem⟩

/-- The turn of a node whose timeout fires. -/
theorem timedOut_replicates (hconnected : Connected w) :
    ((w.node x).timedOut (w.up x moves)).Replicates hist tr w x none where
  electoral := RaftNode.timedOut_electoral _ _
  logged := RaftNode.timedOut_logged _ _
  pending := RaftNode.timedOut_pending _ _
  stays hrole := .inl (RaftNode.timedOut_leader _ _ hrole)
  deposed hrole _ := by
    obtain ⟨-, heq⟩ | ⟨hnot, -⟩ | ⟨hnot, -⟩ := (w.node x).timedOut_cases (w.up x moves)
    · exact .inl ((congrArg (·.node.role) heq).trans hrole)
    · exact absurd hrole hnot
    · exact absurd hrole hnot
  append dst a ha := by
    obtain ⟨hsent, hrole⟩ := RaftNode.timedOut_appendEntry ha
    exact ⟨hsent, hconnected.mem_nodes.mp (RaftNode.timedOut_sent ha).1, .inl hrole⟩
  response dst r hr := absurd hr RaftNode.not_timedOut_appendEntryResponse
  received := nofun

/-- One steady step of the cluster keeps the invariant, with longer histories. -/
theorem step (h : Histories hist tr w) (hconnected : Connected w) (hplaced : Placed tr w)
    (helection : ElectionInv tr w) (hleader : LeaderInv tr w) {a : Action n}
    {out : List (Event n)} (hsteady : w.Steady a) (hstep : step w a = some (w', out)) :
    ∃ hist', Grown hist hist' w' ∧ Histories hist' (tr ++ out) w' := by
  have helection' := helection.step hconnected hstep
  have hleader' := hleader.step hconnected hsteady hstep
  rcases step_cases hstep with ⟨x, command, -, -, rfl, rfl⟩ |
    ⟨x, src, moves, msg, rest, rfl, -, hinbox, rfl, rfl⟩ | ⟨x, moves, -, -, rfl, rfl⟩ |
    ⟨x, partition, -, rfl, rfl⟩
  · refine ⟨hist, .refl, ?_⟩
    rw [List.append_nil]
    refine { h with inbox := ?_ }
    intro y z m hm
    rw [World.inbox_submit_some] at hm
    exact h.inbox y z m hm
  · have ht := h.execute_replicates hconnected hsteady hinbox
    exact (h.dequeue hinbox).turn (hconnected.dequeue hinbox) (hplaced.node x)
      (helection.dequeue hinbox) helection' hleader' { ht with }
  · exact h.turn hconnected (hplaced.node x) helection helection' hleader'
      (timedOut_replicates hconnected)
  · refine ⟨hist, .refl, ?_⟩
    rw [List.append_nil]
    exact { h with }

end Histories

/-- The invariants of a run with steady steps. -/
structure Matching (hist : ℕ → List LogEntry) (tr : List (Event n)) (w : World n) : Prop where
  connected : Connected w
  placed : Placed tr w
  election : ElectionInv tr w
  leader : LeaderInv tr w
  histories : Histories hist tr w

theorem Matching.init : Matching (fun _ => []) [] (World.connected n) :=
  ⟨.init, .init, .init, .init, .init⟩

theorem Matching.step {hist : ℕ → List LogEntry} {tr out : List (Event n)} {w w' : World n}
    {a : Action n} (h : Matching hist tr w) (hsteady : w.Steady a)
    (hstep : step w a = some (w', out)) :
    ∃ hist', Grown hist hist' w' ∧ Matching hist' (tr ++ out) w' := by
  obtain ⟨hist', hgrown, hhistories⟩ :=
    h.histories.step h.connected h.placed h.election h.leader hsteady hstep
  exact ⟨hist', hgrown, h.connected.step hstep, h.placed.step hstep,
    h.election.step h.connected hstep, h.leader.step h.connected hsteady hstep, hhistories⟩

/-- The invariants hold along every run with steady steps. -/
theorem Matching.of_run {tr : List (Event n)} {w : World n} {ok : World n → Action n → Prop}
    (hok : ∀ w a, ok w a → w.Steady a) (h : (cluster (World.connected n)).Run ok tr w) :
    ∃ hist, Matching hist tr w := by
  refine Machine.Run.invariant (P := fun tr w => ∃ hist, Matching hist tr w) ?_ ?_ h
  · exact ⟨_, .init⟩
  · rintro tr w a w' out ⟨hist, hmatching⟩ hguard hstep
    obtain ⟨hist', -, hmatching'⟩ := hmatching.step (hok w a hguard) hstep
    exact ⟨hist', hmatching'⟩

/-- **Log matching**: two logs that have the same term at an index agree up to this index, in a run
with steady steps. -/
theorem log_matching {tr : List (Event n)} {w : World n}
    (h : (cluster (World.connected n)).Run World.Steady tr w) {x y : Fin n} {i : ℕ}
    {e e' : LogEntry} (hx : (w.node x).log[i]? = some e) (hy : (w.node y).log[i]? = some e')
    (hterm : e.term = e'.term) :
    (w.node x).log.take (i + 1) = (w.node y).log.take (i + 1) := by
  obtain ⟨hist, hmatching⟩ := Matching.of_run (fun _ _ => id) h
  exact (hmatching.histories.log x).agree (hmatching.histories.log y) hx hy hterm

/-- An entry of one node is taken over by another one. -/
theorem log_matching_two :
    ∃ tr w, (cluster (World.connected 3)).Run World.Steady tr w ∧
      (w.node 0).log.length = 1 ∧ (w.node 0).log.take 1 = (w.node 1).log.take 1 := by
  have hexec : (((cluster (World.connected 3)).guard World.Steady).exec (electionOfZero ++
      ([.submit 0 (.openAccount "a"), .deliver 0 none [], .deliver 1 (some 0) [],
        .deliver 1 (some 0) []] : List (Action 3)))).map
        (fun r => ((r.1.node 0).log, (r.1.node 1).log)) =
      some ([⟨1, 0, .openAccount "a"⟩], [⟨1, 0, .openAccount "a"⟩]) := by
    decide +kernel
  obtain ⟨⟨w, tr⟩, hexec, hlogs⟩ := Option.map_eq_some_iff.mp hexec
  obtain ⟨hzero, hone⟩ := Prod.mk.inj hlogs
  have hrun := Machine.Run.of_guard (Machine.run_exec hexec)
  have hzero' : (w.node 0).log[0]? = some ⟨1, 0, .openAccount "a"⟩ := by
    rw [hzero]
    rfl
  have hone' : (w.node 1).log[0]? = some ⟨1, 0, .openAccount "a"⟩ := by
    rw [hone]
    rfl
  exact ⟨tr, w, hrun, by rw [hzero]; rfl, log_matching hrun hzero' hone' rfl⟩

/-- **Two logs can have different entries of one term at one index**: two leaders of the same term
get commands of their own. -/
theorem log_mismatch :
    ¬ ∀ tr w, (cluster (World.connected 3)).Run Machine.unguarded tr w →
      ∀ x y i (e e' : LogEntry), (w.node x).log[i]? = some e → (w.node y).log[i]? = some e' →
        e.term = e'.term → (w.node x).log.take (i + 1) = (w.node y).log.take (i + 1) := by
  intro h
  have hexec : ((cluster (World.connected 3)).exec (electionOfOne ++
      ([.submit 0 (.openAccount "b"), .deliver 0 none [], .submit 1 (.openAccount "c"),
        .deliver 1 none [], .submit 1 (.openAccount "d"), .deliver 1 none []] : List (Action 3)))).map
        (fun r => ((r.1.node 0).log, (r.1.node 1).log)) =
      some ([⟨1, 0, .openAccount "a"⟩, ⟨2, 1, .openAccount "b"⟩],
        [⟨2, 2, .openAccount "c"⟩, ⟨2, 3, .openAccount "d"⟩]) := by
    decide +kernel
  obtain ⟨⟨w, tr⟩, hexec, hlogs⟩ := Option.map_eq_some_iff.mp hexec
  obtain ⟨hzero, hone⟩ := Prod.mk.inj hlogs
  have hsame := h tr w (Machine.run_exec hexec) 0 1 1 ⟨2, 1, .openAccount "b"⟩
    ⟨2, 3, .openAccount "d"⟩ (by rw [hzero]; rfl) (by rw [hone]; rfl) rfl
  rw [hzero, hone] at hsame
  exact absurd hsame (by decide)

end Consensus
