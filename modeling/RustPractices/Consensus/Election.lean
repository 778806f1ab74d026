import RustPractices.Consensus.Handlers

/-!
# Elections

A vote does not name its voter, and a candidate keeps its votes when a request of another candidate
raises its term. Still, at most one node is elected in a term: a node gives its vote of a term at
most once, to itself or to another node, and every vote that a candidate has counted in its term is
a vote that was given to it in this term and is not in flight any more.

## Main definitions

* `Electoral`: what a turn does to an election
* `voted`, `counted`: the votes that have been given, and those that have arrived
* `ElectionInv`: the invariant of elections

## Main results

* `Message.execute_electoral`, `RaftNode.timedOut_electoral`: the turns of a node, as far as
  elections are concerned
* `ElectionInv.step`: one step of the cluster keeps the invariant
* `elected_at_most_once`: at most one node is elected in a term, and at most once
-/

open Transition

namespace Consensus

variable {n : ℕ}

/-- The messages of an election. -/
def Message.isElection : Message n → Bool
  | .requestVote _ | .vote _ => true
  | _ => false

/-- The events of an election. -/
def Event.isElection : Event n → Bool
  | .candidacy .. | .granted .. | .elected .. => true
  | _ => false

/-- A turn without any part in an election. -/
structure Turn.NoElection (t : Turn n) : Prop where
  sent : ∀ dst m, (dst, m) ∈ t.sent → m.isElection = false
  events : ∀ e ∈ t.events, e.isElection = false

/-- What a turn of the node `s` does to an election, where `msg` is the message that it
processes. -/
inductive Electoral (s : RaftNode n) (t : Turn n) : Option (Message n) → Prop
  /-- Nothing that concerns an election. -/
  | quiet {msg : Option (Message n)} :
      t.node.role = s.role → t.node.term = s.term → t.node.votes = s.votes → t.NoElection →
      Electoral s t msg
  /-- The node follows a leader. -/
  | follow {msg : Option (Message n)} :
      t.node.role = .follower → s.term ≤ t.node.term → t.NoElection → Electoral s t msg
  /-- The term is raised, and the vote is not granted. -/
  | raise {r : RequestVote n} :
      s.term < r.term → t.node.term = r.term → t.NoElection → Electoral s t (some (.requestVote r))
  /-- The vote is granted. -/
  | grant {r : RequestVote n} :
      t.node.role = .follower → s.term < r.term → t.node.term = r.term →
      t.sent = [(r.nodeId, .vote ⟨r.term⟩)] → t.events = [.granted s.id r.nodeId r.term] →
      Electoral s t (some (.requestVote r))
  /-- A vote is counted. -/
  | count {v : Vote} :
      s.role = .candidate → s.term = v.term → t.node.term = s.term →
      t.node.votes = s.votes + 1 → t.NoElection → Electoral s t (some (.vote v))
  /-- A vote is counted, and the candidate is elected. -/
  | elect {v : Vote} {out : List (Event n)} :
      s.role = .candidate → s.term = v.term → t.node.term = s.term → t.node.role = .leader →
      (s.nodes.length + 1) / 2 < s.votes + 1 →
      (∀ dst m, (dst, m) ∈ t.sent → m.isElection = false) →
      t.events = .elected s.id s.term :: out → (∀ e ∈ out, e.isElection = false) →
      Electoral s t (some (.vote v))
  /-- The node starts an election. -/
  | candidacy {msg : Option (Message n)} :
      t.node.role = .candidate → t.node.term = s.term + 1 → t.node.votes = 1 →
      (∀ dst m, (dst, m) ∈ t.sent → m = .requestVote ⟨s.id, s.term + 1, s.latestLogInfo⟩) →
      t.events = [.candidacy s.id (s.term + 1)] → Electoral s t msg

section Electoral

variable (up : ℕ → Fin n → Bool) (s : RaftNode n)

/-- A message, as far as elections are concerned. -/
theorem Message.execute_electoral (msg : Message n) :
    Electoral s (msg.execute up s) (some msg) := by
  cases msg with
  | accept msg =>
    exact .quiet rfl rfl rfl
      ⟨by simp [execute, Accept.execute], by simp [execute, Accept.execute]⟩
  | command cmd =>
    have hsent : ∀ dst m, (dst, m) ∈ (cmd.execute up s).sent → m.isElection = false := by
      intro dst m hm
      obtain ⟨-, ⟨_, rfl⟩ | ⟨_, rfl⟩⟩ := Request.execute_sent hm <;> rfl
    obtain ⟨-, heq⟩ | ⟨-, _, _, _, _, -, -, heq⟩ := cmd.execute_cases up s <;>
      refine .quiet (congrArg (·.node.role) heq) (congrArg (·.node.term) heq)
        (congrArg (·.node.votes) heq) ⟨hsent, ?_⟩ <;>
      simp [execute, heq, Event.isElection]
  | appendEntry msg =>
    obtain ⟨-, heq⟩ | ⟨hterm, cmds, pendingCmds, panicked, -, -, heq⟩ := msg.execute_cases up s
    · refine .quiet (congrArg (·.node.role) heq) (congrArg (·.node.term) heq)
        (congrArg (·.node.votes) heq) ?_
      constructor <;> simp [execute, heq]
    · obtain ⟨_, _, _, _, _, hnode⟩ := msg.answer_node up (msg.follow s)
      refine .follow ((congrArg (·.node.role) heq).trans (congrArg (·.role) hnode))
        (hterm.trans_eq ((congrArg (·.node.term) heq).trans (congrArg (·.term) hnode)).symm) ⟨?_, ?_⟩
      · intro dst m hm
        rw [execute, heq] at hm
        rcases List.mem_append.mp hm with hm | hm
        · obtain ⟨-, -, _, _, -, rfl⟩ := AppendEntry.answer_sent hm
          rfl
        · obtain ⟨cmd, -, hcmd⟩ := List.mem_map.mp hm
          obtain ⟨-, rfl⟩ := by simpa using hcmd
          rfl
      · intro e he
        rw [execute, heq] at he
        rcases List.mem_cons.mp he with rfl | he
        · rfl
        · obtain ⟨_, -, rfl⟩ | ⟨_, _, -, rfl⟩ := AppendEntry.answer_events he <;> rfl
  | appendEntryResponse msg =>
    obtain ⟨_, _, _, _, _, hnode⟩ := msg.execute_node up s
    refine .quiet (congrArg (·.role) hnode) (congrArg (·.term) hnode) (congrArg (·.votes) hnode)
      ⟨?_, ?_⟩
    · intro dst m hm
      obtain ⟨-, _, rfl, -⟩ := AppendEntryResponse.execute_sent hm
      rfl
    · intro e he
      obtain ⟨_, _, -, rfl⟩ := AppendEntryResponse.execute_events he
      rfl
  | requestVote msg =>
    obtain ⟨-, heq⟩ | ⟨hterm, -, _, heq⟩ | ⟨hterm, -, -, heq⟩ := msg.execute_cases up s
    · refine .quiet (congrArg (·.node.role) heq) (congrArg (·.node.term) heq)
        (congrArg (·.node.votes) heq) ?_
      constructor <;> simp [execute, heq]
    · refine .raise hterm (congrArg (·.node.term) heq) ?_
      constructor <;> simp [execute, heq, Event.isElection]
    · exact .grant (congrArg (·.node.role) heq) hterm (congrArg (·.node.term) heq)
        (congrArg (·.sent) heq) (congrArg (·.events) heq)
  | vote msg =>
    have hsent : ∀ dst m, (dst, m) ∈ (msg.execute up s).sent → m.isElection = false := by
      intro dst m hm
      obtain ⟨-, _, rfl⟩ := Vote.execute_sent hm
      rfl
    obtain ⟨-, heq⟩ | ⟨⟨hrole, hterm⟩, -, heq⟩ | ⟨⟨hrole, hterm⟩, hvotes, heq⟩ :=
      msg.execute_cases up s
    · refine .quiet (congrArg (·.node.role) heq) (congrArg (·.node.term) heq)
        (congrArg (·.node.votes) heq) ?_
      constructor <;> simp [execute, heq]
    · refine .count hrole hterm (congrArg (·.node.term) heq) (congrArg (·.node.votes) heq)
        ⟨hsent, ?_⟩
      simp [execute, heq]
    · refine .elect hrole hterm (congrArg (·.node.term) heq) (congrArg (·.node.role) heq) hvotes
        hsent (congrArg (·.events) heq) ?_
      intro e he
      obtain ⟨_, -, rfl⟩ := List.mem_map.mp he
      rfl

/-- A timeout, as far as elections are concerned. -/
theorem RaftNode.timedOut_electoral : Electoral s (s.timedOut up) none := by
  obtain ⟨-, heq⟩ | ⟨-, heq⟩ | ⟨-, heq⟩ := s.timedOut_cases up
  · refine .quiet (congrArg (·.node.role) heq) (congrArg (·.node.term) heq)
      (congrArg (·.node.votes) heq) ⟨?_, ?_⟩
    · intro dst m hm
      rw [heq] at hm
      dsimp only at hm
      obtain ⟨-, rfl⟩ := mem_sendAll hm
      rfl
    · simp [heq]
  · refine .candidacy (congrArg (·.node.role) heq) (congrArg (·.node.term) heq)
      (congrArg (·.node.votes) heq) ?_ (congrArg (·.events) heq)
    intro dst m hm
    rw [heq] at hm
    dsimp only at hm
    exact (mem_sendAll hm).2
  · refine .quiet (congrArg (·.node.role) heq) (congrArg (·.node.term) heq)
      (congrArg (·.node.votes) heq) ?_
    constructor <;> simp [heq, Turn.panic]

end Electoral

/-! ## The invariant -/

/-- `v` has given its vote of the term `T` to `c`. -/
def voted (tr : List (Event n)) (v c : Fin n) (T : ℕ) : Prop :=
  .granted v c T ∈ tr ∨ v = c ∧ .candidacy c T ∈ tr

instance (tr : List (Event n)) (v c : Fin n) (T : ℕ) : Decidable (voted tr v c T) :=
  inferInstanceAs (Decidable (_ ∨ _))

/-- The nodes whose vote of the term `T` has arrived at `c`. -/
def counted (tr : List (Event n)) (w : World n) (c : Fin n) (T : ℕ) : Finset (Fin n) :=
  Finset.univ.filter fun v => .granted v c T ∈ tr ∧ .vote ⟨T⟩ ∉ w.inbox c (some v)

/-- The event is an election in the term `T`. -/
def Event.electedIn (T : ℕ) : Event n → Bool
  | .elected _ T' => T' = T
  | _ => false

/-- **The invariant of elections.** -/
structure ElectionInv (tr : List (Event n)) (w : World n) : Prop where
  granted : ∀ v c T, .granted v c T ∈ tr →
    v ≠ c ∧ T ≤ (w.node v).term ∧ .candidacy c T ∈ tr
  candidacy : ∀ c T, .candidacy c T ∈ tr → T ≤ (w.node c).term
  once : ∀ v c c' T, voted tr v c T → voted tr v c' T → c = c'
  requested : ∀ x y r, .requestVote r ∈ w.inbox x (some y) → .candidacy y r.term ∈ tr
  vote : ∀ c v T, .vote ⟨T⟩ ∈ w.inbox c (some v) → .granted v c T ∈ tr
  vote_once : ∀ c v T, (w.inbox c (some v)).count (.vote ⟨T⟩) ≤ 1
  votes : ∀ c, (w.node c).role = .candidate → .candidacy c (w.node c).term ∈ tr →
    (w.node c).votes ≤ 1 + (counted tr w c (w.node c).term).card
  elected : ∀ c T, .elected c T ∈ tr → T ≤ (w.node c).term ∧
    ((w.node c).term = T → (w.node c).role ≠ .candidate) ∧
    n < 2 * (Finset.univ.filter fun v => voted tr v c T).card
  elected_once : ∀ T, tr.countP (·.electedIn T) ≤ 1

/-- Two nodes that more than half of the nodes have voted for in one term are the same. -/
theorem ElectionInv.eq_of_majorities {tr : List (Event n)} {w : World n} (h : ElectionInv tr w)
    {c c' : Fin n} {T : ℕ} (hc : n < 2 * (Finset.univ.filter fun v => voted tr v c T).card)
    (hc' : n < 2 * (Finset.univ.filter fun v => voted tr v c' T).card) : c = c' := by
  have hmeet : ¬ Disjoint (Finset.univ.filter fun v => voted tr v c T)
      (Finset.univ.filter fun v => voted tr v c' T) := by
    intro hdisjoint
    have hle := Finset.card_le_univ ((Finset.univ.filter fun v => voted tr v c T) ∪
      Finset.univ.filter fun v => voted tr v c' T)
    rw [Finset.card_union_of_disjoint hdisjoint, Fintype.card_fin] at hle
    omega
  obtain ⟨v, hv, hv'⟩ := Finset.not_disjoint_iff.mp hmeet
  exact h.once v c c' T (Finset.mem_filter.mp hv).2 (Finset.mem_filter.mp hv').2

theorem ElectionInv.eq_of_elected {tr : List (Event n)} {w : World n} (h : ElectionInv tr w)
    {c c' : Fin n} {T : ℕ} (hc : .elected c T ∈ tr) (hc' : .elected c' T ∈ tr) : c = c' :=
  h.eq_of_majorities (h.elected c T hc).2.2 (h.elected c' T hc').2.2

/-- Events without any part in an election change nothing. -/
theorem mem_append_of_isElection {tr out : List (Event n)} (hout : ∀ e ∈ out, e.isElection = false)
    {e : Event n} (he : e.isElection = true) : e ∈ tr ++ out ↔ e ∈ tr := by
  constructor
  · intro hmem
    rcases List.mem_append.mp hmem with hmem | hmem
    · exact hmem
    · simp [hout e hmem] at he
  · exact List.mem_append_left out

namespace ElectionInv

variable {tr : List (Event n)} {w : World n} {x : Fin n} {t : Turn n}
  {moves : List (Partitions n)}

theorem init : ElectionInv [] (World.connected n) where
  granted _ _ _ h := by simp at h
  candidacy _ _ h := by simp at h
  once _ _ _ _ h := by simp [voted] at h
  requested _ _ _ h := by simp [World.connected] at h
  vote _ _ _ h := by simp [World.connected] at h
  vote_once _ _ _ := by simp [World.connected]
  votes _ h := by simp [World.connected, RaftNode.new] at h
  elected _ _ h := by simp at h
  elected_once _ := by simp

/-- A client submits a command. -/
theorem submit (h : ElectionInv tr w) {command : Command} :
    ElectionInv tr (w.submit x command) where
  granted := h.granted
  candidacy := h.candidacy
  once := h.once
  requested y z r hr := h.requested y z r (World.inbox_submit_some z ▸ hr)
  vote c v T hv := h.vote c v T (World.inbox_submit_some v ▸ hv)
  vote_once c v T := by
    rw [World.inbox_submit_some]
    exact h.vote_once c v T
  votes c hrole hcandidacy := by
    refine (h.votes c hrole hcandidacy).trans (Nat.add_le_add_left (Finset.card_le_card ?_) 1)
    intro v hv
    have hv := (Finset.mem_filter.mp hv).2
    refine Finset.mem_filter.mpr ⟨Finset.mem_univ v, hv.1, ?_⟩
    rw [World.inbox_submit_some]
    exact hv.2
  elected := h.elected
  elected_once := h.elected_once

/-- Taking a message from an inbox. -/
theorem dequeue (h : ElectionInv tr w) {src : Option (Fin n)} {msg : Message n}
    {rest : List (Message n)} (hinbox : w.inbox x src = msg :: rest) :
    ElectionInv tr (w.dequeue x src rest) where
  granted := h.granted
  candidacy := h.candidacy
  once := h.once
  requested y z r hr := h.requested y z r (World.mem_inbox_dequeue hinbox hr)
  vote c v T hv := h.vote c v T (World.mem_inbox_dequeue hinbox hv)
  vote_once c v T := by
    refine le_trans ?_ (h.vote_once c v T)
    by_cases heq : c = x ∧ some v = src
    · obtain ⟨rfl, rfl⟩ := heq
      rw [World.inbox_dequeue_self, hinbox]
      exact List.count_le_count_cons
    · rw [World.inbox_dequeue_ne heq]
  votes c hrole hterm := by
    refine (h.votes c hrole hterm).trans (Nat.add_le_add_left (Finset.card_le_card ?_) 1)
    intro v hv
    have hv := (Finset.mem_filter.mp hv).2
    exact Finset.mem_filter.mpr ⟨Finset.mem_univ v, hv.1,
      fun hmem => hv.2 (World.mem_inbox_dequeue hinbox hmem)⟩
  elected := h.elected
  elected_once := h.elected_once

/-- Counting a vote. -/
theorem votes_dequeue (h : ElectionInv tr w) {v : Fin n} {T : ℕ} {rest : List (Message n)}
    (hinbox : w.inbox x (some v) = .vote ⟨T⟩ :: rest) (hrole : (w.node x).role = .candidate)
    (hterm : (w.node x).term = T) :
    .candidacy x T ∈ tr ∧
      (w.node x).votes + 1 ≤ 1 + (counted tr (w.dequeue x (some v) rest) x T).card := by
  subst hterm
  have hvote : .vote ⟨(w.node x).term⟩ ∈ w.inbox x (some v) := hinbox ▸ List.mem_cons_self
  have hgranted := h.vote x v _ hvote
  have hcandidacy := (h.granted v x _ hgranted).2.2
  refine ⟨hcandidacy, ?_⟩
  -- the vote was in flight, and it was the only one of its voter
  have hrest : .vote ⟨(w.node x).term⟩ ∉ rest := by
    have := h.vote_once x v (w.node x).term
    rw [hinbox, List.count_cons_self] at this
    exact List.count_eq_zero.mp (by omega)
  have hinsert : insert v (counted tr w x (w.node x).term) ⊆
      counted tr (w.dequeue x (some v) rest) x (w.node x).term := by
    intro y hy
    rcases Finset.mem_insert.mp hy with rfl | hy
    · refine Finset.mem_filter.mpr ⟨Finset.mem_univ y, hgranted, ?_⟩
      rwa [World.inbox_dequeue_self]
    · have hy := (Finset.mem_filter.mp hy).2
      exact Finset.mem_filter.mpr ⟨Finset.mem_univ y, hy.1,
        fun hmem => hy.2 (World.mem_inbox_dequeue hinbox hmem)⟩
  have hnot : v ∉ counted tr w x (w.node x).term := fun hv => (Finset.mem_filter.mp hv).2.2 hvote
  have hcard := Finset.card_le_card hinsert
  rw [Finset.card_insert_of_notMem hnot] at hcard
  have := h.votes x hrole hcandidacy
  omega

/-- A turn that raises no node's term lowers none. -/
theorem term_le_afterTurn (hterm : (w.node x).term ≤ t.node.term) (y : Fin n) :
    (w.node y).term ≤ ((w.afterTurn x t moves).node y).term := by
  by_cases hy : y = x
  · subst hy
    rwa [World.afterTurn_node_self]
  · rw [World.afterTurn_node_ne hy]

theorem mem_inbox_of_isElection (hsent : ∀ dst m, (dst, m) ∈ t.sent → m.isElection = false)
    {c : Fin n} {src : Option (Fin n)} {m : Message n} (hm : m.isElection = true) :
    m ∈ (w.afterTurn x t moves).inbox c src ↔ m ∈ w.inbox c src := by
  rw [World.mem_inbox_afterTurn]
  constructor
  · rintro (hmem | ⟨-, hmem⟩)
    · exact hmem
    · simp [hsent c m hmem] at hm
  · exact .inl

/-- Sending messages without a vote leaves the number of votes in flight. -/
theorem count_inbox_afterTurn (hsent : ∀ dst T, (dst, .vote ⟨T⟩) ∉ t.sent) (c v : Fin n) (T : ℕ) :
    ((w.afterTurn x t moves).inbox c (some v)).count (.vote ⟨T⟩) =
      (w.inbox c (some v)).count (.vote ⟨T⟩) := by
  show (World.enqueue w.inbox x t.sent c (some v)).count _ = _
  unfold World.enqueue
  split_ifs
  · have hnone : .vote ⟨T⟩ ∉ (t.sent.filter fun m => m.1 = c).map Prod.snd := by
      intro hmem
      obtain ⟨⟨dst, m⟩, hm, rfl⟩ := List.mem_map.mp hmem
      exact hsent dst T (List.mem_filter.mp hm).1
    rw [List.count_append, List.count_eq_zero.mpr hnone, add_zero]
  · rfl

theorem voted_append {out : List (Event n)} (hout : ∀ e ∈ out, e.isElection = false) {v c : Fin n}
    {T : ℕ} : voted (tr ++ out) v c T ↔ voted tr v c T := by
  unfold voted
  rw [mem_append_of_isElection hout rfl, mem_append_of_isElection hout rfl]

theorem voted_of_voted {v c : Fin n} {T : ℕ} (h : voted tr v c T) (out : List (Event n)) :
    voted (tr ++ out) v c T :=
  h.imp (List.mem_append_left out) fun ⟨hv, hc⟩ => ⟨hv, List.mem_append_left out hc⟩

/-- A vote is of a term that the voter has reached. -/
theorem term_of_voted (h : ElectionInv tr w) {v c : Fin n} {T : ℕ} (hv : voted tr v c T) :
    T ≤ (w.node v).term := by
  rcases hv with hv | ⟨rfl, hv⟩
  · exact (h.granted v c T hv).2.1
  · exact h.candidacy v T hv

/-- More votes do not break a majority. -/
theorem majority_append (out : List (Event n)) {c : Fin n} {T : ℕ}
    (h : n < 2 * (Finset.univ.filter fun v => voted tr v c T).card) :
    n < 2 * (Finset.univ.filter fun v => voted (tr ++ out) v c T).card := by
  refine h.trans_le (Nat.mul_le_mul_left 2 (Finset.card_le_card ?_))
  intro v hv
  have hvoted : voted tr v c T := (Finset.mem_filter.mp hv).2
  exact Finset.mem_filter.mpr ⟨Finset.mem_univ v, voted_of_voted hvoted out⟩

theorem electedIn_isElection {e : Event n} {T : ℕ} (h : e.electedIn T = true) :
    e.isElection = true := by
  cases e <;> simp_all [Event.electedIn, Event.isElection]

theorem countP_electedIn {out : List (Event n)} (hout : ∀ e ∈ out, e.isElection = false) (T : ℕ) :
    out.countP (·.electedIn T) = 0 := by
  apply List.countP_eq_zero.mpr
  intro e he helected
  simpa [hout e he] using electedIn_isElection helected

/-- Who has been elected stays so, where the node that acts is no candidate of a term in which it has
been elected. -/
theorem elected_append (h : ElectionInv tr w) (hterm : (w.node x).term ≤ t.node.term)
    (hrole : ∀ T, .elected x T ∈ tr → t.node.term = T → t.node.role ≠ .candidate)
    (out : List (Event n)) {c : Fin n} {T : ℕ} (helected : .elected c T ∈ tr) :
    T ≤ ((w.afterTurn x t moves).node c).term ∧
      (((w.afterTurn x t moves).node c).term = T →
        ((w.afterTurn x t moves).node c).role ≠ .candidate) ∧
      n < 2 * (Finset.univ.filter fun v => voted (tr ++ out) v c T).card := by
  obtain ⟨hle, hold, hmajority⟩ := h.elected c T helected
  refine ⟨hle.trans (term_le_afterTurn hterm c), ?_, majority_append _ hmajority⟩
  by_cases hc : c = x
  · subst hc
    rw [World.afterTurn_node_self]
    exact hrole T helected
  · rwa [World.afterTurn_node_ne hc]

/-- A turn without any part in an election, but for the votes that the node has counted. -/
theorem noElection (h : ElectionInv tr w) (hno : t.NoElection)
    (hterm : (w.node x).term ≤ t.node.term)
    (hvotes : t.node.role = .candidate → .candidacy x t.node.term ∈ tr →
      t.node.votes ≤ 1 + (counted tr w x t.node.term).card)
    (helected : ∀ T, .elected x T ∈ tr → t.node.term = T → t.node.role ≠ .candidate) :
    ElectionInv (tr ++ t.events) (w.afterTurn x t moves) := by
  have hmem : ∀ {e : Event n}, e.isElection = true → (e ∈ tr ++ t.events ↔ e ∈ tr) :=
    mem_append_of_isElection hno.events
  have hinbox : ∀ {c : Fin n} {src : Option (Fin n)} {m : Message n}, m.isElection = true →
      (m ∈ (w.afterTurn x t moves).inbox c src ↔ m ∈ w.inbox c src) :=
    mem_inbox_of_isElection hno.sent
  have hcounted : ∀ c T, counted (tr ++ t.events) (w.afterTurn x t moves) c T =
      counted tr w c T := by
    intro c T
    unfold counted
    simp only [hmem (e := .granted _ c T) rfl, hinbox (m := .vote ⟨T⟩) rfl]
  constructor
  · intro v c T hgranted
    obtain ⟨hne, hle, hcandidacy⟩ := h.granted v c T ((hmem rfl).mp hgranted)
    exact ⟨hne, hle.trans (term_le_afterTurn hterm v), (hmem rfl).mpr hcandidacy⟩
  · intro c T hcandidacy
    exact (h.candidacy c T ((hmem rfl).mp hcandidacy)).trans (term_le_afterTurn hterm c)
  · intro v c c' T hc hc'
    exact h.once v c c' T ((voted_append hno.events).mp hc) ((voted_append hno.events).mp hc')
  · intro y z r hr
    exact (hmem rfl).mpr (h.requested y z r ((hinbox rfl).mp hr))
  · intro c v T hv
    exact (hmem rfl).mpr (h.vote c v T ((hinbox rfl).mp hv))
  · intro c v T
    rw [count_inbox_afterTurn fun dst T hm => by simpa [Message.isElection] using hno.sent _ _ hm]
    exact h.vote_once c v T
  · intro c hrole hcandidacy
    rw [hcounted]
    rw [hmem rfl] at hcandidacy
    by_cases hc : c = x
    · subst hc
      rw [World.afterTurn_node_self] at hrole hcandidacy ⊢
      exact hvotes hrole hcandidacy
    · rw [World.afterTurn_node_ne hc] at hrole hcandidacy ⊢
      exact h.votes c hrole hcandidacy
  · intro c T hc
    rw [hmem rfl] at hc
    exact h.elected_append hterm helected _ hc
  · intro T
    rw [List.countP_append, countP_electedIn hno.events, add_zero]
    exact h.elected_once T

/-- A node that has not voted in a term can vote in it once. -/
theorem once_of_fresh (h : ElectionInv tr w) {c : Fin n} {T : ℕ} (hfresh : ∀ c', ¬ voted tr x c' T)
    {v c₁ c₂ : Fin n} {T' : ℕ} (h₁ : voted tr v c₁ T' ∨ v = x ∧ c₁ = c ∧ T' = T)
    (h₂ : voted tr v c₂ T' ∨ v = x ∧ c₂ = c ∧ T' = T) : c₁ = c₂ := by
  rcases h₁ with hold₁ | ⟨rfl, rfl, rfl⟩
  · rcases h₂ with hold₂ | ⟨rfl, rfl, rfl⟩
    · exact h.once v c₁ c₂ T' hold₁ hold₂
    · exact absurd hold₁ (hfresh c₁)
  · rcases h₂ with hold₂ | ⟨-, rfl, -⟩
    · exact absurd hold₂ (hfresh c₂)
    · rfl

/-- A vote is granted to a candidate that has asked for it. -/
theorem grant (h : ElectionInv tr w) {c : Fin n} {T : ℕ} (hne : x ≠ c)
    (hcandidacy : .candidacy c T ∈ tr) (hrole : t.node.role = .follower)
    (hterm : (w.node x).term < T) (hterm' : t.node.term = T)
    (hsent : t.sent = [(c, .vote ⟨T⟩)]) :
    ElectionInv (tr ++ [.granted x c T]) (w.afterTurn x t moves) := by
  have hle : ∀ y, (w.node y).term ≤ ((w.afterTurn x t moves).node y).term :=
    term_le_afterTurn (by omega)
  have hfresh : ∀ c', ¬ voted tr x c' T := fun c' hv =>
    absurd (h.term_of_voted hv) (not_le.mpr hterm)
  have hvoted : ∀ {v c' T'}, voted (tr ++ [.granted x c T]) v c' T' →
      voted tr v c' T' ∨ v = x ∧ c' = c ∧ T' = T := by
    intro v c' T' hv
    simpa [voted, or_assoc, or_comm, or_left_comm] using hv
  have hinbox : ∀ {c' v m}, m ∈ (w.afterTurn x t moves).inbox c' (some v) ↔
      m ∈ w.inbox c' (some v) ∨ v = x ∧ c' = c ∧ m = .vote ⟨T⟩ := by
    intro c' v m
    rw [World.mem_inbox_afterTurn, hsent]
    simp
  constructor
  · intro v c' T' hgranted
    rcases List.mem_append.mp hgranted with hgranted | hgranted
    · obtain ⟨hne', hle', hcandidacy'⟩ := h.granted v c' T' hgranted
      exact ⟨hne', hle'.trans (hle v), List.mem_append_left _ hcandidacy'⟩
    · obtain ⟨rfl, rfl, rfl⟩ : v = x ∧ c' = c ∧ T' = T := by simpa using hgranted
      refine ⟨hne, ?_, List.mem_append_left _ hcandidacy⟩
      rw [World.afterTurn_node_self, hterm']
  · intro c' T' hcandidacy'
    have hold : .candidacy c' T' ∈ tr := by simpa using hcandidacy'
    exact (h.candidacy c' T' hold).trans (hle c')
  · intro v c₁ c₂ T' h₁ h₂
    exact h.once_of_fresh hfresh (hvoted h₁) (hvoted h₂)
  · intro y z r hr
    rcases hinbox.mp hr with hr | ⟨-, -, hr⟩
    · exact List.mem_append_left _ (h.requested y z r hr)
    · cases hr
  · intro c' v T' hv
    rcases hinbox.mp hv with hv | ⟨rfl, rfl, hv⟩
    · exact List.mem_append_left _ (h.vote c' v T' hv)
    · obtain rfl : T' = T := by simpa using hv
      simp
  · intro c' v T'
    show (World.enqueue w.inbox x t.sent c' (some v)).count _ ≤ 1
    unfold World.enqueue
    split_ifs with hx
    · obtain rfl := Option.some.inj hx
      rw [hsent, List.count_append]
      by_cases heq : c' = c ∧ T' = T
      · obtain ⟨rfl, rfl⟩ := heq
        have hnone : .vote ⟨T'⟩ ∉ w.inbox c' (some v) := fun hmem =>
          hfresh c' (.inl (h.vote c' v T' hmem))
        simp [List.count_eq_zero.mpr hnone]
      · have hzero : (([(c, (.vote ⟨T⟩ : Message n))].filter fun m => m.1 = c').map Prod.snd).count
            (.vote ⟨T'⟩) = 0 := by
          rw [List.count_eq_zero]
          intro hmem
          obtain ⟨⟨dst, m⟩, hm, rfl⟩ := List.mem_map.mp hmem
          obtain ⟨hm, hdst⟩ := List.mem_filter.mp hm
          have hm : dst = c ∧ T' = T := by simpa using hm
          exact heq ⟨by simpa [hm.1, eq_comm] using hdst, hm.2⟩
        rw [hzero, add_zero]
        exact h.vote_once c' v T'
    · exact h.vote_once c' v T'
  · intro c' hrole' hcandidacy'
    by_cases hc : c' = x
    · subst hc
      rw [World.afterTurn_node_self, hrole] at hrole'
      cases hrole'
    · rw [World.afterTurn_node_ne hc] at hrole' hcandidacy' ⊢
      have hold : .candidacy c' (w.node c').term ∈ tr := by simpa using hcandidacy'
      refine (h.votes c' hrole' hold).trans (Nat.add_le_add_left (Finset.card_le_card ?_) 1)
      intro v hv
      obtain ⟨hgranted, hmem⟩ := (Finset.mem_filter.mp hv).2
      refine Finset.mem_filter.mpr ⟨Finset.mem_univ v, List.mem_append_left _ hgranted, ?_⟩
      intro hmem'
      rcases hinbox.mp hmem' with hmem' | ⟨rfl, rfl, hvote⟩
      · exact hmem hmem'
      · have hT : (w.node c').term = T := by simpa using hvote
        exact hfresh c' (.inl (hT ▸ hgranted))
  · intro c' T' helected
    have hold : .elected c' T' ∈ tr := by simpa using helected
    exact h.elected_append (by omega) (fun _ _ _ => by simp [hrole]) _ hold
  · intro T'
    rw [List.countP_append]
    simpa [Event.electedIn] using h.elected_once T'

/-- A node starts an election. -/
theorem start (h : ElectionInv tr w) (hterm : t.node.term = (w.node x).term + 1)
    (hvotes : t.node.votes = 1)
    (hsent : ∀ dst m, (dst, m) ∈ t.sent → ∃ r, m = .requestVote r ∧ r.term = t.node.term) :
    ElectionInv (tr ++ [.candidacy x t.node.term]) (w.afterTurn x t moves) := by
  have hle : ∀ y, (w.node y).term ≤ ((w.afterTurn x t moves).node y).term :=
    term_le_afterTurn (by omega)
  have hfresh : ∀ c', ¬ voted tr x c' t.node.term := fun c' hv => by
    have := h.term_of_voted hv
    omega
  have hvoted : ∀ {v c' T'}, voted (tr ++ [.candidacy x t.node.term]) v c' T' →
      voted tr v c' T' ∨ v = x ∧ c' = x ∧ T' = t.node.term := by
    intro v c' T' hv
    simp only [voted, List.mem_append, List.mem_singleton, reduceCtorEq, or_false,
      Event.candidacy.injEq] at hv ⊢
    rcases hv with hv | ⟨rfl, hv | ⟨rfl, hT⟩⟩
    · exact .inl (.inl hv)
    · exact .inl (.inr ⟨rfl, hv⟩)
    · exact .inr ⟨rfl, rfl, hT⟩
  have hinbox : ∀ {c' v T'}, .vote ⟨T'⟩ ∈ (w.afterTurn x t moves).inbox c' v ↔
      .vote ⟨T'⟩ ∈ w.inbox c' v := by
    intro c' v T'
    rw [World.mem_inbox_afterTurn]
    refine ⟨?_, .inl⟩
    rintro (hmem | ⟨-, hmem⟩)
    · exact hmem
    · obtain ⟨r, hr, -⟩ := hsent _ _ hmem
      cases hr
  constructor
  · intro v c' T' hgranted
    have hold : .granted v c' T' ∈ tr := by simpa using hgranted
    obtain ⟨hne', hle', hcandidacy'⟩ := h.granted v c' T' hold
    exact ⟨hne', hle'.trans (hle v), List.mem_append_left _ hcandidacy'⟩
  · intro c' T' hcandidacy'
    rcases List.mem_append.mp hcandidacy' with hold | hnew
    · exact (h.candidacy c' T' hold).trans (hle c')
    · obtain ⟨rfl, rfl⟩ : c' = x ∧ T' = t.node.term := by simpa using hnew
      rw [World.afterTurn_node_self]
  · intro v c₁ c₂ T' h₁ h₂
    exact h.once_of_fresh hfresh (hvoted h₁) (hvoted h₂)
  · intro y z r hr
    rcases World.mem_inbox_afterTurn.mp hr with hold | ⟨hz, hmem⟩
    · exact List.mem_append_left _ (h.requested y z r hold)
    · obtain rfl := Option.some.inj hz
      obtain ⟨r', hr', hT⟩ := hsent _ _ hmem
      obtain rfl : r = r' := by simpa using hr'
      simp [hT]
  · intro c' v T' hv
    exact List.mem_append_left _ (h.vote c' v T' (hinbox.mp hv))
  · intro c' v T'
    rw [count_inbox_afterTurn]
    · exact h.vote_once c' v T'
    · intro dst T'' hmem
      obtain ⟨r, hr, -⟩ := hsent _ _ hmem
      cases hr
  · intro c' hrole' hcandidacy'
    by_cases hc : c' = x
    · subst hc
      rw [World.afterTurn_node_self, hvotes]
      omega
    · rw [World.afterTurn_node_ne hc] at hrole' hcandidacy' ⊢
      have hold : .candidacy c' (w.node c').term ∈ tr := by simpa [hc] using hcandidacy'
      refine (h.votes c' hrole' hold).trans (Nat.add_le_add_left (Finset.card_le_card ?_) 1)
      intro v hv
      obtain ⟨hgranted, hmem⟩ := (Finset.mem_filter.mp hv).2
      exact Finset.mem_filter.mpr ⟨Finset.mem_univ v, List.mem_append_left _ hgranted,
        fun hmem' => hmem (hinbox.mp hmem')⟩
  · intro c' T' helected
    have hold : .elected c' T' ∈ tr := by simpa using helected
    exact h.elected_append (by omega) (fun T hT _ => absurd (h.elected x T hT).1 (by omega)) _ hold
  · intro T'
    rw [List.countP_append]
    simpa [Event.electedIn] using h.elected_once T'

/-- A candidate is elected. -/
theorem elect (h : ElectionInv tr w) {out : List (Event n)}
    (hcandidacy : .candidacy x t.node.term ∈ tr)
    (hcandidate : (w.node x).role = .candidate) (hterm : t.node.term = (w.node x).term)
    (hrole : t.node.role = .leader) (hmajority : n < 2 * (1 + (counted tr w x t.node.term).card))
    (hsent : ∀ dst m, (dst, m) ∈ t.sent → m.isElection = false)
    (hout : ∀ e ∈ out, e.isElection = false) :
    ElectionInv (tr ++ .elected x t.node.term :: out) (w.afterTurn x t moves) := by
  have hmajority' : n < 2 * (Finset.univ.filter fun v => voted tr v x t.node.term).card := by
    have hsubset : insert x (counted tr w x t.node.term) ⊆
        Finset.univ.filter fun v => voted tr v x t.node.term := by
      intro v hv
      refine Finset.mem_filter.mpr ⟨Finset.mem_univ v, ?_⟩
      rcases Finset.mem_insert.mp hv with rfl | hv
      · exact .inr ⟨rfl, hcandidacy⟩
      · exact .inl (Finset.mem_filter.mp hv).2.1
    have hnot : x ∉ counted tr w x t.node.term := fun hx =>
      (h.granted x x _ (Finset.mem_filter.mp hx).2.1).1 rfl
    have hcard := Finset.card_le_card hsubset
    rw [Finset.card_insert_of_notMem hnot] at hcard
    omega
  have hfresh : ∀ c', .elected c' t.node.term ∉ tr := by
    intro c' helected
    obtain ⟨-, hrole', hmajority''⟩ := h.elected c' _ helected
    obtain rfl := h.eq_of_majorities hmajority'' hmajority'
    exact hrole' hterm.symm hcandidate
  have hno : ElectionInv tr (w.afterTurn x { t with events := [] } moves) := by
    have hquiet : Turn.NoElection { t with events := [] } := ⟨hsent, fun _ he => by cases he⟩
    have hquiet : ElectionInv (tr ++ []) (w.afterTurn x { t with events := [] } moves) :=
      h.noElection hquiet hterm.ge (fun hcandidate => by simp [hrole] at hcandidate)
        (fun _ _ _ => by simp [hrole])
    rwa [List.append_nil] at hquiet
  have hmem : ∀ {e : Event n}, e.isElection = true → (∀ T, e.electedIn T = false) →
      (e ∈ tr ++ .elected x t.node.term :: out ↔ e ∈ tr) := by
    intro e he helected
    rw [List.append_cons, mem_append_of_isElection hout he, List.mem_append, List.mem_singleton]
    refine ⟨?_, .inl⟩
    rintro (hmem | rfl)
    · exact hmem
    · simpa [Event.electedIn] using helected t.node.term
  have hvoted : ∀ {v c T}, voted (tr ++ .elected x t.node.term :: out) v c T ↔ voted tr v c T := by
    intro v c T
    unfold voted
    rw [hmem rfl fun _ => rfl, hmem rfl fun _ => rfl]
  constructor
  · intro v c T hgranted
    obtain ⟨hne, hle, hcandidacy'⟩ := hno.granted v c T ((hmem rfl fun _ => rfl).mp hgranted)
    exact ⟨hne, hle, (hmem rfl fun _ => rfl).mpr hcandidacy'⟩
  · intro c T hc
    exact hno.candidacy c T ((hmem rfl fun _ => rfl).mp hc)
  · intro v c c' T hc hc'
    exact h.once v c c' T (hvoted.mp hc) (hvoted.mp hc')
  · intro y z r hr
    exact (hmem rfl fun _ => rfl).mpr (hno.requested y z r hr)
  · intro c v T hv
    exact (hmem rfl fun _ => rfl).mpr (hno.vote c v T hv)
  · exact hno.vote_once
  · intro c hrole' hc
    refine (hno.votes c hrole' ((hmem rfl fun _ => rfl).mp hc)).trans
      (Nat.add_le_add_left (Finset.card_le_card ?_) 1)
    intro v hv
    obtain ⟨hgranted, hmem'⟩ := (Finset.mem_filter.mp hv).2
    exact Finset.mem_filter.mpr ⟨Finset.mem_univ v, (hmem rfl fun _ => rfl).mpr hgranted, hmem'⟩
  · intro c T hc
    rcases List.mem_append.mp hc with hc | hc
    · obtain ⟨hle, hrole', hmajority''⟩ := hno.elected c T hc
      exact ⟨hle, hrole', majority_append _ hmajority''⟩
    · rcases List.mem_cons.mp hc with hc | hc
      · obtain ⟨rfl, rfl⟩ : c = x ∧ T = t.node.term := by simpa using hc
        refine ⟨?_, ?_, majority_append _ hmajority'⟩
        · rw [World.afterTurn_node_self]
        · rw [World.afterTurn_node_self, hrole]
          simp
      · simpa [Event.isElection] using hout _ hc
  · intro T
    rw [List.countP_append, List.countP_cons, countP_electedIn hout]
    by_cases hT : T = t.node.term
    · subst hT
      have hzero : tr.countP (·.electedIn t.node.term) = 0 := by
        apply List.countP_eq_zero.mpr
        intro e he helected
        cases e with
        | elected c T =>
          obtain rfl : T = t.node.term := by simpa [Event.electedIn] using helected
          exact hfresh c he
        | _ => simp [Event.electedIn] at helected
      rw [hzero]
      simp [Event.electedIn]
    · have hne : Event.electedIn T (Event.elected x t.node.term) = false := by
        simp [Event.electedIn, eq_comm, hT]
      simpa [hne] using h.elected_once T

/-- The turn of a node, where `msg` is the message that it processes. -/
theorem turn (h : ElectionInv tr w) (hid : (w.node x).id = x) {msg : Option (Message n)}
    (ht : Electoral (w.node x) t msg)
    (hquorum : ∀ v, msg = some (.vote v) → (w.node x).role = .candidate →
      (w.node x).term = v.term → ((w.node x).nodes.length + 1) / 2 < (w.node x).votes + 1 →
        n < 2 * ((w.node x).votes + 1))
    (hrequest : ∀ r, msg = some (.requestVote r) → x ≠ r.nodeId ∧ .candidacy r.nodeId r.term ∈ tr)
    (hvote : ∀ v, msg = some (.vote v) → (w.node x).role = .candidate →
      (w.node x).term = v.term → .candidacy x v.term ∈ tr ∧
        (w.node x).votes + 1 ≤ 1 + (counted tr w x v.term).card) :
    ElectionInv (tr ++ t.events) (w.afterTurn x t moves) := by
  cases ht with
  | quiet hrole hterm hvotes hno =>
    refine h.noElection hno hterm.ge ?_ ?_
    · rw [hrole, hterm, hvotes]
      exact h.votes x
    · rw [hrole, hterm]
      exact fun T hT => (h.elected x T hT).2.1
  | follow hrole hterm hno =>
    exact h.noElection hno hterm (by simp [hrole]) (by simp [hrole])
  | raise hterm hterm' hno =>
    refine h.noElection hno (by omega) ?_ ?_
    · intro _ hcandidacy
      exact absurd (h.candidacy x _ hcandidacy) (by omega)
    · intro T hT heq
      exact absurd (h.elected x T hT).1 (by omega)
  | grant hrole hterm hterm' hsent hevents =>
    obtain ⟨hne, hcandidacy⟩ := hrequest _ rfl
    rw [hevents, hid]
    exact h.grant hne hcandidacy hrole hterm hterm' hsent
  | count hrole hterm hterm' hvotes hno =>
    obtain ⟨-, hle⟩ := hvote _ rfl hrole hterm
    refine h.noElection hno hterm'.ge ?_ ?_
    · rw [hterm', hterm, hvotes]
      exact fun _ _ => hle
    · rw [hterm']
      exact fun T hT heq => absurd hrole ((h.elected x T hT).2.1 heq)
  | elect hrole hterm hterm' hleader hmajority hsent hevents hout =>
    obtain ⟨hcandidacy, hle⟩ := hvote _ rfl hrole hterm
    rw [← hterm, ← hterm'] at hcandidacy hle
    have hmajority' := hquorum _ rfl hrole hterm hmajority
    rw [hevents, hid, ← hterm']
    exact h.elect hcandidacy hrole hterm' hleader (by omega) hsent hout
  | candidacy hrole hterm hvotes hsent hevents =>
    rw [hevents, hid, ← hterm]
    refine h.start hterm hvotes fun dst m hm => ⟨_, hsent dst m hm, ?_⟩
    exact hterm.symm

/-- One step of the cluster keeps the invariant, when a candidate is elected by more than half of the
nodes. -/
theorem step_of_quorum (h : ElectionInv tr w) (haddressed : Addressed w) {w' : World n}
    {a : Action n} {out : List (Event n)}
    (hquorum : ∀ x src moves v, a = .deliver x src moves → .vote v ∈ (w.inbox x src).head? →
      (w.node x).role = .candidate → (w.node x).term = v.term →
        ((w.node x).nodes.length + 1) / 2 < (w.node x).votes + 1 → n < 2 * ((w.node x).votes + 1))
    (hstep : step w a = some (w', out)) : ElectionInv (tr ++ out) w' := by
  rcases step_cases hstep with ⟨x, command, -, -, rfl, rfl⟩ |
    ⟨x, src, moves, msg, rest, rfl, -, hinbox, rfl, rfl⟩ | ⟨x, moves, -, -, rfl, rfl⟩ |
    ⟨x, partition, -, rfl, rfl⟩
  · rw [List.append_nil]
    exact h.submit
  · have hmsg : msg ∈ w.inbox x src := hinbox ▸ List.mem_cons_self
    have hclient : ∀ m, m ∈ w.inbox x none → m.isElection = false := by
      intro m hm
      obtain ⟨cmd, rfl⟩ | ⟨y, -, rfl⟩ := haddressed.client x m hm <;> rfl
    refine (h.dequeue hinbox).turn (haddressed.id x) (msg.execute_electoral _ _) ?_ ?_ ?_
    · rintro v hv
      obtain rfl := Option.some.inj hv
      exact hquorum x src moves v rfl (by rw [hinbox, List.head?_cons, Option.mem_some])
    · rintro r hr
      obtain rfl := Option.some.inj hr
      cases src with
      | none => cases hclient _ hmsg
      | some y =>
        obtain ⟨hne, rfl⟩ := haddressed.sender x y _ hmsg
        exact ⟨hne.symm, h.requested x _ r hmsg⟩
    · rintro v hv hrole hterm
      obtain rfl := Option.some.inj hv
      cases src with
      | none => cases hclient _ hmsg
      | some y => exact h.votes_dequeue hinbox hrole hterm
  · exact h.turn (haddressed.id x) (RaftNode.timedOut_electoral _ _) nofun nofun nofun
  · rw [List.append_nil]
    exact ⟨h.granted, h.candidacy, h.once, h.requested, h.vote, h.vote_once, h.votes, h.elected,
      h.elected_once⟩

/-- One step of a fully connected cluster keeps the invariant. -/
theorem step (h : ElectionInv tr w) (hconnected : Connected w) {w' : World n} {a : Action n}
    {out : List (Event n)} (hstep : step w a = some (w', out)) : ElectionInv (tr ++ out) w' := by
  refine h.step_of_quorum hconnected.addressed ?_ hstep
  intro x _ _ _ _ _ _ _ hmajority
  rw [hconnected.length_nodes] at hmajority
  omega

/-- The invariant holds along every run of a cluster that starts fully connected. -/
theorem of_run {ok : World n → Action n → Prop} (h : (cluster (World.connected n)).Run ok tr w) :
    Connected w ∧ ElectionInv tr w := by
  refine Machine.Run.invariant (P := fun tr w => Connected w ∧ ElectionInv tr w) ?_ ?_ h
  · exact ⟨Connected.init, init⟩
  · rintro tr w a w' out ⟨hconnected, hinv⟩ - hstep
    exact ⟨hconnected.step hstep, hinv.step hconnected hstep⟩

end ElectionInv

/-- **At most one node is elected in a term**, and at most once. -/
theorem elected_at_most_once {tr : List (Event n)} {w : World n}
    (h : (cluster (World.connected n)).Run Machine.unguarded tr w) (T : ℕ) :
    tr.countP (·.electedIn T) ≤ 1 :=
  (ElectionInv.of_run h).2.elected_once T

/-- The run in which one of three nodes is elected. -/
theorem elected_at_most_once_three :
    ∃ tr w, (cluster (World.connected 3)).Run Machine.unguarded tr w ∧
      tr.countP (·.electedIn 1) = 1 ∧ tr.countP (·.electedIn 1) ≤ 1 := by
  have hexec : ((cluster (World.connected 3)).exec
      [.timeout 0 [], .deliver 1 (some 0) [], .deliver 0 (some 1) []]).map Prod.snd =
      some [.candidacy 0 1, .granted 1 0 1, .elected 0 1] := by
    decide +kernel
  obtain ⟨⟨w, tr⟩, hexec, rfl⟩ := Option.map_eq_some_iff.mp hexec
  have hrun := Machine.run_exec hexec
  refine ⟨_, w, hrun, ?_, elected_at_most_once hrun 1⟩
  decide

end Consensus
