import RustPractices.Consensus.Applying
import RustPractices.Consensus.Commitment

/-!
# Agreement

A node applies the entries before the one that completes a majority, and the entries that the leader has
applied when it has nothing pending for the node. As long as no leader is asked for a vote that it does
not give, and no response makes a majority for an entry of an earlier term, both are decided: they are
not behind a chosen entry, and every later leader has them. No node cuts off what it has applied, and all
nodes apply the same commands.

## Main definitions

* `Decided`: an entry that is not behind a chosen one
* `Kept`: a node has a decided entry
* `World.Unsent`: a leader that has not sent an entry in its term
* `Agreed`: the invariant of what is applied

## Main results

* `Decided.unique`: one entry is decided at an index
* `Agreed.step`: one step of the cluster
* `applied_agree`: two nodes apply the same command at an index
* `applied_kept`: a node keeps what it has applied
* `leader_applied`: what has been applied is in the log of every later leader
-/

open Transition Replication

namespace Consensus

variable {n : ℕ}

/-! ## Decided entries -/

/-- The entry `e` at the index `i` is not behind a chosen entry of a term up to `bound`. -/
def Decided (hist : ℕ → List LogEntry) (tr : List (Event n)) (bound i : ℕ) (e : LogEntry) : Prop :=
  ∃ T j, T ≤ bound ∧ i ≤ j ∧ Chosen LogEntry.term hist (stored tr) T j ∧ (hist T)[i]? = some e

section Decided

variable {hist hist' : ℕ → List LogEntry} {tr : List (Event n)} {w w' : World n} {bound bound' i : ℕ}
  {e e' : LogEntry}

theorem Decided.mono (h : Decided hist tr bound i e) (hbound : bound ≤ bound')
    (hle : ∀ T, hist T <+: hist' T) (out : List (Event n)) : Decided hist' (tr ++ out) bound' i e := by
  obtain ⟨T, j, hT, hij, hchosen, he⟩ := h
  obtain ⟨hlt, -⟩ := List.getElem?_eq_some_iff.mp he
  refine ⟨T, j, hT.trans hbound, hij, hchosen.mono (hle T) fun _ => stored_append out, ?_⟩
  obtain ⟨rest, hrest⟩ := hle T
  rw [← hrest, List.getElem?_append_left hlt, he]

/-- A node has been elected in the term of a chosen entry. -/
theorem Complete.led_of_chosen (h : Complete hist tr w) {T j : ℕ}
    (hchosen : Chosen LogEntry.term hist (stored tr) T j) : led tr T := by
  obtain ⟨s, hs, hstored⟩ := hchosen.stored
  obtain ⟨v, hv⟩ : s.Nonempty := Finset.card_pos.mp (by omega)
  rcases hstored v hv with ⟨c, hmem⟩ | hmem
  · exact ⟨c, (h.accepted v c T j hmem).1⟩
  · exact ⟨v, hmem⟩

/-- **A later leader has what is decided.** -/
theorem Decided.of_led (h : Decided hist tr bound i e) (hconsistent : Consistent hist tr w)
    (hbound : bound ≤ bound') (hled : led tr bound') : (hist bound')[i]? = some e := by
  obtain ⟨T, j, hT, hij, hchosen, he⟩ := h
  rcases (hT.trans hbound).lt_or_eq with hlt | rfl
  · have hentry := hconsistent.complete.leader hchosen hlt hled
    have htake := (hconsistent.matching.histories.follows bound').take_of_hasTerm hentry
    have hi := Nat.lt_succ_of_le hij
    rw [← List.getElem?_take_of_lt hi, htake, List.getElem?_take_of_lt hi, he]
  · exact he

/-- **One entry is decided at an index.** -/
theorem Decided.unique (h : Decided hist tr bound i e) (h' : Decided hist tr bound' i e')
    (hconsistent : Consistent hist tr w) : e = e' := by
  obtain ⟨T, j, hT, hij, hchosen, he⟩ := h
  obtain ⟨T', j', hT', hij', hchosen', he'⟩ := h'
  rcases le_total T T' with hle | hle
  · have hled := hconsistent.complete.led_of_chosen hchosen'
    have hdecided : Decided hist tr T i e := ⟨T, j, le_rfl, hij, hchosen, he⟩
    exact Option.some.inj ((hdecided.of_led hconsistent hle hled).symm.trans he')
  · have hled := hconsistent.complete.led_of_chosen hchosen
    have hdecided : Decided hist tr T' i e' := ⟨T', j', le_rfl, hij', hchosen', he'⟩
    exact Option.some.inj (he.symm.trans (hdecided.of_led hconsistent hle hled))

end Decided

/-! ## What a node keeps -/

/-- The node has the decided entry `e` at the index `i`. -/
structure Kept (hist : ℕ → List LogEntry) (tr : List (Event n)) (s : RaftNode n) (i : ℕ)
    (e : LogEntry) : Prop where
  decided : Decided hist tr s.term i e
  entry : s.log[i]? = some e

namespace World.Acts

variable {hist hist' : ℕ → List LogEntry} {tr : List (Event n)} {w w' : World n} {x y : Fin n}
  {t : Turn n} {msg : Option (Message n)} {i bound : ℕ} {e : LogEntry}

/-- **No turn cuts off a decided entry**: the sender of an entry that is taken over has it as well. -/
theorem kept (hact : w.Acts x msg t w') (h : Consistent hist tr w) (hgrown : Grown hist hist' w')
    (hkept : Kept hist tr (w.node y) i e) : Kept hist' (tr ++ t.events) (w'.node y) i e := by
  refine ⟨hkept.decided.mono (hact.term_le h.matching y) hgrown.le _, ?_⟩
  by_cases hy : y = x
  · subst hy
    have ht := hact.replicates h.matching
    rw [hact.node_self]
    cases ht.logged with
    | keep hlog _ _ => rw [hlog, hkept.entry]
    | create cmds _ _ _ hlog _ =>
      obtain ⟨hlt, -⟩ := List.getElem?_eq_some_iff.mp hkept.entry
      rw [hlog, List.getElem?_append_left hlt, hkept.entry]
    | accept a d ha hd hle _ _ hprev hlog _ =>
      obtain ⟨hsender, helected, -⟩ := ht.appended ha
      have hget := hkept.decided.of_led h hle ⟨_, helected⟩
      obtain ⟨hlt, -⟩ := List.getElem?_eq_some_iff.mp hkept.entry
      have hcommon := (h.matching.histories.log y).agree (h.matching.histories.follows a.term)
        hkept.entry hget rfl
      have hline := h.lined a.nodeId a.term y helected hsender.symm
      rw [hact.line_of_entry h.matching ha hd] at hline
      have hi := Nat.lt_succ_of_le (hline.common hle h.genuine.fresh hlt hcommon)
      rw [hact.taken h.matching h.genuine ha hd hprev hlog, List.getElem?_take_of_lt hi, hget]
  · rw [hact.node_ne hy, hkept.entry]

/-- What a turn applies. -/
theorem commits (hact : w.Acts x msg t w') :
    ∃ bound, (bound = 0 ∨ Commits (w.node x) msg bound) ∧ t.CommitsTo (w.node x) bound := by
  cases hact with
  | deliver _ _ => exact Message.execute_commits _ _ _
  | timeout _ => exact ⟨0, .inl rfl, RaftNode.timedOut_commits _ _⟩

/-- A turn that follows a heartbeat keeps the log. -/
theorem log_of_heartbeat (hact : w.Acts x msg t w') {a : AppendEntry n}
    (ha : msg = some (.appendEntry a)) (hentry : a.entry = none) (hle : (w.node x).term ≤ a.term) :
    t.node.log = (w.node x).log ∧ t.node.term = a.term := by
  cases hact with
  | @deliver src moves _ _ _ _ =>
    obtain rfl := Option.some.inj ha
    rcases a.execute_cases (w.up x moves) (w.node x) with ⟨hlt, -⟩ | ⟨-, _, _, _, -, -, heq⟩
    · exact absurd hle (not_le.mpr hlt)
    rw [Message.execute, heq, AppendEntry.answer, hentry]
    dsimp only
    split_ifs
    · obtain ⟨_, _, _, hnode⟩ := RaftNode.applyLogs_node (a.follow (w.node x)).committed
        (min a.committed (a.follow (w.node x)).log.length - (a.follow (w.node x)).committed)
        (a.follow (w.node x))
      rw [hnode]
      exact ⟨rfl, rfl⟩
    · exact ⟨rfl, rfl⟩
  | timeout _ => cases ha

/-- A turn that counts a response keeps the log. -/
theorem log_of_response (hact : w.Acts x msg t w') {r : AppendEntryResponse n}
    (hr : msg = some (.appendEntryResponse r)) :
    t.node.log = (w.node x).log ∧ t.node.term = (w.node x).term := by
  cases hact with
  | @deliver src moves _ _ _ _ =>
    obtain rfl := Option.some.inj hr
    obtain ⟨_, _, _, _, _, hnode⟩ := r.execute_node (w.up x moves) (w.node x)
    exact ⟨congrArg (·.log) hnode, congrArg (·.term) hnode⟩
  | timeout _ => cases hr

end World.Acts

/-! ## What is applied -/

/-- A leader that keeps its log and its term, and gets no response, has the same entries pending. -/
theorem Message.execute_idle (up : ℕ → Fin n → Bool) (s : RaftNode n) (msg : Message n)
    (haccept : ∀ a, msg ≠ .accept a)
    (hresponse : ∀ r, msg = .appendEntryResponse r → r.term ≠ s.term) (hrole : s.role = .leader)
    (hrole' : (msg.execute up s).node.role = .leader) (hterm : (msg.execute up s).node.term = s.term)
    (hlog : (msg.execute up s).node.log = s.log) :
    (msg.execute up s).node.pendingEntry = s.pendingEntry ∧
      (msg.execute up s).node.committed = s.committed := by
  cases msg with
  | accept msg => exact absurd rfl (haccept msg)
  | command cmd =>
    obtain ⟨-, heq⟩ | ⟨hnot, -⟩ := cmd.execute_cases up s
    · simp only [execute, heq] at hlog
      simp [RaftNode.pushLogEntry] at hlog
    · exact absurd hrole hnot
  | appendEntry msg =>
    obtain ⟨-, heq⟩ | ⟨-, _, _, _, -, -, heq⟩ := msg.execute_cases up s
    · rw [execute, heq]
      exact ⟨rfl, rfl⟩
    · obtain ⟨_, _, _, _, _, hanswer⟩ := msg.answer_node up (msg.follow s)
      simp only [execute, heq, hanswer] at hrole'
      cases hrole'
  | appendEntryResponse msg =>
    rw [execute, AppendEntryResponse.execute, if_neg (hresponse msg rfl).symm]
    exact ⟨rfl, rfl⟩
  | requestVote msg =>
    obtain ⟨-, heq⟩ | ⟨hlt, -, _, heq⟩ | ⟨hlt, -, -, heq⟩ := msg.execute_cases up s
    · rw [execute, heq]
      exact ⟨rfl, rfl⟩
    · rw [execute, heq] at hterm
      exact absurd hterm hlt.ne'
    · rw [execute, heq] at hterm
      exact absurd hterm hlt.ne'
  | vote msg =>
    obtain ⟨-, heq⟩ | ⟨hcandidate, -⟩ | ⟨hcandidate, -⟩ := msg.execute_cases up s
    · rw [execute, heq]
      exact ⟨rfl, rfl⟩
    · simp [hrole] at hcandidate
    · simp [hrole] at hcandidate

/-- The leader has not sent an entry in its term. -/
structure World.Unsent (w : World n) (x : Fin n) : Prop where
  pending : ∀ y, y ≠ x → (w.node x).pendingEntry y = none
  entry : ∀ y a, .appendEntry a ∈ w.inbox y (some x) → a.term = (w.node x).term → a.entry = none
  response : ∀ y r, .appendEntryResponse r ∈ w.inbox x (some y) → r.term ≠ (w.node x).term
  committed : (w.node x).committed = 0

/-- **The invariant of what is applied.** -/
structure Agreed (hist : ℕ → List LogEntry) (tr : List (Event n)) (w : World n) : Prop where
  committed : ∀ x, ∀ i < (w.node x).committed, ∃ e, Kept hist tr (w.node x) i e
  applied : ∀ x i cmd, .applied x i cmd ∈ tr → ∃ e, Kept hist tr (w.node x) i e ∧ e.entry = cmd
  message : ∀ x y a, .appendEntry a ∈ w.inbox x (some y) →
    ∀ i < a.committed, ∃ e, Decided hist tr a.term i e
  /-- A node that has taken over an entry in its term has a beginning of the leader's log. -/
  accepted : ∀ v c i, .accepted v c (w.node v).term i ∈ tr → (w.node v).log <+: hist (w.node v).term
  /-- A leader with nothing pending for a node knows that the node has taken over an entry, or it has not
  sent any. -/
  pending : ∀ x y, (w.node x).role = .leader → y ≠ x → (w.node x).pendingEntry y = none →
    (w.node x).log = [] ∨ w.Unsent x ∨ ∃ i, .accepted y x (w.node x).term i ∈ tr
  heartbeat : ∀ x y a, .appendEntry a ∈ w.inbox x (some y) → a.entry = none →
    a.committed = 0 ∨ ∃ i, .accepted x y a.term i ∈ tr

namespace Agreed

variable {hist hist' : ℕ → List LogEntry} {tr out : List (Event n)} {w w' : World n} {x : Fin n}
  {t : Turn n} {msg : Option (Message n)} {bound : ℕ}

theorem init : Agreed (fun _ => []) [] (World.connected n) where
  committed _ _ h := by simp [World.connected, RaftNode.new] at h
  applied _ _ _ h := by simp at h
  message _ _ _ h := by simp [World.connected] at h
  accepted _ _ _ h := by simp at h
  pending _ _ h := by simp [World.connected, RaftNode.new] at h
  heartbeat _ _ _ h := by simp [World.connected] at h

/-- **What a message lets a node apply is decided.** -/
theorem kept_of_commits (h : Agreed hist tr w) (hc : Consistent hist tr w) (hhonest : Honest hist tr w)
    (hact : w.Acts x msg t w') (hgrown : Grown hist hist' w')
    (hown : ∀ m, msg = some m → ¬ m.CommitsEarlier (w.node x))
    (hcommits : Commits (w.node x) msg bound) {i : ℕ} (hi : i < bound) :
    ∃ e, (w.node x).log[i]? = some e ∧ Kept hist' (tr ++ t.events) t.node i e := by
  generalize hmsg : msg = msg' at hcommits
  cases hcommits with
  | @heartbeat a _ hentry hle hbound hlength =>
    obtain ⟨src, ha⟩ := hact.received hmsg
    cases src with
    | none =>
      obtain ⟨cmd, hcmd⟩ := hc.matching.connected.client x _ ha
      cases hcmd
    | some y =>
      have hlt := hi.trans_le hbound
      obtain ⟨e, hdecided⟩ := h.message x y a ha i hlt
      rcases h.heartbeat x y a ha hentry with hzero | ⟨j, haccepted⟩
      · omega
      obtain ⟨helected, hterm, -⟩ := hc.complete.accepted x y a.term j haccepted
      obtain hterm := le_antisymm hle hterm
      have hbegin := h.accepted x y j (hterm ▸ haccepted)
      have hget : (w.node x).log[i]? = some e := by
        obtain ⟨rest, hrest⟩ := hbegin
        have hget := hdecided.of_led hc le_rfl ⟨y, helected⟩
        rwa [← hterm, ← hrest, List.getElem?_append_left (hi.trans_le hlength)] at hget
      obtain ⟨hlog, hterm'⟩ := hact.log_of_heartbeat hmsg hentry hle
      refine ⟨e, hget, hdecided.mono hterm'.ge hgrown.le _, ?_⟩
      rw [hlog, hget]
  | @majority r success hterm hsuccess hcommitted hget hmajority =>
    obtain ⟨src, hr⟩ := hact.received hmsg
    obtain ⟨-, hhist, hchosen⟩ := hc.chosen hhonest hr
      (.majority hterm hsuccess hcommitted hget hmajority) (hown _ hmsg)
    have hlt : i < (w.node x).log.length := by
      have := hchosen.entry.lt
      rw [hhist] at this
      omega
    have he := List.getElem?_eq_getElem hlt
    have hdecided : Decided hist tr (w.node x).term i (w.node x).log[i] :=
      ⟨_, r.index, le_rfl, Nat.le_of_lt_succ hi, hchosen, by rw [hhist, he]⟩
    obtain ⟨hlog, hterm'⟩ := hact.log_of_response hmsg
    refine ⟨_, he, hdecided.mono hterm'.ge hgrown.le _, ?_⟩
    rw [hlog, he]

/-- What the nodes have committed is decided, and they keep it. -/
theorem committed_turn (h : Agreed hist tr w) (hc : Consistent hist tr w) (hhonest : Honest hist tr w)
    (hact : w.Acts x msg t w') (hgrown : Grown hist hist' w')
    (hown : ∀ m, msg = some m → ¬ m.CommitsEarlier (w.node x)) {y : Fin n} {i : ℕ}
    (hi : i < (w'.node y).committed) : ∃ e, Kept hist' (tr ++ t.events) (w'.node y) i e := by
  have hold : i < (w.node y).committed → ∃ e, Kept hist' (tr ++ t.events) (w'.node y) i e := by
    intro hlt
    obtain ⟨e, hkept⟩ := h.committed y i hlt
    exact ⟨e, hact.kept hc hgrown hkept⟩
  by_cases hy : y = x
  · subst hy
    rw [hact.node_self] at hi hold ⊢
    obtain ⟨bound, hbound, hto⟩ := hact.commits
    rcases lt_max_iff.mp (hi.trans_le hto.committed) with hlt | hlt
    · exact hold hlt
    rcases hbound with rfl | hcommits
    · exact absurd hlt (Nat.not_lt_zero i)
    · obtain ⟨e, -, hkept⟩ := h.kept_of_commits hc hhonest hact hgrown hown hcommits hlt
      exact ⟨e, hkept⟩
  · exact hold (by rwa [hact.node_ne hy] at hi)

/-- What the nodes have applied is decided, and they keep it. -/
theorem applied_turn (h : Agreed hist tr w) (hc : Consistent hist tr w) (hhonest : Honest hist tr w)
    (hact : w.Acts x msg t w') (hgrown : Grown hist hist' w')
    (hown : ∀ m, msg = some m → ¬ m.CommitsEarlier (w.node x)) {y : Fin n} {i : ℕ} {cmd : Request}
    (happlied : .applied y i cmd ∈ tr ++ t.events) :
    ∃ e, Kept hist' (tr ++ t.events) (w'.node y) i e ∧ e.entry = cmd := by
  rcases List.mem_append.mp happlied with hold | hnew
  · obtain ⟨e, hkept, hcmd⟩ := h.applied y i cmd hold
    exact ⟨e, hact.kept hc hgrown hkept, hcmd⟩
  · obtain ⟨bound, hbound, hto⟩ := hact.commits
    obtain ⟨hy, hlt, e, hget, hcmd⟩ := hto.applied y i cmd hnew
    obtain rfl := hy.trans (hc.matching.connected.id x)
    rcases hbound with rfl | hcommits
    · exact absurd hlt (Nat.not_lt_zero i)
    · obtain ⟨e', hget', hkept⟩ := h.kept_of_commits hc hhonest hact hgrown hown hcommits hlt
      obtain rfl := Option.some.inj (hget.symm.trans hget')
      rw [hact.node_self]
      exact ⟨e, hkept, hcmd⟩

/-- A node that has taken over an entry in its term has a beginning of the leader's log. -/
theorem accepted_turn (h : Agreed hist tr w) (hc : Consistent hist tr w) (hact : w.Acts x msg t w')
    (hm' : Matching hist' (tr ++ t.events) w') (hgrown : Grown hist hist' w') {v c : Fin n} {i : ℕ}
    (hmem : .accepted v c (w'.node v).term i ∈ tr ++ t.events) :
    (w'.node v).log <+: hist' (w'.node v).term := by
  have hm := hc.matching
  have hold : (w'.node v).log = (w.node v).log → .accepted v c (w'.node v).term i ∈ tr →
      (w'.node v).log <+: hist' (w'.node v).term := by
    intro hlog hmem
    have hterm := le_antisymm (hc.complete.accepted v c _ i hmem).2.1 (hact.term_le hm v)
    rw [hlog]
    rw [hterm] at hmem ⊢
    exact (h.accepted v c i hmem).trans (hgrown.le _)
  by_cases hv : v = x
  · subst hv
    have ht := hact.replicates hm
    cases ht.logged with
    | keep hlog _ _ =>
      rcases List.mem_append.mp hmem with hmem | hmem
      · exact hold (by rw [hact.node_self, hlog]) hmem
      · obtain ⟨-, a, d, ha, hd, hle, -, hT, -⟩ := hact.accepted hm.connected hmem
        cases (hact.answered ha hd hle).2 with
        | unsent _ _ hnone => exact absurd hmem (hnone _ _ _ _)
        | refused _ _ _ hnone => exact absurd hmem (hnone _ _ _ _)
        | taken hprev htaken _ _ =>
          rw [hT, hact.node_self, hact.taken hm hc.genuine ha hd hprev htaken]
          exact (List.take_prefix _ _).trans (hgrown.le _)
    | create _ hrole _ _ _ _ =>
      rw [hm'.histories.leader v (by rwa [hact.node_self])]
    | accept a d ha hd _ _ hterm hprev hlog _ =>
      rw [hact.node_self, hact.taken hm hc.genuine ha hd hprev hlog, hterm]
      exact (List.take_prefix _ _).trans (hgrown.le _)
  · refine hold (by rw [hact.node_ne hv]) ((List.mem_append.mp hmem).resolve_right fun hnew => ?_)
    exact hv (hact.accepted hm.connected hnew).1

/-- A leader that has not sent an entry has not sent one after a turn in which it keeps its log. -/
theorem unsent_turn (h : w.Unsent x) (hm : Matching hist tr w) (hact : w.Acts x msg t w')
    (hrole : (w.node x).role = .leader) (hrole' : t.node.role = .leader)
    (hterm : t.node.term = (w.node x).term) (hlog : t.node.log = (w.node x).log) : w'.Unsent x := by
  have hidle : t.node.pendingEntry = (w.node x).pendingEntry ∧
      t.node.committed = (w.node x).committed := by
    cases hact with
    | @deliver src _ m _ _ hinbox =>
      have hmem : m ∈ w.inbox x src := hinbox ▸ List.mem_cons_self
      refine m.execute_idle _ _ (fun a => hm.connected.not_accept hmem a) ?_ hrole hrole' hterm hlog
      rintro r rfl
      cases src with
      | none =>
        obtain ⟨cmd, hcmd⟩ := hm.connected.client x _ hmem
        cases hcmd
      | some y => exact h.response y r hmem
    | timeout moves =>
      obtain ⟨-, heq⟩ | ⟨hnot, -⟩ | ⟨hnot, -⟩ := (w.node x).timedOut_cases (w.up x moves)
      · rw [heq]
        exact ⟨rfl, rfl⟩
      · exact absurd hrole hnot
      · exact absurd hrole hnot
  refine ⟨?_, ?_, ?_, ?_⟩
  · rw [hact.node_self, hidle.1]
    exact h.pending
  · intro y a ha hterm'
    rw [hact.node_self, hterm] at hterm'
    rcases hact.mem_inbox ha with hold | ⟨-, hnew⟩
    · exact h.entry y a hold hterm'
    · obtain ⟨hmsg', hy, -⟩ := (hact.replicates hm).append y a hnew
      obtain rfl : a = _ := Message.appendEntry.inj hmsg'
      exact (congrFun hidle.1 y).trans (h.pending y hy)
  · intro y r hr
    rw [hact.node_self, hterm]
    rcases hact.mem_inbox hr with hold | ⟨hy, hnew⟩
    · exact h.response y r hold
    · obtain rfl := Option.some.inj hy
      obtain ⟨a, d, ha, -, -, hdst, -⟩ := hact.responded hnew
      exact absurd hdst.symm ((hact.replicates hm).appended ha).1
  · rw [hact.node_self, hidle.2, h.committed]

/-- The turn of another node. -/
theorem unsent_other (h : w.Unsent x) (hm : Matching hist tr w) {z : Fin n}
    (hact : w.Acts z msg t w') (hz : x ≠ z) : w'.Unsent x := by
  refine ⟨?_, ?_, ?_, ?_⟩
  · rw [hact.node_ne hz]
    exact h.pending
  · intro y a ha hterm
    rw [hact.node_ne hz] at hterm
    rcases hact.mem_inbox ha with hold | ⟨hsrc, -⟩
    · exact h.entry y a hold hterm
    · exact absurd (Option.some.inj hsrc) hz
  · intro y r hr
    rw [hact.node_ne hz]
    rcases hact.mem_inbox hr with hold | ⟨hsrc, hnew⟩
    · exact h.response y r hold
    · obtain ⟨a, d, ha, hd, -, hdst, hterm, -⟩ := hact.responded hnew
      intro heq
      obtain ⟨src, hmem⟩ := hact.received ha
      cases src with
      | none =>
        obtain ⟨cmd, hcmd⟩ := hm.connected.client z _ hmem
        cases hcmd
      | some v =>
        obtain rfl : a.nodeId = v := (hm.connected.sender z v _ hmem).2
        subst hdst
        rw [h.entry z a hmem (hterm.symm.trans heq)] at hd
        cases hd
  · rw [hact.node_ne hz, h.committed]

/-- A node that is elected with an empty log has not sent an entry. -/
theorem unsent_of_nothing (h : Agreed hist tr w) (hm : Matching hist tr w) {src : Option (Fin n)}
    {moves : List (Partitions n)} {m : Message n} {rest : List (Message n)}
    (hsteady : w.Steady (.deliver x src moves)) (hinbox : w.inbox x src = m :: rest)
    (hnothing : m.LeadsFromNothing (w.node x))
    (hm' : Matching hist' (tr ++ (m.execute (w.up x moves) (w.node x)).events)
      ((w.dequeue x src rest).afterTurn x (m.execute (w.up x moves) (w.node x)) moves)) :
    ((w.dequeue x src rest).afterTurn x (m.execute (w.up x moves) (w.node x)) moves).Unsent x := by
  have hact := World.Acts.deliver hsteady hinbox
  cases m with
  | vote v =>
    obtain ⟨hrole, hterm, hvotes, hlog, -⟩ := hnothing
    obtain ⟨hnot, -⟩ | ⟨-, hfew, -⟩ | ⟨-, -, heq⟩ := v.execute_cases (w.up x moves) (w.node x)
    · exact absurd ⟨hrole, hterm⟩ hnot
    · omega
    have heq' : (Message.vote v).execute (w.up x moves) (w.node x) = _ := heq
    have hnode := congrArg (·.node) heq'
    have helected : .elected x (w.node x).term ∈
        ((Message.vote v).execute (w.up x moves) (w.node x)).events := by
      rw [heq', hm.connected.id x]
      exact List.mem_cons_self
    have hfresh := hm'.election.not_elected_before helected
    have hterm' : ((Message.vote v).execute (w.up x moves) (w.node x)).node.term =
        (w.node x).term := congrArg (·.term) hnode
    have hpending : ∀ y, y ≠ x →
        ((Message.vote v).execute (w.up x moves) (w.node x)).node.pendingEntry y = none := by
      intro y hy
      refine (congrArg (·.pendingEntry y) hnode).trans ?_
      have hlast : (w.node x).lastEntryData = none := by simp [RaftNode.lastEntryData, hlog]
      exact (if_pos (hm.connected.mem_nodes.mpr hy)).trans hlast
    refine ⟨?_, ?_, ?_, ?_⟩
    · rw [hact.node_self]
      exact hpending
    · intro y a ha hterm
      rw [hact.node_self, hterm'] at hterm
      rcases hact.mem_inbox ha with hold | ⟨-, hnew⟩
      · exact absurd (hterm ▸ (hm.histories.inbox y x _ hold).1) (hfresh x)
      · obtain ⟨hmsg', hy, -⟩ := (hact.replicates hm).append y a hnew
        obtain rfl : a = _ := Message.appendEntry.inj hmsg'
        exact hpending y hy
    · intro y r hr hterm
      rw [hact.node_self, hterm'] at hterm
      rcases hact.mem_inbox hr with hold | ⟨hy, hnew⟩
      · exact absurd (hterm ▸ (hm.histories.inbox x y _ hold).1) (hfresh x)
      · obtain ⟨_, _, hcase, -⟩ := hact.responded hnew
        cases hcase
    · rw [hact.node_self]
      refine (congrArg (·.committed) hnode).trans ?_
      by_contra hpos
      obtain ⟨e, hkept⟩ := h.committed x 0 (Nat.pos_of_ne_zero hpos)
      have hget := hkept.entry
      simp [hlog] at hget
  | accept _ | command _ | appendEntry _ | appendEntryResponse _ | requestVote _ => cases hnothing

/-- A leader with nothing pending for a node knows that the node has taken over an entry, or it has not
sent any. -/
theorem pending_turn (h : Agreed hist tr w) (hc : Consistent hist tr w) (hhonest : Honest hist tr w)
    (hact : w.Acts x msg t w') (hm' : Matching hist' (tr ++ t.events) w') {y z : Fin n}
    (hrole : (w'.node y).role = .leader) (hz : z ≠ y) (hnone : (w'.node y).pendingEntry z = none) :
    (w'.node y).log = [] ∨ w'.Unsent y ∨ ∃ i, .accepted z y (w'.node y).term i ∈ tr ++ t.events := by
  have hm := hc.matching
  by_cases hy : y = x
  · subst hy
    have hterm : (w.node y).role = .leader → t.node.term = (w.node y).term := by
      intro hrole'
      rw [hact.node_self] at hrole
      rcases (hact.replicates hm).stays hrole with ⟨-, hterm⟩ | helected
      · exact hterm
      · exact ((hact.replicates hm).electoral.elected_mem helected).2.2.2.2
    have hold : (w.node y).role = .leader → (w.node y).pendingEntry z = none →
        t.node.log = (w.node y).log → (w'.node y).log = [] ∨ w'.Unsent y ∨
          ∃ i, .accepted z y (w'.node y).term i ∈ tr ++ t.events := by
      intro hrole' hnone' hlog
      rw [hact.node_self] at hrole
      rcases h.pending y z hrole' hz hnone' with hnil | hunsent | ⟨i, hi⟩
      · left
        rw [hact.node_self, hlog, hnil]
      · exact .inr (.inl (unsent_turn hunsent hm hact hrole' hrole (hterm hrole') hlog))
      · refine .inr (.inr ⟨i, ?_⟩)
        rw [hact.node_self, hterm hrole']
        exact List.mem_append_left _ hi
    cases hact with
    | @deliver src moves m rest hsteady hinbox =>
      have hmem : m ∈ w.inbox y src := hinbox ▸ List.mem_cons_self
      rw [World.afterTurn_node_self] at hrole hnone
      rcases m.execute_pendingEntry_none _ _ (fun a => hm.connected.not_accept hmem a) hrole
        (hm.connected.mem_nodes.mpr hz) hnone with ⟨hlog, hrole', hnone'⟩ |
        ⟨-, r, rfl, rfl, hterm', hanswer⟩ | hnothing | hnil
      · exact hold hrole' hnone' hlog
      · obtain ⟨hrole', hlt, -⟩ := hm.response hmem hterm'.symm
        rcases hanswer with ⟨hsuccess, -⟩ | ⟨-, hlt'⟩
        · rw [World.afterTurn_node_self, hterm hrole', ← hterm']
          cases src with
          | none =>
            obtain ⟨cmd, hcmd⟩ := hm.connected.client y _ hmem
            cases hcmd
          | some v =>
            obtain rfl : r.nodeId = v := (hm.connected.sender y v _ hmem).2
            exact .inr (.inr ⟨r.index,
              List.mem_append_left _ (hhonest.response y _ r hmem hsuccess)⟩)
        · exact absurd hlt' hlt.le.not_gt
      · exact .inr (.inl (h.unsent_of_nothing hm hsteady hinbox hnothing hm'))
      · left
        rwa [World.afterTurn_node_self]
    | timeout moves =>
      rw [World.afterTurn_node_self] at hrole hnone
      obtain ⟨hrole', heq⟩ | ⟨-, heq⟩ | ⟨hnot, heq⟩ := (w.node y).timedOut_cases (w.up y moves)
      · refine hold hrole' ?_ (congrArg (·.node.log) heq)
        rwa [heq] at hnone
      · simp [heq] at hrole
      · simp only [heq, Turn.panic] at hrole
        exact absurd hrole hnot
  · rw [hact.node_ne hy] at hrole hnone ⊢
    rcases h.pending y z hrole hz hnone with hnil | hunsent | ⟨i, hi⟩
    · exact .inl hnil
    · exact .inr (.inl (unsent_other hunsent hm hact hy))
    · exact .inr (.inr ⟨i, List.mem_append_left _ hi⟩)

/-- The turn of a node. -/
theorem turn (h : Agreed hist tr w) (hc : Consistent hist tr w) (hhonest : Honest hist tr w)
    (hact : w.Acts x msg t w') (hc' : Consistent hist' (tr ++ t.events) w')
    (hgrown : Grown hist hist' w') (hown : ∀ m, msg = some m → ¬ m.CommitsEarlier (w.node x)) :
    Agreed hist' (tr ++ t.events) w' := by
  have hm' := hc'.matching
  have hcommitted : ∀ y, ∀ i < (w'.node y).committed,
      ∃ e, Kept hist' (tr ++ t.events) (w'.node y) i e :=
    fun y i hi => h.committed_turn hc hhonest hact hgrown hown hi
  have hpending : ∀ y z, (w'.node y).role = .leader → z ≠ y → (w'.node y).pendingEntry z = none →
      (w'.node y).log = [] ∨ w'.Unsent y ∨ ∃ i, .accepted z y (w'.node y).term i ∈ tr ++ t.events :=
    fun y z hrole hz hnone => h.pending_turn hc hhonest hact hm' hrole hz hnone
  have hsent : ∀ y a, (y, .appendEntry a) ∈ t.sent → y ≠ x ∧ a.term = (w'.node x).term ∧
      a.committed = (w'.node x).committed ∧ a.entry = (w'.node x).pendingEntry y := by
    intro y a ha
    obtain ⟨hmsg', hy, -⟩ := (hact.replicates hc.matching).append y a ha
    obtain rfl : a = _ := Message.appendEntry.inj hmsg'
    rw [hact.node_self]
    exact ⟨hy, rfl, rfl, rfl⟩
  refine ⟨hcommitted, fun y i cmd happlied => h.applied_turn hc hhonest hact hgrown hown happlied, ?_,
    fun v c i hmem => h.accepted_turn hc hact hm' hgrown hmem, hpending, ?_⟩
  · intro y z a ha i hi
    rcases hact.mem_inbox ha with hold | ⟨hz, hnew⟩
    · obtain ⟨e, hdecided⟩ := h.message y z a hold i hi
      exact ⟨e, hdecided.mono le_rfl hgrown.le _⟩
    · obtain ⟨-, hterm, hcommits, -⟩ := hsent y a hnew
      rw [hcommits] at hi
      obtain ⟨e, hkept⟩ := hcommitted x i hi
      exact ⟨e, hterm ▸ hkept.decided⟩
  · intro y z a ha hentry
    rcases hact.mem_inbox ha with hold | ⟨hz, hnew⟩
    · refine (h.heartbeat y z a hold hentry).imp_right fun hi => ?_
      obtain ⟨i, hi⟩ := hi
      exact ⟨i, List.mem_append_left _ hi⟩
    · obtain rfl := Option.some.inj hz
      obtain ⟨hy, hterm, hcommits, hpend⟩ := hsent y a hnew
      have helected := (hm'.histories.inbox y z _ ha).1
      rw [hterm] at helected
      rcases hpending z y (hm'.histories.elected z helected) hy (hpend.symm.trans hentry) with
        hnil | hunsent | hi
      · left
        rw [hcommits]
        by_contra hpos
        obtain ⟨e, hkept⟩ := hcommitted z 0 (Nat.pos_of_ne_zero hpos)
        have hget := hkept.entry
        simp [hnil] at hget
      · exact .inl (hcommits.trans hunsent.committed)
      · exact .inr (hterm ▸ hi)

/-- One step of the cluster in which no response makes a majority for an entry of an earlier term. -/
theorem step (h : Agreed hist tr w) (hc : Consistent hist tr w) (hhonest : Honest hist tr w)
    {a : Action n} (hown : w.CommitsOwn a) (hstep : step w a = some (w', out))
    (hc' : Consistent hist' (tr ++ out) w') (hgrown : Grown hist hist' w') :
    Agreed hist' (tr ++ out) w' := by
  rcases steady_cases hown.1 hstep with ⟨rfl, hnode, hinbox⟩ | ⟨x, msg, t, hact, rfl, hmsg⟩
  · obtain rfl := hgrown.eq_of_node hnode hc.matching.histories hc'.matching.histories
    rw [List.append_nil]
    refine ⟨hnode ▸ h.committed, hnode ▸ h.applied, fun z y a ha => h.message z y a (hinbox z y ▸ ha),
      hnode ▸ h.accepted, ?_, fun z y a ha => h.heartbeat z y a (hinbox z y ▸ ha)⟩
    intro y z hrole hz hnone
    rw [hnode] at hrole hnone ⊢
    refine (h.pending y z hrole hz hnone).imp_right (Or.imp_left fun hunsent => ?_)
    exact ⟨hnode ▸ hunsent.pending, fun v a ha => hnode ▸ hunsent.entry v a (hinbox v y ▸ ha),
      fun v r hr => hnode ▸ hunsent.response v r (hinbox y v ▸ hr), hnode ▸ hunsent.committed⟩
  · refine h.turn hc hhonest hact hc' hgrown fun m hm => ?_
    obtain ⟨src, moves, rfl, hhead⟩ := hmsg m hm
    exact hown.2 m hhead

/-- The invariants hold along every run in which no response makes a majority for an entry of an earlier
term. -/
theorem of_run {tr : List (Event n)} {w : World n} {ok : World n → Action n → Prop}
    (hok : ∀ w a, ok w a → w.CommitsOwn a) (h : (cluster (World.connected n)).Run ok tr w) :
    ∃ hist, Consistent hist tr w ∧ Agreed hist tr w := by
  have hinv := h.invariant (P := fun tr w =>
    ∃ hist, Consistent hist tr w ∧ Honest hist tr w ∧ Agreed hist tr w) ?_ ?_
  · obtain ⟨hist, hc, -, hagreed⟩ := hinv
    exact ⟨hist, hc, hagreed⟩
  · exact ⟨_, .init, .init, .init⟩
  · rintro tr w a w' out ⟨hist, hc, hhonest, hagreed⟩ hguard hstep
    have hown := hok w a hguard
    obtain ⟨hist', hgrown, hc'⟩ := hc.step hown.1 hstep
    exact ⟨hist', hc', hhonest.step hc.matching hown.1 hstep hc'.matching hgrown,
      hagreed.step hc hhonest hown hstep hc' hgrown⟩

end Agreed

/-! ## Agreement -/

/-- The log files are what the nodes have applied, along every run. -/
theorem Recorded.of_run {tr : List (Event n)} {w : World n} {ok : World n → Action n → Prop}
    (h : (cluster (World.connected n)).Run ok tr w) : Recorded tr w := by
  have hinv := h.invariant (P := fun tr w => Connected w ∧ Recorded tr w) ⟨.init, .init⟩ ?_
  · exact hinv.2
  · rintro tr w a w' out ⟨hconnected, hrecorded⟩ - hstep
    exact ⟨hconnected.step hstep, hrecorded.step hconnected hstep⟩

section Runs

variable {tr : List (Event n)} {w : World n} {x y : Fin n} {i : ℕ} {cmd cmd' : Request}

/-- **Two nodes apply the same command at an index**, in a run in which no response makes a majority for
an entry of an earlier term. -/
theorem applied_agree (h : (cluster (World.connected n)).Run World.CommitsOwn tr w)
    (hx : .applied x i cmd ∈ tr) (hy : .applied y i cmd' ∈ tr) : cmd = cmd' := by
  obtain ⟨hist, hc, hagreed⟩ := Agreed.of_run (fun _ _ => id) h
  obtain ⟨e, hkept, rfl⟩ := hagreed.applied x i cmd hx
  obtain ⟨e', hkept', rfl⟩ := hagreed.applied y i cmd' hy
  rw [hkept.decided.unique hkept'.decided hc]

/-- **A node keeps what it has applied**: its log goes on from its log file. -/
theorem applied_kept (h : (cluster (World.connected n)).Run World.CommitsOwn tr w) (x : Fin n) :
    (w.node x).networkNode.logFile.map Prod.snd <+: (w.node x).log.map LogEntry.entry := by
  obtain ⟨hist, -, hagreed⟩ := Agreed.of_run (fun _ _ => id) h
  have hrecorded := Recorded.of_run h x
  obtain ⟨-, -, -, horder⟩ := placed_of_run h
  rw [hrecorded]
  refine List.prefix_iff_getElem?.mpr fun i hi => ?_
  rw [List.getElem_map, List.getElem?_map]
  rw [List.length_map] at hi
  have hget := List.getElem?_eq_getElem hi
  generalize (appliedBy x tr)[i] = a at hget ⊢
  obtain ⟨j, cmd⟩ := a
  obtain rfl := horder.index_eq hget
  obtain ⟨e, hkept, rfl⟩ := hagreed.applied x j _ (mem_appliedBy.mp (List.mem_of_getElem? hget))
  rw [hkept.entry]
  rfl

/-- **What a node has applied is in the log of every leader of its term or a later one.** -/
theorem leader_applied (h : (cluster (World.connected n)).Run World.CommitsOwn tr w)
    (happlied : .applied y i cmd ∈ tr) (hrole : (w.node x).role = .leader)
    (hle : (w.node y).term ≤ (w.node x).term) : ∃ e, (w.node x).log[i]? = some e ∧ e.entry = cmd := by
  obtain ⟨hist, hc, hagreed⟩ := Agreed.of_run (fun _ _ => id) h
  obtain ⟨e, hkept, hcmd⟩ := hagreed.applied y i cmd happlied
  have hget := hkept.decided.of_led hc hle ⟨x, hc.matching.leader x hrole⟩
  rw [hc.matching.histories.leader x hrole] at hget
  exact ⟨e, hget, hcmd⟩

end Runs

/-- Two nodes apply an entry of the leader, and a third one takes it over. -/
theorem exists_applied :
    ∃ tr w, (cluster (World.connected 3)).Run World.CommitsOwn tr w ∧
      (.applied 0 0 ⟨0, .openAccount "a"⟩ ∈ tr ∧ .applied 1 0 ⟨0, .openAccount "a"⟩ ∈ tr) ∧
      (w.alive 1 = true ∧ (w.node 1).networkNode.logFile = [(1, ⟨0, .openAccount "a"⟩)]) ∧
      (w.node 0).role = .leader ∧ (w.node 0).term = 1 ∧ (w.node 1).term = 1 := by
  have hexec : (((cluster (World.connected 3)).guard World.CommitsOwn).exec (electionOfZero ++
      ([.submit 0 (.openAccount "a"), .deliver 0 none [], .deliver 1 (some 0) [],
        .deliver 1 (some 0) [], .deliver 0 (some 1) [], .timeout 0 [], .deliver 1 (some 0) [],
        .deliver 2 (some 0) [], .deliver 2 (some 0) [], .deliver 2 (some 0) []] :
          List (Action 3)))).map
      (fun r => (decide (.applied 0 0 ⟨0, .openAccount "a"⟩ ∈ r.2 ∧
        .applied 1 0 ⟨0, .openAccount "a"⟩ ∈ r.2), decide (r.1.alive 1 = true ∧
          (r.1.node 1).networkNode.logFile = [(1, ⟨0, .openAccount "a"⟩)]), (r.1.node 0).role,
          (r.1.node 0).term, (r.1.node 1).term)) = some (true, true, .leader, 1, 1) := by
    decide +kernel
  obtain ⟨⟨w, tr⟩, hexec, hend⟩ := Option.map_eq_some_iff.mp hexec
  obtain ⟨happlied, hfile, hrest⟩ := by simpa only [Prod.mk.injEq] using hend
  exact ⟨tr, w, Machine.Run.of_guard (Machine.run_exec hexec), of_decide_eq_true happlied,
    of_decide_eq_true hfile, hrest⟩

theorem applied_agree_two :
    ∃ tr w, (cluster (World.connected 3)).Run World.CommitsOwn tr w ∧
      .applied 0 0 ⟨0, .openAccount "a"⟩ ∈ tr ∧ .applied 1 0 ⟨0, .openAccount "a"⟩ ∈ tr ∧
      (⟨0, .openAccount "a"⟩ : Request) = ⟨0, .openAccount "a"⟩ := by
  obtain ⟨tr, w, hrun, ⟨hzero, hone⟩, -⟩ := exists_applied
  exact ⟨tr, w, hrun, hzero, hone, applied_agree hrun hzero hone⟩

/-- **Majorities for entries of earlier terms make two nodes disagree**, also in a run with steady
steps: node 0 leads a third term after node 2 has led a second one, and node 1 takes over the old entry
of node 0. Before node 0 gets the response, node 2 leads a fourth term, and node 1 takes over the entry
of node 2 in its place. -/
theorem not_applied_agree :
    ¬ ∀ tr w, (cluster (World.connected 3)).Run World.Steady tr w →
      ∀ x y i (cmd cmd' : Request), .applied x i cmd ∈ tr → .applied y i cmd' ∈ tr → cmd = cmd' := by
  intro h
  have hexec : (((cluster (World.connected 3)).guard World.Steady).exec (
      electionOfZero ++ ([.setPartition 0 1, .submit 0 (.openAccount "a"), .deliver 0 none [],
        .deliver 2 (some 0) [], .deliver 2 (some 0) [], .timeout 2 [], .deliver 1 (some 2) [],
        .deliver 2 (some 1) [], .setPartition 0 0, .timeout 2 [], .deliver 0 (some 2) [],
        .setPartition 2 1, .submit 2 (.openAccount "b"), .deliver 2 none [],
        .timeout 0 [], .deliver 1 (some 0) [], .deliver 1 (some 0) [], .deliver 0 (some 1) [],
        .deliver 1 (some 0) [], .setPartition 2 0, .timeout 0 [],
        .deliver 2 (some 0) [fun x => if x = 2 then 1 else 0], .setPartition 0 2, .setPartition 2 0,
        .timeout 2 [], .deliver 1 (some 2) [], .deliver 1 (some 2) [], .deliver 1 (some 2) [],
        .deliver 2 (some 1) [], .deliver 1 (some 2) [], .deliver 2 (some 1) [],
        .deliver 0 (some 1) []] : List (Action 3)))).map
      (fun r => decide (.applied 0 0 ⟨0, .openAccount "a"⟩ ∈ r.2 ∧
        .applied 2 0 ⟨1, .openAccount "b"⟩ ∈ r.2)) = some true := by
    decide +kernel
  obtain ⟨⟨w, tr⟩, hexec, hend⟩ := Option.map_eq_some_iff.mp hexec
  obtain ⟨hzero, htwo⟩ := of_decide_eq_true hend
  have hrun := Machine.Run.of_guard (Machine.run_exec hexec)
  exact absurd (h tr w hrun 0 2 0 _ _ hzero htwo) (by decide)

theorem applied_kept_two :
    ∃ tr w, (cluster (World.connected 3)).Run World.CommitsOwn tr w ∧
      .applied 1 0 ⟨0, .openAccount "a"⟩ ∈ tr ∧
      (w.node 1).networkNode.logFile.map Prod.snd <+: (w.node 1).log.map LogEntry.entry := by
  obtain ⟨tr, w, hrun, ⟨-, hone⟩, -⟩ := exists_applied
  exact ⟨tr, w, hrun, hone, applied_kept hrun 1⟩

theorem leader_applied_two :
    ∃ tr w, (cluster (World.connected 3)).Run World.CommitsOwn tr w ∧
      .applied 1 0 ⟨0, .openAccount "a"⟩ ∈ tr ∧ (w.node 0).role = .leader ∧
      (w.node 1).term ≤ (w.node 0).term ∧
      ∃ e, (w.node 0).log[0]? = some e ∧ e.entry = ⟨0, .openAccount "a"⟩ := by
  obtain ⟨tr, w, hrun, ⟨-, happlied⟩, -, hrole, hzero, hone⟩ := exists_applied
  have hle : (w.node 1).term ≤ (w.node 0).term := by omega
  exact ⟨tr, w, hrun, happlied, hrole, hle, leader_applied hrun happlied hrole hle⟩

end Consensus
