import RustPractices.Consensus.Lines
import RustPractices.Replication.Completeness

/-!
# Later leaders

A node votes for a candidate whose log is as new as its own, and it never cuts off an entry that it has
in common with the leader that it follows. As long as no leader is asked for a vote that it does not
give, an entry that more than half of the nodes have taken over in its own term is therefore in the log
of every later leader.

## Main definitions

* `led`: a node has been elected in the term
* `stored`: a node has taken over the entry of a term at an index, or leads the term
* `Complete`: the invariant of stored entries

## Main results

* `Complete.step`: one steady step of the cluster
* `Complete.leader`: a leader has the chosen entries of the terms before
* `Complete.stored_log`: a node has the chosen entries that it has stored
-/

open Transition Replication

namespace Consensus

variable {n : ℕ}

/-- A node has been elected in the term. -/
def led (tr : List (Event n)) (T : ℕ) : Prop := ∃ c, .elected c T ∈ tr

/-- The node has taken over the entry of the term `T` at the index `i`, or it leads the term and has all
entries. -/
def stored (tr : List (Event n)) (v : Fin n) (T i : ℕ) : Prop :=
  (∃ c, .accepted v c T i ∈ tr) ∨ .elected v T ∈ tr

theorem led_append {tr : List (Event n)} (out : List (Event n)) {T : ℕ} (h : led tr T) :
    led (tr ++ out) T := by
  obtain ⟨c, hc⟩ := h
  exact ⟨c, List.mem_append_left _ hc⟩

/-- **The invariant of stored entries.** -/
structure Complete (hist : ℕ → List LogEntry) (tr : List (Event n)) (w : World n) : Prop where
  accepted : ∀ v c T i, .accepted v c T i ∈ tr →
    .elected c T ∈ tr ∧ T ≤ (w.node v).term ∧ i < (hist T).length
  /-- A node has what it has stored, unless a later leader has lost it. -/
  kept : ∀ v T i, stored tr v T i → HasTerm LogEntry.term (hist T) i T →
    HasTerm LogEntry.term (w.node v).log i T ∨
      Lost LogEntry.term hist (led tr) i T ((w.node v).term + 1)
  requested : ∀ x y r, .requestVote r ∈ w.inbox x (some y) → (w.node y).role = .candidate →
    (w.node y).term = r.term → r.latestLogInfo = (w.node y).latestLogInfo
  /-- A candidate is as new as what its voters have stored. -/
  candidate : ∀ v c T i, (w.node c).role = .candidate → voted tr v c (w.node c).term →
    T < (w.node c).term → stored tr v T i → HasTerm LogEntry.term (hist T) i T →
      UpToDate LogEntry.term (w.node c).log i T ∨ Lost LogEntry.term hist (led tr) i T (w.node c).term
  /-- A leader has what those that have made it the leader have stored. -/
  elected : ∀ T', led tr T' → Majority fun v : Fin n => T' ≤ (w.node v).term ∧
    ∀ T i, T < T' → stored tr v T i → HasTerm LogEntry.term (hist T) i T →
      HasTerm LogEntry.term (hist T') i T ∨ Lost LogEntry.term hist (led tr) i T T'

/-- A log with the entry is not newer than a log of a later `LogInfo`. -/
theorem upToDate_of_le {s s' : RaftNode n} {i T : ℕ} (h : UpToDate LogEntry.term s.log i T)
    (hle : s.latestLogInfo ≤ s'.latestLogInfo) : UpToDate LogEntry.term s'.log i T := by
  obtain ⟨e, hlast, hcmp⟩ := h
  have hpos : 0 < s.log.length := by
    rw [List.length_pos_iff]
    rintro hnil
    simp [hnil] at hlast
  have hterm : s.latestLogInfo.latestTerm = e.term := by simp [RaftNode.latestLogInfo, hlast]
  have hle' : e.term < s'.latestLogInfo.latestTerm ∨
      e.term = s'.latestLogInfo.latestTerm ∧ s.log.length ≤ s'.log.length := hterm ▸ hle
  cases hlast' : s'.log.getLast? with
  | none =>
    have hnil := List.getLast?_eq_none_iff.mp hlast'
    have hterm' : s'.latestLogInfo.latestTerm = 0 := by simp [RaftNode.latestLogInfo, hnil]
    rw [hterm', hnil, List.length_nil] at hle'
    omega
  | some e' =>
    have hterm' : s'.latestLogInfo.latestTerm = e'.term := by simp [RaftNode.latestLogInfo, hlast']
    rw [hterm'] at hle'
    refine ⟨e', hlast', ?_⟩
    omega

/-! ## Votes -/

section Votes

variable {up : ℕ → Fin n → Bool} {s : RaftNode n} {t : Turn n} {m : Option (Message n)}

/-- A node votes for a candidate whose log is as new as its own. -/
theorem Message.execute_granted {msg : Message n} {v c : Fin n} {T : ℕ}
    (h : .granted v c T ∈ (msg.execute up s).events) :
    v = s.id ∧ ∃ r, msg = .requestVote r ∧ r.nodeId = c ∧ r.term = T ∧ s.term < T ∧
      s.latestLogInfo ≤ r.latestLogInfo := by
  have helectoral := msg.execute_electoral up s
  generalize hmsg : some msg = m at helectoral
  cases helectoral with
  | quiet _ _ _ hno => simpa [Event.isElection] using hno.events _ h
  | follow _ _ hno => simpa [Event.isElection] using hno.events _ h
  | raise _ _ hno => simpa [Event.isElection] using hno.events _ h
  | @grant r _ hlt _ _ hevents =>
    obtain rfl := Option.some.inj hmsg
    obtain ⟨rfl, rfl, rfl⟩ : v = s.id ∧ c = r.nodeId ∧ T = r.term := by simpa [hevents] using h
    refine ⟨rfl, r, rfl, rfl, rfl, hlt, ?_⟩
    obtain ⟨-, heq⟩ | ⟨-, -, _, heq⟩ | ⟨-, hle, -, -⟩ := r.execute_cases up s
    · simp [execute, heq] at h
    · simp [execute, heq] at h
    · exact hle
  | count _ _ _ _ hno => simpa [Event.isElection] using hno.events _ h
  | elect _ _ _ _ _ _ hevents hout =>
    rw [hevents] at h
    rcases List.mem_cons.mp h with h | h
    · cases h
    · simpa [Event.isElection] using hout _ h
  | candidacy _ _ _ _ hevents => simp [hevents] at h

/-- A candidate has been one before in the same term, or it has come to a later term. -/
theorem Electoral.candidate_cases (h : Electoral s t m) (hrole : t.node.role = .candidate) :
    (s.role = .candidate ∧ t.node.term = s.term ∧ t.NoElection) ∨
    s.term < t.node.term ∧
      (∀ e ∈ t.events, e.isElection = true → e = .candidacy s.id t.node.term) ∧
      ∀ dst r, (dst, .requestVote r) ∈ t.sent → r.latestLogInfo = s.latestLogInfo := by
  cases h with
  | quiet hrole' hterm _ hno => exact .inl ⟨hrole'.symm.trans hrole, hterm, hno⟩
  | follow hrole' _ _ => simp [hrole'] at hrole
  | raise hlt hterm hno =>
    refine .inr ⟨hterm.symm ▸ hlt, fun e he helection => ?_, fun dst r hr => ?_⟩
    · rw [hno.events e he] at helection
      cases helection
    · simpa [Message.isElection] using hno.sent dst _ hr
  | grant hrole' _ _ _ _ => simp [hrole'] at hrole
  | count hrole' _ hterm _ hno => exact .inl ⟨hrole', hterm, hno⟩
  | elect _ _ _ hrole' _ _ _ _ => simp [hrole'] at hrole
  | candidacy _ hterm _ hsent hevents =>
    refine .inr ⟨by omega, fun e he _ => ?_, fun dst r hr => ?_⟩
    · rw [hterm]
      simpa [hevents] using he
    · obtain rfl := Message.requestVote.inj (hsent dst _ hr)
      rfl

/-- A node starts elections for itself. -/
theorem Electoral.candidacy_mem (h : Electoral s t m) {c : Fin n} {T : ℕ}
    (hmem : .candidacy c T ∈ t.events) : c = s.id := by
  cases h with
  | quiet _ _ _ hno => simpa [Event.isElection] using hno.events _ hmem
  | follow _ _ hno => simpa [Event.isElection] using hno.events _ hmem
  | raise _ _ hno => simpa [Event.isElection] using hno.events _ hmem
  | grant _ _ _ _ hevents => simp [hevents] at hmem
  | count _ _ _ _ hno => simpa [Event.isElection] using hno.events _ hmem
  | elect _ _ _ _ _ _ hevents hout =>
    rw [hevents] at hmem
    rcases List.mem_cons.mp hmem with hmem | hmem
    · cases hmem
    · simpa [Event.isElection] using hout _ hmem
  | candidacy _ _ _ _ hevents =>
    rw [hevents] at hmem
    exact (Event.candidacy.inj (List.mem_singleton.mp hmem)).1

/-- A node that is elected does nothing else for the election. -/
theorem Electoral.elected_only (h : Electoral s t m) {c : Fin n} {T : ℕ}
    (helected : .elected c T ∈ t.events) {e : Event n} (he : e ∈ t.events)
    (helection : e.isElection = true) : e = .elected c T := by
  cases h with
  | quiet _ _ _ hno => simpa [Event.isElection] using hno.events _ helected
  | follow _ _ hno => simpa [Event.isElection] using hno.events _ helected
  | raise _ _ hno => simpa [Event.isElection] using hno.events _ helected
  | grant _ _ _ _ hevents => simp [hevents] at helected
  | count _ _ _ _ hno => simpa [Event.isElection] using hno.events _ helected
  | elect _ _ _ _ _ _ hevents hout =>
    have honly : ∀ e ∈ t.events, e.isElection = true → e = .elected s.id s.term := by
      intro e he helection
      rw [hevents] at he
      rcases List.mem_cons.mp he with rfl | he
      · rfl
      · rw [hout e he] at helection
        cases helection
    exact (honly e he helection).trans (honly _ helected rfl).symm
  | candidacy _ _ _ _ hevents => simp [hevents] at helected

end Votes

/-! ## What a turn stores -/

namespace World.Acts

variable {hist hist' : ℕ → List LogEntry} {tr : List (Event n)} {w w' : World n} {x v c : Fin n}
  {t : Turn n} {msg : Option (Message n)} {T i : ℕ}

/-- A node votes for a candidate that has asked for it. -/
theorem granted (hact : w.Acts x msg t w') (hconnected : Connected w)
    (h : .granted v c T ∈ t.events) :
    v = x ∧ (w.node x).term < T ∧ ∃ r, .requestVote r ∈ w.inbox x (some c) ∧ r.term = T ∧
      (w.node x).latestLogInfo ≤ r.latestLogInfo := by
  cases hact with
  | @deliver src _ m _ _ hinbox =>
    obtain ⟨hv, r, rfl, rfl, rfl, hlt, hle⟩ := Message.execute_granted h
    have hmem : .requestVote r ∈ w.inbox x src := hinbox ▸ List.mem_cons_self
    refine ⟨hv.trans (hconnected.id x), hlt, r, ?_, rfl, hle⟩
    cases src with
    | none =>
      obtain ⟨cmd, hcmd⟩ := hconnected.client x _ hmem
      cases hcmd
    | some y =>
      obtain rfl : r.nodeId = y := (hconnected.sender x y _ hmem).2
      exact hmem
  | timeout moves =>
    obtain ⟨-, heq⟩ | ⟨-, heq⟩ | ⟨-, heq⟩ := (w.node x).timedOut_cases (w.up x moves) <;>
      simp [heq, Turn.panic] at h

/-- A node that is a candidate after a turn has kept its log. -/
theorem log_of_candidate (hact : w.Acts x msg t w') (hm : Matching hist tr w)
    (hrole : t.node.role = .candidate) : t.node.log = (w.node x).log := by
  cases (hact.replicates hm).logged with
  | keep hlog _ _ => exact hlog
  | create _ hrole' _ _ _ _ => simp [hrole] at hrole'
  | accept _ _ _ _ _ hrole' _ _ _ _ => simp [hrole] at hrole'

/-- No turn lowers the term of a node. -/
theorem term_le (hact : w.Acts x msg t w') (hm : Matching hist tr w) (v : Fin n) :
    (w.node v).term ≤ (w'.node v).term := by
  by_cases hv : v = x
  · subst hv
    rw [hact.node_self]
    exact (hact.replicates hm).electoral.term_le
  · rw [hact.node_ne hv]

/-- A turn stores entries of the term of the node only. -/
theorem stored_cases (hact : w.Acts x msg t w') (hm : Matching hist tr w)
    (h : stored (tr ++ t.events) v T i) : stored tr v T i ∨ v = x ∧ T = t.node.term := by
  have ht := hact.replicates hm
  rcases h with ⟨c, h⟩ | h
  · rcases List.mem_append.mp h with hold | hnew
    · exact .inl (.inl ⟨c, hold⟩)
    · obtain ⟨rfl, a, d, ha, hd, hle, -, rfl, -⟩ := hact.accepted hm.connected hnew
      exact .inr ⟨rfl, (hact.answered ha hd hle).1.symm⟩
  · rcases List.mem_append.mp h with hold | hnew
    · exact .inl (.inr hold)
    · obtain ⟨hv, rfl, -, -, hterm⟩ := ht.electoral.elected_mem hnew
      exact .inr ⟨hv.trans (hm.connected.id x), hterm.symm⟩

/-- No entry that a node has is lost in a turn, unless the leader that the node follows does not have
it. -/
theorem hasTerm_log (hact : w.Acts x msg t w') (hm : Matching hist tr w) (hg : Genuine hist w)
    (hl : Lined hist tr w) (h : HasTerm LogEntry.term (w.node x).log i T) :
    HasTerm LogEntry.term t.node.log i T ∨
      led tr t.node.term ∧ ¬ HasTerm LogEntry.term (hist t.node.term) i T := by
  have ht := hact.replicates hm
  cases ht.logged with
  | keep hlog _ _ => exact .inl (hlog ▸ h)
  | create cmds _ _ _ hlog _ => exact .inl (h.mono (hlog ▸ List.prefix_append _ _))
  | accept a d ha hd hle _ hterm hprev hlog _ =>
    obtain ⟨hsender, helected, -⟩ := ht.appended ha
    rw [hact.taken hm hg ha hd hprev hlog, hterm]
    have hline := hl a.nodeId a.term x helected hsender.symm
    rw [hact.line_of_entry hm ha hd] at hline
    refine ((hm.histories.log x).cut (hm.histories.follows a.term) h fun k hk heq => ?_).imp_right
      fun hnot => ⟨⟨_, helected⟩, hnot⟩
    exact hline.common hle hg.fresh hk heq

/-- What a node of a later term has stored, it has stored before. -/
theorem stored_before (hact : w.Acts x msg t w') (hm : Matching hist tr w)
    (hm' : Matching hist' (tr ++ t.events) w') (hgrown : Grown hist hist' w')
    (h : Complete hist tr w) (hlt : T < (w'.node v).term) (hstored : stored (tr ++ t.events) v T i)
    (hentry : HasTerm LogEntry.term (hist' T) i T) :
    stored tr v T i ∧ HasTerm LogEntry.term (hist T) i T := by
  rcases hact.stored_cases hm hstored with hold | ⟨rfl, rfl⟩
  · refine ⟨hold, ?_⟩
    rcases hold with ⟨c, hold⟩ | hold
    · have hlength := (h.accepted v c T i hold).2.2
      exact hentry.congr (take_eq_of_grown (hgrown.le T) hlength)
    · rcases hgrown.led T with heq | ⟨y, hrole, rfl⟩
      · rwa [← heq]
      · have helected := hm'.leader y hrole
        obtain rfl := hm'.election.eq_of_elected (List.mem_append_left _ hold) helected
        exact absurd hlt (lt_irrefl _)
  · rw [hact.node_self] at hlt
    exact absurd hlt (lt_irrefl _)

/-- What a later leader has lost stays lost. -/
theorem lost (hact : w.Acts x msg t w') (hm : Matching hist tr w)
    (hm' : Matching hist' (tr ++ t.events) w') (hgrown : Grown hist hist' w') {bound bound' : ℕ}
    (h : Lost LogEntry.term hist (led tr) i T bound) (hbound : bound ≤ bound') :
    Lost LogEntry.term hist' (led (tr ++ t.events)) i T bound' :=
  h.mono hbound (fun _ => led_append _) fun _ ⟨_, hc⟩ => hgrown.new_of_elected hm hact hm' hc

end World.Acts

namespace Complete

variable {hist hist' : ℕ → List LogEntry} {tr out : List (Event n)} {w w' : World n} {x : Fin n}
  {t : Turn n} {msg : Option (Message n)}

theorem init : Complete (fun _ => []) [] (World.connected n) where
  accepted _ _ _ _ h := by simp at h
  kept _ _ _ h := by simp [stored] at h
  requested _ _ _ h := by simp [World.connected] at h
  candidate _ _ _ _ h := by simp [World.connected, RaftNode.new] at h
  elected _ h := by simp [led] at h

theorem accepted_turn (h : Complete hist tr w) (hm : Matching hist tr w)
    (hact : w.Acts x msg t w') (hgrown : Grown hist hist' w') {v c : Fin n} {T i : ℕ}
    (hmem : .accepted v c T i ∈ tr ++ t.events) :
    .elected c T ∈ tr ++ t.events ∧ T ≤ (w'.node v).term ∧ i < (hist' T).length := by
  have ht := hact.replicates hm
  rcases List.mem_append.mp hmem with hold | hnew
  · obtain ⟨helected, hle, hlt⟩ := h.accepted v c T i hold
    exact ⟨List.mem_append_left _ helected, hle.trans (hact.term_le hm v),
      hlt.trans_le (hgrown.le T).length_le⟩
  · obtain ⟨rfl, a, d, ha, hd, hle, rfl, rfl, rfl⟩ := hact.accepted hm.connected hnew
    obtain ⟨-, helected, hentry⟩ := ht.appended ha
    refine ⟨List.mem_append_left _ helected, ?_, (hentry d hd).2.trans_le (hgrown.le _).length_le⟩
    rw [hact.node_self, (hact.answered ha hd hle).1]

/-- A node keeps what it has stored in the term that it has. -/
theorem kept_of_eq (h : Complete hist tr w) (hm : Matching hist tr w) (hg : Genuine hist w)
    (hl : Lined hist tr w) (hact : w.Acts x msg t w') (hm' : Matching hist' (tr ++ t.events) w')
    (hgrown : Grown hist hist' w') {v : Fin n} {i : ℕ}
    (hstored : stored (tr ++ t.events) v (w'.node v).term i)
    (hentry : HasTerm LogEntry.term (hist' (w'.node v).term) i (w'.node v).term) :
    HasTerm LogEntry.term (w'.node v).log i (w'.node v).term := by
  have ht := hact.replicates hm
  rcases hstored with ⟨c, hstored⟩ | helected
  · rcases List.mem_append.mp hstored with hold | hnew
    · obtain ⟨-, hle, hlt⟩ := h.accepted v c _ i hold
      have hentry' := hentry.congr (take_eq_of_grown (hgrown.le _) hlt)
      have hterm := hact.term_le hm v
      rcases h.kept v _ i (.inl ⟨c, hold⟩) hentry' with hlog | ⟨T', hlt', hlt'', -⟩
      · by_cases hv : v = x
        · subst hv
          rw [hact.node_self] at hlog hentry' ⊢
          exact (hact.hasTerm_log hm hg hl hlog).resolve_right fun hlost => hlost.2 hentry'
        · rwa [hact.node_ne hv] at hlog ⊢
      · omega
    · obtain ⟨rfl, a, d, ha, hd, hle, -, hT, rfl⟩ := hact.accepted hm.connected hnew
      have hlt := ((ht.appended ha).2.2 d hd).2
      rw [hT] at hentry ⊢
      have hentry' := hentry.congr (take_eq_of_grown (hgrown.le _) hlt)
      cases (hact.answered ha hd hle).2 with
      | unsent _ _ hnone => exact absurd hnew (hnone _ _ _ _)
      | refused _ _ _ hnone => exact absurd hnew (hnone _ _ _ _)
      | taken hprev hlog _ _ =>
        rw [hact.node_self, hact.taken hm hg ha hd hprev hlog]
        exact hasTerm_take.mpr ⟨Nat.lt_succ_self _, hentry'⟩
  · obtain ⟨-, -, hlog⟩ := hm'.leads helected le_rfl
    rwa [hlog] at hentry

/-- A node keeps what it has stored, unless a later leader has lost it. -/
theorem kept_turn (h : Complete hist tr w) (hm : Matching hist tr w) (hg : Genuine hist w)
    (hl : Lined hist tr w) (hact : w.Acts x msg t w') (hm' : Matching hist' (tr ++ t.events) w')
    (hgrown : Grown hist hist' w') {v : Fin n} {T i : ℕ} (hle : T ≤ (w'.node v).term)
    (hstored : stored (tr ++ t.events) v T i) (hentry : HasTerm LogEntry.term (hist' T) i T) :
    HasTerm LogEntry.term (w'.node v).log i T ∨
      Lost LogEntry.term hist' (led (tr ++ t.events)) i T ((w'.node v).term + 1) := by
  rcases hle.lt_or_eq with hlt | rfl
  · obtain ⟨hold, hentry'⟩ := hact.stored_before hm hm' hgrown h hlt hstored hentry
    have hlog := h.kept v T i hold hentry'
    by_cases hv : v = x
    · subst hv
      rw [hact.node_self] at hlt ⊢
      rcases hlog with hlog | hlost
      · refine (hact.hasTerm_log hm hg hl hlog).imp_right fun ⟨hled, hnot⟩ => ?_
        have hlost : Lost LogEntry.term hist (led tr) i T (t.node.term + 1) :=
          ⟨_, hlt, Nat.lt_succ_self _, hled, hnot⟩
        exact hact.lost hm hm' hgrown hlost le_rfl
      · refine .inr (hact.lost hm hm' hgrown hlost (Nat.succ_le_succ ?_))
        exact (hact.replicates hm).electoral.term_le
    · rw [hact.node_ne hv]
      exact hlog.imp_right fun hlost => hact.lost hm hm' hgrown hlost le_rfl
  · exact .inl (h.kept_of_eq hm hg hl hact hm' hgrown hstored hentry)

/-- A request for votes shows the log of the candidate. -/
theorem requested_turn (h : Complete hist tr w) (hm : Matching hist tr w) (hact : w.Acts x msg t w')
    {y z : Fin n} {r : RequestVote n} (hr : .requestVote r ∈ w'.inbox z (some y))
    (hrole : (w'.node y).role = .candidate) (hterm : (w'.node y).term = r.term) :
    r.latestLogInfo = (w'.node y).latestLogInfo := by
  by_cases hy : y = x
  · subst hy
    rw [hact.node_self] at hrole hterm ⊢
    have hinfo : t.node.latestLogInfo = (w.node y).latestLogInfo := by
      simp only [RaftNode.latestLogInfo, hact.log_of_candidate hm hrole]
    rw [hinfo]
    rcases (hact.replicates hm).electoral.candidate_cases hrole with ⟨hrole', hterm', hno⟩ |
      ⟨hlt, -, hsent⟩
    · rcases hact.mem_inbox hr with hold | ⟨-, hnew⟩
      · exact h.requested z y r hold hrole' (hterm'.symm.trans hterm)
      · simpa [Message.isElection] using hno.sent z _ hnew
    · rcases hact.mem_inbox hr with hold | ⟨-, hnew⟩
      · have hle := hm.election.candidacy y _ (hm.election.requested z y r hold)
        omega
      · exact hsent z r hnew
  · rw [hact.node_ne hy] at hrole hterm ⊢
    rcases hact.mem_inbox hr with hold | ⟨hsrc, -⟩
    · exact h.requested z y r hold hrole hterm
    · exact absurd (Option.some.inj hsrc) hy

/-- A candidate is as new as what its voters have stored. -/
theorem candidate_turn (h : Complete hist tr w) (hm : Matching hist tr w) (hg : Genuine hist w)
    (hact : w.Acts x msg t w') (hm' : Matching hist' (tr ++ t.events) w')
    (hgrown : Grown hist hist' w') {v c : Fin n} {T i : ℕ} (hrole : (w'.node c).role = .candidate)
    (hvoted : voted (tr ++ t.events) v c (w'.node c).term) (hlt : T < (w'.node c).term)
    (hstored : stored (tr ++ t.events) v T i) (hentry : HasTerm LogEntry.term (hist' T) i T) :
    UpToDate LogEntry.term (w'.node c).log i T ∨
      Lost LogEntry.term hist' (led (tr ++ t.events)) i T (w'.node c).term := by
  obtain ⟨hstored, hentry⟩ := hact.stored_before hm hm' hgrown h
    (hlt.trans_le (hm'.election.term_of_voted hvoted)) hstored hentry
  have hold : (w.node c).role = .candidate → voted tr v c (w.node c).term →
      T < (w.node c).term → (w'.node c).log = (w.node c).log → (w'.node c).term = (w.node c).term →
      UpToDate LogEntry.term (w'.node c).log i T ∨
        Lost LogEntry.term hist' (led (tr ++ t.events)) i T (w'.node c).term := by
    intro hrole hvoted hlt hlog hterm
    rw [hlog, hterm]
    exact (h.candidate v c T i hrole hvoted hlt hstored hentry).imp_right
      fun hlost => hact.lost hm hm' hgrown hlost le_rfl
  -- a vote that is given in this turn is given by a node that has what it has stored
  have hnew : (w.node v).term < (w'.node c).term →
      (UpToDate LogEntry.term (w.node v).log i T → UpToDate LogEntry.term (w'.node c).log i T) →
      UpToDate LogEntry.term (w'.node c).log i T ∨
        Lost LogEntry.term hist' (led (tr ++ t.events)) i T (w'.node c).term := by
    intro hlt hle
    rcases h.kept v T i hstored hentry with hlog | hlost
    · exact .inl (hle (hlog.upToDate (hg.sorted_log hm.histories v)))
    · exact .inr (hact.lost hm hm' hgrown hlost hlt)
  by_cases hc : c = x
  · subst hc
    have hrole' : t.node.role = .candidate := hact.node_self ▸ hrole
    have hlog : (w'.node c).log = (w.node c).log := by
      rw [hact.node_self, hact.log_of_candidate hm hrole']
    rcases (hact.replicates hm).electoral.candidate_cases hrole' with ⟨hrole₀, hterm, hno⟩ |
      ⟨hlt', honly, -⟩
    · have hterm' : (w'.node c).term = (w.node c).term := by rw [hact.node_self, hterm]
      rw [hterm'] at hvoted hlt
      exact hold hrole₀ ((ElectionInv.voted_append hno.events).mp hvoted) hlt hlog hterm'
    · rw [← hact.node_self] at hlt'
      rcases hvoted with hvoted | ⟨rfl, -⟩
      · rcases List.mem_append.mp hvoted with hvoted | hvoted
        · have hle := hm.election.candidacy c _ (hm.election.granted v c _ hvoted).2.2
          omega
        · cases honly _ hvoted rfl
      · exact hnew hlt' fun hup => hlog ▸ hup
  · rw [hact.node_ne hc] at hrole hvoted hlt hold hnew ⊢
    rcases hvoted with hvoted | ⟨rfl, hvoted⟩
    · rcases List.mem_append.mp hvoted with hvoted | hvoted
      · exact hold hrole (.inl hvoted) hlt rfl rfl
      · obtain ⟨rfl, hlt', r, hr, hterm, hle⟩ := hact.granted hm.connected hvoted
        rw [h.requested v c r hr hrole hterm.symm] at hle
        exact hnew hlt' fun hup => upToDate_of_le hup hle
    · rcases List.mem_append.mp hvoted with hvoted | hvoted
      · exact hold hrole (.inr ⟨rfl, hvoted⟩) hlt rfl rfl
      · have hself := (hact.replicates hm).electoral.candidacy_mem hvoted
        exact absurd (hself.trans (hm.connected.id x)) hc

/-- A leader has what those that have made it the leader have stored. -/
theorem elected_turn (h : Complete hist tr w) (hm : Matching hist tr w) (hg : Genuine hist w)
    (hact : w.Acts x msg t w') (hm' : Matching hist' (tr ++ t.events) w')
    (hgrown : Grown hist hist' w') {T' : ℕ} (hled : led (tr ++ t.events) T') :
    Majority fun v : Fin n => T' ≤ (w'.node v).term ∧
      ∀ T i, T < T' → stored (tr ++ t.events) v T i → HasTerm LogEntry.term (hist' T) i T →
        HasTerm LogEntry.term (hist' T') i T ∨
          Lost LogEntry.term hist' (led (tr ++ t.events)) i T T' := by
  have ht := hact.replicates hm
  obtain ⟨c, hc⟩ := hled
  rcases List.mem_append.mp hc with hold | hnew
  · refine (h.elected T' ⟨c, hold⟩).mono fun v ⟨hle, hhas⟩ => ?_
    have hle' := hle.trans (hact.term_le hm v)
    refine ⟨hle', fun T i hlt hstored hentry => ?_⟩
    obtain ⟨hstored, hentry⟩ := hact.stored_before hm hm' hgrown h (hlt.trans_le hle') hstored hentry
    exact (hhas T i hlt hstored hentry).imp (·.mono (hgrown.le T'))
      fun hlost => hact.lost hm hm' hgrown hlost le_rfl
  · obtain ⟨hself, rfl, hrole, hrole', hterm⟩ := ht.electoral.elected_mem hnew
    obtain rfl := hself.trans (hm.connected.id x)
    obtain ⟨-, -, hmajority⟩ := hm'.election.elected c _ hc
    refine ⟨_, by rwa [Fintype.card_fin], fun v hv => ?_⟩
    have hvoted := (Finset.mem_filter.mp hv).2
    have hle := hm'.election.term_of_voted hvoted
    refine ⟨hle, fun T i hlt hstored hentry => ?_⟩
    obtain ⟨hstored, hentry⟩ := hact.stored_before hm hm' hgrown h (hlt.trans_le hle) hstored hentry
    have hvoted' : voted tr v c (w.node c).term := by
      rcases hvoted with hvoted | ⟨rfl, hvoted⟩
      · rcases List.mem_append.mp hvoted with hvoted | hvoted
        · exact .inl hvoted
        · cases ht.electoral.elected_only hnew hvoted rfl
      · rcases List.mem_append.mp hvoted with hvoted | hvoted
        · exact .inr ⟨rfl, hvoted⟩
        · cases ht.electoral.elected_only hnew hvoted rfl
    rcases h.candidate v c T i hrole hvoted' hlt hstored hentry with hup | hlost
    · rcases (hm.histories.log c).of_upToDate hg.sorted hup hentry with hlog | ⟨e, he, hlt', hnot⟩
      · left
        have hhist := hm'.histories.leader c (by rwa [hact.node_self])
        rw [hact.node_self, hterm] at hhist
        obtain ⟨cmds, hextend⟩ := ht.log_of_leader hrole'
        rw [hhist, hextend]
        exact hlog.mono (List.prefix_append _ _)
      · right
        obtain ⟨k, hk⟩ := List.mem_iff_getElem?.mp he
        have hunelected := hm.histories.unelected _ (hm'.election.not_elected_before hnew)
        have hne := (hm.histories.log c).term_ne hunelected hk
        have hled : led tr e.term := by
          by_contra hnone
          have hnil := hm.histories.unelected e.term fun c hc => hnone ⟨c, hc⟩
          exact (hm.histories.log c).term_ne hnil hk rfl
        have hlost : Lost LogEntry.term hist (led tr) i T (w.node c).term :=
          ⟨e.term, hlt', (hg.log_le c e he).lt_of_ne hne, hled, hnot⟩
        exact hact.lost hm hm' hgrown hlost le_rfl
    · exact .inr (hact.lost hm hm' hgrown hlost le_rfl)

/-- The turn of a node. -/
theorem turn (h : Complete hist tr w) (hm : Matching hist tr w) (hg : Genuine hist w)
    (hl : Lined hist tr w) (hact : w.Acts x msg t w') (hm' : Matching hist' (tr ++ t.events) w')
    (hgrown : Grown hist hist' w') : Complete hist' (tr ++ t.events) w' where
  accepted _ _ _ _ hmem := h.accepted_turn hm hact hgrown hmem
  kept v T i hstored hentry := by
    have hle : T ≤ (w'.node v).term := by
      rcases hstored with ⟨c, hmem⟩ | hmem
      · exact (h.accepted_turn hm hact hgrown hmem).2.1
      · exact (hm'.election.elected v T hmem).1
    exact h.kept_turn hm hg hl hact hm' hgrown hle hstored hentry
  requested _ _ _ hr hrole hterm := h.requested_turn hm hact hr hrole hterm
  candidate _ _ _ _ hrole hvoted hlt hstored hentry :=
    h.candidate_turn hm hg hact hm' hgrown hrole hvoted hlt hstored hentry
  elected _ hled := h.elected_turn hm hg hact hm' hgrown hled

/-- One steady step of the cluster. -/
theorem step (h : Complete hist tr w) (hm : Matching hist tr w) (hg : Genuine hist w)
    (hl : Lined hist tr w) {a : Action n} (hsteady : w.Steady a)
    (hstep : step w a = some (w', out)) (hm' : Matching hist' (tr ++ out) w')
    (hgrown : Grown hist hist' w') : Complete hist' (tr ++ out) w' := by
  rcases steady_cases hsteady hstep with ⟨rfl, hnode, hinbox⟩ | ⟨x, msg, t, hact, rfl, -⟩
  · obtain rfl := hgrown.eq_of_node hnode hm.histories hm'.histories
    rw [List.append_nil]
    exact ⟨hnode ▸ h.accepted, hnode ▸ h.kept, fun z y r hr => hnode ▸ h.requested z y r (hinbox z y ▸ hr),
      hnode ▸ h.candidate, hnode ▸ h.elected⟩
  · exact h.turn hm hg hl hact hm' hgrown

/-! ## Chosen entries -/

/-- **A leader has the chosen entries of the terms before.** -/
theorem leader (h : Complete hist tr w) {T i T' : ℕ} (hchosen : Chosen LogEntry.term hist (stored tr) T i)
    (hlt : T < T') (hled : led tr T') : HasTerm LogEntry.term (hist T') i T :=
  hchosen.kept (fun T' hled => (h.elected T' hled).mono fun _ hv => hv.2) hlt hled

/-- **A node has the chosen entries that it has stored.** -/
theorem stored_log (h : Complete hist tr w) {T i : ℕ}
    (hchosen : Chosen LogEntry.term hist (stored tr) T i) {v : Fin n} (hstored : stored tr v T i) :
    HasTerm LogEntry.term (w.node v).log i T := by
  rcases h.kept v T i hstored hchosen.entry with hlog | ⟨T', hlt, -, hled, hnot⟩
  · exact hlog
  · exact absurd (h.leader hchosen hlt hled) hnot

end Complete

end Consensus
