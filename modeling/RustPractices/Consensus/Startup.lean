import RustPractices.Consensus.Election

/-!
# The start of the cluster

The offices start without any connection, and each of them gets to know the others one after the
other. A candidate counts the nodes that it knows when a vote arrives. As long as this count gives
the quorum of the whole cluster, every leader has been elected by more than half of the offices.

## Main definitions

* `World.starting`: the start of the offices
* `World.Quorate`: the steps in which a candidate is elected with the quorum of the whole cluster

## Main results

* `elected_by_majority`: more than half of the offices have voted for every leader, in runs with
  such steps
* `elected_by_two`: a run in which two of four offices are enough
-/

open Transition

namespace Consensus

variable {n : ℕ}

/-- The start of the offices: each of them is told of the others in some order. -/
def World.starting (order : Fin n → List (Fin n)) : World n where
  node := RaftNode.new
  alive _ := true
  partition _ := 0
  inbox x src := if src = none then (order x).map fun y => .accept ⟨y⟩ else []
  submitted := 0

/-- Each office is told of each other one once. -/
def AllOthers (order : Fin n → List (Fin n)) : Prop :=
  ∀ x, (order x).Nodup ∧ ∀ y, y ∈ order x ↔ y ≠ x

instance (order : Fin n → List (Fin n)) : Decidable (AllOthers order) :=
  inferInstanceAs (Decidable (∀ _, _ ∧ ∀ _, _))

/-- The message elects the node. -/
def Message.Elects (s : RaftNode n) : Message n → Prop
  | .vote v => s.role = .candidate ∧ s.term = v.term ∧ (s.nodes.length + 1) / 2 < s.votes + 1
  | _ => False

instance (s : RaftNode n) : (msg : Message n) → Decidable (msg.Elects s)
  | .vote _ => inferInstanceAs (Decidable (_ ∧ _))
  | .accept _ | .appendEntry _ | .appendEntryResponse _ | .command _ | .requestVote _ => .isFalse id

/-- A node that is elected in the step knows so many others that half of them, with itself, are half
of all offices. -/
def World.Quorate (w : World n) : Action n → Prop
  | .deliver x src _ => ∀ msg ∈ (w.inbox x src).head?, msg.Elects (w.node x) →
      n / 2 ≤ ((w.node x).nodes.length + 1) / 2
  | _ => True

instance (w : World n) : (a : Action n) → Decidable (w.Quorate a)
  | .deliver x src _ => inferInstanceAs (Decidable (∀ msg ∈ (w.inbox x src).head?, _))
  | .submit .. | .timeout .. | .setPartition .. => .isTrue trivial

section Starting

variable {order : Fin n → List (Fin n)}

theorem Addressed.starting (h : AllOthers order) : Addressed (World.starting order) where
  id _ := rfl
  known _ _ hy := by simp [World.starting, RaftNode.new] at hy
  client x m hm := by
    obtain ⟨y, hy, rfl⟩ := List.mem_map.mp hm
    exact .inr ⟨y, ((h x).2 y).mp hy, rfl⟩
  sender _ _ _ hm := by simp [World.starting] at hm

theorem ElectionInv.starting (order : Fin n → List (Fin n)) :
    ElectionInv [] (World.starting order) where
  granted _ _ _ h := by simp at h
  candidacy _ _ h := by simp at h
  once _ _ _ _ h := by simp [voted] at h
  requested _ _ _ h := by simp [World.starting] at h
  vote _ _ _ h := by simp [World.starting] at h
  vote_once _ _ _ := by simp [World.starting]
  votes _ h := by simp [World.starting, RaftNode.new] at h
  elected _ _ h := by simp at h
  elected_once _ := by simp

/-- The invariant holds along every run with quorate steps from the start of the offices. -/
theorem ElectionInv.of_starting (horder : AllOthers order) {tr : List (Event n)} {w : World n}
    (h : (cluster (World.starting order)).Run World.Quorate tr w) :
    Addressed w ∧ ElectionInv tr w := by
  refine Machine.Run.invariant (P := fun tr w => Addressed w ∧ ElectionInv tr w) ?_ ?_ h
  · exact ⟨.starting horder, .starting order⟩
  · rintro tr w a w' out ⟨haddressed, hinv⟩ hquorate hstep
    refine ⟨haddressed.step hstep, hinv.step_of_quorum haddressed ?_ hstep⟩
    rintro x src moves v rfl hv hrole hterm hmajority
    have hquorum := hquorate (.vote v) hv ⟨hrole, hterm, hmajority⟩
    omega

end Starting

/-- **More than half of the offices have voted for every leader**, in every run with quorate steps
from the start of the offices. -/
theorem elected_by_majority {order : Fin n → List (Fin n)} (horder : AllOthers order)
    {tr : List (Event n)} {w : World n}
    (h : (cluster (World.starting order)).Run World.Quorate tr w) {c : Fin n} {T : ℕ}
    (helected : .elected c T ∈ tr) : n < 2 * (Finset.univ.filter fun v => voted tr v c T).card :=
  ((ElectionInv.of_starting horder h).2.elected c T helected).2.2

/-- All offices in their order. -/
def inOrder (n : ℕ) (x : Fin n) : List (Fin n) := (List.finRange n).filter fun y => y ≠ x

/-- Node 0 knows three of the four others, and two of them have voted for it. -/
theorem elected_by_majority_five :
    ∃ tr w, (cluster (World.starting (inOrder 5))).Run World.Quorate tr w ∧
      .elected 0 1 ∈ tr ∧ 5 < 2 * (Finset.univ.filter fun v => voted tr v 0 1).card := by
  have hexec : (((cluster (World.starting (inOrder 5))).guard World.Quorate).exec
      [.deliver 0 none [], .deliver 0 none [], .deliver 0 none [], .deliver 1 none [],
        .deliver 2 none [], .timeout 0 [], .deliver 1 (some 0) [], .deliver 2 (some 0) [],
        .deliver 0 (some 1) [], .deliver 0 (some 2) []]).map Prod.snd =
      some [.candidacy 0 1, .granted 1 0 1, .granted 2 0 1, .elected 0 1] := by
    decide +kernel
  obtain ⟨⟨w, tr⟩, hexec, rfl⟩ := Option.map_eq_some_iff.mp hexec
  have hrun := Machine.Run.of_guard (Machine.run_exec hexec)
  have helected : Event.elected 0 1 ∈ ([.candidacy 0 1, .granted 1 0 1, .granted 2 0 1,
    .elected 0 1] : List (Event 5)) := by decide
  exact ⟨_, w, hrun, helected, elected_by_majority (by decide) hrun helected⟩

/-- **Two of four offices can elect a leader** when they know only each other. -/
theorem elected_by_two :
    ¬ ∀ tr w, (cluster (World.starting (inOrder 4))).Run Machine.unguarded tr w →
      ∀ c T, .elected c T ∈ tr → 4 < 2 * (Finset.univ.filter fun v => voted tr v c T).card := by
  intro h
  have hexec : ((cluster (World.starting (inOrder 4))).exec
      [.deliver 0 none [], .deliver 1 none [], .timeout 0 [], .deliver 1 (some 0) [],
        .deliver 0 (some 1) []]).map Prod.snd =
      some [.candidacy 0 1, .granted 1 0 1, .elected 0 1] := by
    decide +kernel
  obtain ⟨⟨w, tr⟩, hexec, rfl⟩ := Option.map_eq_some_iff.mp hexec
  have hlt := h _ w (Machine.run_exec hexec) 0 1 (by decide)
  exact absurd hlt (by decide)

end Consensus
