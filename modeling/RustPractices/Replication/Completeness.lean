import RustPractices.Replication.Histories

/-!
# Entries that a majority has stored

A writer is elected by a majority whose logs are not newer than its own. When the entries of logs are
ordered by their terms, and no replica loses an entry unless the writer of a later term has lost it
already, no writer loses an entry that a majority has stored in the term of the entry: the two
majorities have a replica in common.

## Main definitions

* `HasTerm`: a log has an entry of a term at an index
* `Lost`: the writer of a later term does not have the entry
* `Chosen`: the entry has been stored by a majority in its term

## Main results

* `Follows.cut`: a replica that copies from a writer loses only what the writer does not have
* `Follows.of_upToDate`: a log that is as new as one with the entry has it too, or the entry is lost
* `Chosen.kept`: no writer loses a chosen entry
-/

namespace Replication

universe u v

variable {E : Type u} {V : Type v} {term : E → ℕ} {hist hist' : ℕ → List E} {elected elected' : ℕ → Prop}
  {log log' : List E} {i j T : ℕ}

/-! ## Entries of a term -/

/-- The log has an entry of the term `T` at the index `i`. -/
def HasTerm (term : E → ℕ) (log : List E) (i T : ℕ) : Prop := ∃ e, log[i]? = some e ∧ term e = T

theorem HasTerm.lt (h : HasTerm term log i T) : i < log.length := by
  obtain ⟨e, he, -⟩ := h
  exact (List.getElem?_eq_some_iff.mp he).1

/-- A longer log has the same entries. -/
theorem HasTerm.mono (h : HasTerm term log i T) (hle : log <+: log') : HasTerm term log' i T := by
  have hlt := h.lt
  obtain ⟨e, he, hT⟩ := h
  obtain ⟨rest, rfl⟩ := hle
  exact ⟨e, by rwa [List.getElem?_append_left hlt], hT⟩

/-- Logs that are equal up to an index have the same entry there. -/
theorem HasTerm.congr (h : HasTerm term log i T) (heq : log.take (i + 1) = log'.take (i + 1)) :
    HasTerm term log' i T := by
  obtain ⟨e, he, hT⟩ := h
  refine ⟨e, ?_, hT⟩
  rw [← List.getElem?_take_of_lt (Nat.lt_succ_self i), ← heq,
    List.getElem?_take_of_lt (Nat.lt_succ_self i), he]

theorem hasTerm_take : HasTerm term (log.take j) i T ↔ i < j ∧ HasTerm term log i T := by
  constructor
  · intro h
    have hlt : i < j := h.lt.trans_le (List.length_take_le _ _)
    refine ⟨hlt, h.congr ?_⟩
    rw [List.take_take, min_eq_left hlt]
  · rintro ⟨hlt, h⟩
    refine h.congr ?_
    rw [List.take_take, min_eq_left hlt]

/-- A log that has the entry is, up to the entry, the beginning of the history of its term. -/
theorem Follows.take_of_hasTerm (h : Follows term hist log) (hentry : HasTerm term log i T) :
    log.take (i + 1) = (hist T).take (i + 1) := by
  obtain ⟨e, he, rfl⟩ := hentry
  exact h i e he

/-! ## Lost entries -/

/-- The writer of a term after `T`, and before `bound`, does not have the entry. -/
def Lost (term : E → ℕ) (hist : ℕ → List E) (elected : ℕ → Prop) (i T bound : ℕ) : Prop :=
  ∃ T', T < T' ∧ T' < bound ∧ elected T' ∧ ¬ HasTerm term (hist T') i T

/-- The histories grow by entries of their own terms, and more writers are elected. -/
theorem Lost.mono {bound bound' : ℕ} (h : Lost term hist elected i T bound) (hbound : bound ≤ bound')
    (helected : ∀ T', elected T' → elected' T')
    (hnew : ∀ T', elected T' → ∀ (k : ℕ) e, (hist' T')[k]? = some e →
      (hist T')[k]? = some e ∨ term e = T') :
    Lost term hist' elected' i T bound' := by
  obtain ⟨T', hlt, hlt', hT', hnot⟩ := h
  refine ⟨T', hlt, hlt'.trans_le hbound, helected T' hT', ?_⟩
  rintro ⟨e, he, rfl⟩
  rcases hnew T' hT' i e he with hold | hnew
  · exact hnot ⟨e, hold, rfl⟩
  · exact hlt.ne hnew

/-- **A replica that copies from a writer loses only what the writer does not have**, as long as it does
not cut off what they have in common. -/
theorem Follows.cut {T' : ℕ} (h : Follows term hist log) (hwriter : Follows term hist (hist T'))
    (hentry : HasTerm term log i T)
    (hcommon : ∀ k < log.length, log.take (k + 1) = (hist T').take (k + 1) → k ≤ j) :
    HasTerm term ((hist T').take (j + 1)) i T ∨ ¬ HasTerm term (hist T') i T := by
  by_cases hwritten : HasTerm term (hist T') i T
  · have hle := hcommon i hentry.lt
      ((h.take_of_hasTerm hentry).trans (hwriter.take_of_hasTerm hwritten).symm)
    exact .inl (hasTerm_take.mpr ⟨Nat.lt_succ_of_le hle, hwritten⟩)
  · exact .inr hwritten

/-! ## The last entry -/

/-- The log is as new as one whose last entry has the term `T` and the index `i`. -/
def UpToDate (term : E → ℕ) (log : List E) (i T : ℕ) : Prop :=
  ∃ e, log.getLast? = some e ∧ (T < term e ∨ T = term e ∧ i < log.length)

/-- A log with the entry is that new. -/
theorem HasTerm.upToDate (h : HasTerm term log i T)
    (hsorted : log.Pairwise fun e e' => term e ≤ term e') : UpToDate term log i T := by
  have hlt := h.lt
  obtain ⟨e, he, rfl⟩ := h
  have hlast : log.getLast? = some log[log.length - 1] := by
    rw [List.getLast?_eq_getElem?, List.getElem?_eq_getElem]
  refine ⟨_, hlast, ?_⟩
  obtain ⟨_, rfl⟩ := List.getElem?_eq_some_iff.mp he
  have hle : term log[i] ≤ term log[log.length - 1] := by
    rcases (show i ≤ log.length - 1 by omega).lt_or_eq with hlt' | heq
    · exact List.pairwise_iff_getElem.mp hsorted i (log.length - 1) hlt (by omega) hlt'
    · simp only [heq, le_refl]
  rcases hle.lt_or_eq with hlt' | heq
  · exact .inl hlt'
  · exact .inr ⟨heq, hlt⟩

/-- **A log that is as new as one with the entry has it too**, or a later history has lost it. -/
theorem Follows.of_upToDate (h : Follows term hist log)
    (hsorted : ∀ T, (hist T).Pairwise fun e e' => term e ≤ term e') (hnew : UpToDate term log i T)
    (hentry : HasTerm term (hist T) i T) :
    HasTerm term log i T ∨ ∃ e ∈ log, T < term e ∧ ¬ HasTerm term (hist (term e)) i T := by
  obtain ⟨e, hlast, hcmp⟩ := hnew
  have hlast' : log[log.length - 1]? = some e := by rw [← List.getLast?_eq_getElem?, hlast]
  have hpos : log.length - 1 + 1 = log.length := by
    obtain ⟨hlt, -⟩ := List.getElem?_eq_some_iff.mp hlast'
    omega
  have hlog := h _ e hlast'
  rw [hpos, List.take_length] at hlog
  rcases hcmp with hlt | ⟨rfl, hlt⟩
  · by_cases hlater : HasTerm term (hist (term e)) i T
    · left
      rw [hlog, hasTerm_take]
      refine ⟨?_, hlater⟩
      have hget := h.getElem? hlast'
      obtain ⟨e', he', rfl⟩ := hlater
      by_contra hge
      obtain ⟨hi, rfl⟩ := List.getElem?_eq_some_iff.mp he'
      obtain ⟨hk, hke⟩ := List.getElem?_eq_some_iff.mp hget
      have hle := List.pairwise_iff_getElem.mp (hsorted (term e)) (log.length - 1) i hk hi
        (by omega)
      rw [hke] at hle
      exact hlt.not_ge hle
    · exact .inr ⟨e, List.mem_of_getElem? hlast', hlt, hlater⟩
  · left
    rw [hlog, hasTerm_take]
    exact ⟨hlt, hentry⟩

/-! ## Chosen entries -/

variable [Fintype V]

/-- More than half of the replicas. -/
def Majority (P : V → Prop) : Prop :=
  ∃ s : Finset V, Fintype.card V < 2 * s.card ∧ ∀ v ∈ s, P v

/-- Two majorities have a replica in common. -/
theorem Majority.exists_and [DecidableEq V] {P Q : V → Prop} (hP : Majority P) (hQ : Majority Q) :
    ∃ v, P v ∧ Q v := by
  obtain ⟨s, hs, hPs⟩ := hP
  obtain ⟨s', hs', hQs⟩ := hQ
  have hmeet : (s ∩ s').Nonempty := by
    refine Finset.inter_nonempty_of_card_lt_card_add_card (Finset.subset_univ s)
      (Finset.subset_univ s') ?_
    rw [Finset.card_univ]
    omega
  obtain ⟨v, hv⟩ := hmeet
  obtain ⟨hvs, hvs'⟩ := Finset.mem_inter.mp hv
  exact ⟨v, hPs v hvs, hQs v hvs'⟩

theorem Majority.mono {P Q : V → Prop} (h : Majority P) (hle : ∀ v, P v → Q v) : Majority Q := by
  obtain ⟨s, hs, hPs⟩ := h
  exact ⟨s, hs, fun v hv => hle v (hPs v hv)⟩

/-- **The entry of the term `T` at the index `i` is chosen**: a majority has stored it in this term. -/
structure Chosen (term : E → ℕ) (hist : ℕ → List E) (stored : V → ℕ → ℕ → Prop) (T i : ℕ) : Prop where
  entry : HasTerm term (hist T) i T
  stored : Majority fun v => stored v T i

/-- What has been chosen stays chosen. -/
theorem Chosen.mono {stored stored' : V → ℕ → ℕ → Prop} (h : Chosen term hist stored T i)
    (hle : hist T <+: hist' T) (hstored : ∀ v, stored v T i → stored' v T i) :
    Chosen term hist' stored' T i :=
  ⟨h.entry.mono hle, h.stored.mono hstored⟩

/-- **No writer loses a chosen entry.** A replica that has voted for a writer has found its log as new
as its own: the writer has what the replica had stored before, unless an earlier writer has lost it. -/
theorem Chosen.kept [DecidableEq V] {stored : V → ℕ → ℕ → Prop} (h : Chosen term hist stored T i)
    (hvoted : ∀ T', elected T' → Majority fun v : V => ∀ T i, T < T' → stored v T i →
      HasTerm term (hist T) i T →
        HasTerm term (hist T') i T ∨ Lost term hist elected i T T') {T' : ℕ} (hlt : T < T')
    (helected : elected T') : HasTerm term (hist T') i T := by
  induction T' using Nat.strong_induction_on with
  | _ T' ih =>
    obtain ⟨v, hstored, hvote⟩ := h.stored.exists_and (hvoted T' helected)
    rcases hvote T i hlt hstored h.entry with hentry | ⟨T'', hlt', hlt'', helected', hnot⟩
    · exact hentry
    · exact absurd (ih T'' hlt'' hlt' helected') hnot

end Replication
