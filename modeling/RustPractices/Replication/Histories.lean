import Mathlib

/-!
# Logs that are written by one writer for each term

Replicas keep logs, and each entry of a log carries the term in which it was written. In each term
one writer extends the log it holds, and the others copy from it. The history of a term is the log
of its writer at its longest. A log follows the histories when up to each of its entries it is the
beginning of the history of the term of the entry: it has then been put together from pieces of
histories, and two such logs agree up to every index at which their terms agree.

## Main definitions

* `Follows`: a log follows the histories
* `termBefore`: the term of the entry before an index

## Main results

* `take_eq_of_termBefore`: logs that agree where their terms agree
* `Follows.agree`: two logs agree up to an index at which their terms agree
* `Follows.take_eq`: comparing the term before an index is enough to compare all entries before it
* `Follows.append`: the writer of a term extends its log
* `Follows.pairwise`: what holds between the entries of the histories holds between those of the log
-/

namespace Replication

universe u

variable {E : Type u} {term : E → ℕ}

/-- Up to each of its entries, the log is the beginning of the history of the entry's term. -/
def Follows (term : E → ℕ) (hist : ℕ → List E) (log : List E) : Prop :=
  ∀ i e, log[i]? = some e → log.take (i + 1) = (hist (term e)).take (i + 1)

/-- The term of the entry before an index, or 0 if there is none. -/
def termBefore (term : E → ℕ) (log : List E) : ℕ → ℕ
  | 0 => 0
  | i + 1 => (log[i]?.map term).getD 0

/-- A longer log has the same entry before an index. -/
theorem termBefore_append (log es : List E) {i : ℕ} (hi : i ≤ log.length) :
    termBefore term (log ++ es) i = termBefore term log i := by
  cases i with
  | zero => rfl
  | succ i => simp only [termBefore, List.getElem?_append_left (show i < log.length from hi)]

/-- Logs that are equal before an index have the same entry before it. -/
theorem termBefore_congr {log log' : List E} {i : ℕ} (h : log.take i = log'.take i) :
    termBefore term log i = termBefore term log' i := by
  cases i with
  | zero => rfl
  | succ i =>
    have hi : log[i]? = log'[i]? := by
      rw [← List.getElem?_take_of_lt (Nat.lt_succ_self i), h,
        List.getElem?_take_of_lt (Nat.lt_succ_self i)]
    simp only [termBefore, hi]

/-- A log that has the same term before an index as another one is equal to it before the index, if
where their terms agree the logs agree so far. -/
theorem take_eq_of_termBefore {log log' : List E} {i : ℕ}
    (hagree : ∀ j e e', log[j]? = some e → log'[j]? = some e' → term e = term e' →
      log.take (j + 1) = log'.take (j + 1))
    (hterm : ∀ e ∈ log', term e ≠ 0) (hi : i ≤ log'.length)
    (hprev : termBefore term log' i = termBefore term log i) : log.take i = log'.take i := by
  cases i with
  | zero => rfl
  | succ i =>
    have he := List.getElem?_eq_getElem (show i < log'.length from hi)
    generalize log'[i] = e at he
    -- the log has an entry there, since no entry has the term 0
    have hne := hterm e (List.mem_of_getElem? he)
    cases he' : log[i]? with
    | none => simp [termBefore, he, he', hne] at hprev
    | some e' =>
      have heq : term e = term e' := by simpa [termBefore, he, he'] using hprev
      exact hagree i e' e he' he heq.symm

/-- The history of one term may grow. -/
theorem prefix_update {hist : ℕ → List E} {T : ℕ} {log : List E} (h : hist T <+: log) (T' : ℕ) :
    hist T' <+: Function.update hist T log T' := by
  by_cases hT : T' = T
  · subst hT
    rwa [Function.update_self]
  · rw [Function.update_of_ne hT]

namespace Follows

variable {hist hist' : ℕ → List E} {log log' es : List E} {i : ℕ} {e e' : E}

theorem nil : Follows term hist [] := by
  intro i e he
  simp at he

/-- The entries of a log are entries of the histories. -/
theorem getElem? (h : Follows term hist log) (he : log[i]? = some e) :
    (hist (term e))[i]? = some e := by
  rw [← List.getElem?_take_of_lt (Nat.lt_succ_self i), ← h i e he,
    List.getElem?_take_of_lt (Nat.lt_succ_self i), he]

/-- Two logs agree up to an index at which their terms agree. -/
theorem agree (h : Follows term hist log) (h' : Follows term hist log') (he : log[i]? = some e)
    (he' : log'[i]? = some e') (hterm : term e = term e') :
    log.take (i + 1) = log'.take (i + 1) := by
  rw [h i e he, hterm, h' i e' he']

/-- The beginning of a log. -/
theorem take (h : Follows term hist log) (k : ℕ) : Follows term hist (log.take k) := by
  intro i e he
  obtain ⟨hi, he⟩ : i < k ∧ log[i]? = some e := by
    rw [List.getElem?_take] at he
    split_ifs at he with hi
    exact ⟨hi, he⟩
  rw [List.take_take, min_eq_left (Nat.succ_le_of_lt hi)]
  exact h i e he

/-- The histories may grow. -/
theorem mono (h : Follows term hist log) (hle : ∀ T, hist T <+: hist' T) :
    Follows term hist' log := by
  intro i e he
  obtain ⟨hlt, -⟩ := List.getElem?_eq_some_iff.mp (h.getElem? he)
  obtain ⟨rest, hrest⟩ := hle (term e)
  rw [h i e he, ← hrest, List.take_append_of_le_length hlt]

/-- The writer of a term extends its log. -/
theorem append {T : ℕ} (h : Follows term hist log) (hT : hist T = log ++ es)
    (hes : ∀ e ∈ es, term e = T) : Follows term hist (log ++ es) := by
  intro i e he
  rcases lt_or_ge i log.length with hi | hi
  · rw [List.getElem?_append_left hi] at he
    rw [List.take_append_of_le_length hi]
    exact h i e he
  · rw [List.getElem?_append_right hi] at he
    rw [hes e (List.mem_of_getElem? he), hT]

/-- A relation that holds between the entries of each history, in their order, holds between those
of the log. -/
theorem pairwise {R : E → E → Prop} (h : Follows term hist log)
    (hhist : ∀ T, (hist T).Pairwise R) : log.Pairwise R := by
  rw [List.pairwise_iff_getElem]
  intro i j hi hj hij
  have he := List.getElem?_eq_getElem hj
  have htake := h j _ he
  have hsame : ∀ k ≤ j, log[k]? = (hist (term log[j]))[k]? := by
    intro k hk
    rw [← List.getElem?_take_of_lt (Nat.lt_succ_of_le hk), htake,
      List.getElem?_take_of_lt (Nat.lt_succ_of_le hk)]
  have hlt := hsame i hij.le
  have hlt' := hsame j le_rfl
  rw [List.getElem?_eq_getElem hi] at hlt
  rw [he] at hlt'
  obtain ⟨hi', hi''⟩ := List.getElem?_eq_some_iff.mp hlt.symm
  obtain ⟨hj', hj''⟩ := List.getElem?_eq_some_iff.mp hlt'.symm
  have hR := (List.pairwise_iff_getElem.mp (hhist (term log[j]))) i j hi' hj' hij
  rwa [hi'', hj''] at hR

/-- No entry has a term without a history. -/
theorem term_ne {T : ℕ} (h : Follows term hist log) (hT : hist T = []) (he : log[i]? = some e) :
    term e ≠ T := by
  rintro rfl
  have := h.getElem? he
  simp [hT] at this

/-- A log that has the same term before an index as a history is equal to it before the index. -/
theorem take_eq {T : ℕ} (h : Follows term hist log) (hhist : Follows term hist (hist T))
    (hzero : hist 0 = []) (hi : i ≤ (hist T).length)
    (hprev : termBefore term (hist T) i = termBefore term log i) :
    log.take i = (hist T).take i := by
  refine take_eq_of_termBefore (fun j e e' he he' heq => h.agree hhist he he' heq) ?_ hi hprev
  intro e hmem
  obtain ⟨j, he⟩ := List.mem_iff_getElem?.mp hmem
  exact hhist.term_ne hzero he

end Follows

end Replication
