import RustPractices.Replication.Histories
import RustPractices.Replication.Probing

/-!
# Streaming a log that grows

The writer of a term brings the log of a replica in line with its own while its own log grows. As in
probing, the indices on their way, with the one that the writer is at between the entries and the
answers, form a line. Until the replica has seen something of the term they are all the same; then the
line descends, until the replica takes an entry, and ascends from there on. The line never leads the
replica back behind entries that it has in common with the writer.

## Main definitions

* `Waiting`, `Descending`, `Ascending`: the shapes of a line
* `Drawn`: a line that has lost some indices, or has some of them twice
* `Streamed`: the shape of a line, by the term of the replica

## Main results

* `Descending.refuse`, `Descending.take`, `Ascending.take`: the replica answers an entry
* `Ascending.accepts`: an ascending line holds nothing that the replica refuses
* `Streamed.common`: the line does not lead the replica back behind what it has taken
-/

namespace Replication

universe u

variable {E : Type u} {term : E → ℕ} {T : ℕ} {hist hist' log : List E} {line line' : List ℕ}
  {i j k : ℕ}

/-! ## Lines -/

/-- Another line that holds nothing else, in the same order. -/
def Drawn (line line' : List ℕ) : Prop :=
  line' ⊆ line ∧ ∀ r : ℕ → ℕ → Prop, (∀ i, r i i) → line.Pairwise r → line'.Pairwise r

theorem Drawn.trans {line'' : List ℕ} (h : Drawn line line') (h' : Drawn line' line'') :
    Drawn line line'' :=
  ⟨fun _ hi => h.1 (h'.1 hi), fun r hr hline => h'.2 r hr (h.2 r hr hline)⟩

theorem Drawn.of_sublist (h : line'.Sublist line) : Drawn line line' :=
  ⟨h.subset, fun _ _ hline => hline.sublist h⟩

/-- An index is put beside itself, any number of times. -/
theorem Drawn.replicate (l l' : List ℕ) (i k : ℕ) :
    Drawn (l ++ i :: l') (l ++ List.replicate k i ++ i :: l') := by
  induction k generalizing l with
  | zero =>
    rw [List.replicate_zero, List.append_nil]
    exact .of_sublist (List.Sublist.refl _)
  | succ k ih =>
    have htwice : Drawn (l ++ i :: l') (l ++ i :: i :: l') :=
      ⟨fun j hj => by simpa using hj, fun r hr hline => Probe.pairwise_twice (hr i) hline⟩
    refine htwice.trans ?_
    have hrest := ih (l ++ [i])
    simpa only [List.replicate_succ, List.append_assoc, List.cons_append, List.nil_append]
      using hrest

/-! ## The shapes of a line -/

/-- **The replica has not seen anything of the term**: all indices are the same one, which is not
before an entry of an earlier term. -/
structure Waiting (term : E → ℕ) (T : ℕ) (hist : List E) (line : List ℕ) : Prop where
  le : ∀ i ∈ line, i ≤ hist.length
  same : ∀ i ∈ line, ∀ j ∈ line, i = j
  old : ∀ i ∈ line, ∀ k e, hist[k]? = some e → term e ≠ T → k ≤ i

/-- **The replica has refused entries of the term**: the line descends, and does not go behind what the
replica has in common with the writer. -/
structure Descending (term : E → ℕ) (T : ℕ) (hist log : List E) (line : List ℕ) : Prop where
  le : ∀ i ∈ line, i ≤ hist.length
  fresh : ∀ e ∈ log, term e ≠ T
  sorted : line.Pairwise (· ≥ ·)
  near : ∀ i ∈ line, ∀ j ∈ line, i ≤ j + 1
  refused : ∀ i ∈ line, ∀ j ∈ line, i < j → termBefore term log j ≠ termBefore term hist j
  common : ∀ i ∈ line, ∀ k < log.length, log.take (k + 1) = hist.take (k + 1) → k ≤ i

/-- **The replica has taken entries of the term**: its log is the beginning of that of the writer, and
the line ascends at its end. -/
structure Ascending (hist log : List E) (line : List ℕ) : Prop where
  le : log <+: hist
  sorted : line.Pairwise (· ≤ ·)
  near : ∀ i ∈ line, i ≤ log.length ∧ log.length ≤ i + 1

/-! ## The writer -/

theorem Waiting.drawn (h : Waiting term T hist line) (hline : Drawn line line') :
    Waiting term T hist line' where
  le i hi := h.le i (hline.1 hi)
  same i hi j hj := h.same i (hline.1 hi) j (hline.1 hj)
  old i hi := h.old i (hline.1 hi)

theorem Descending.drawn (h : Descending term T hist log line) (hline : Drawn line line') :
    Descending term T hist log line' where
  le i hi := h.le i (hline.1 hi)
  fresh := h.fresh
  sorted := hline.2 _ (fun _ => le_rfl) h.sorted
  near i hi j hj := h.near i (hline.1 hi) j (hline.1 hj)
  refused i hi j hj := h.refused i (hline.1 hi) j (hline.1 hj)
  common i hi := h.common i (hline.1 hi)

theorem Ascending.drawn (h : Ascending hist log line) (hline : Drawn line line') :
    Ascending hist log line' where
  le := h.le
  sorted := hline.2 _ (fun _ => le_rfl) h.sorted
  near i hi := h.near i (hline.1 hi)

/-- The writer extends its log by entries of its term. -/
theorem Waiting.grow (h : Waiting term T hist line) (hle : hist <+: hist')
    (hnew : ∀ (k : ℕ) e, hist'[k]? = some e → hist[k]? = some e ∨ term e = T) :
    Waiting term T hist' line where
  le i hi := (h.le i hi).trans hle.length_le
  same := h.same
  old i hi k e he hT := h.old i hi k e ((hnew k e he).resolve_right hT) hT

/-- A longer log has the same beginning. -/
theorem take_eq_of_grown (hle : hist <+: hist') (hk : k ≤ hist.length) :
    hist'.take k = hist.take k := by
  obtain ⟨rest, rfl⟩ := hle
  exact List.take_append_of_le_length hk

theorem Descending.grow (h : Descending term T hist log line) (hle : hist <+: hist')
    (hnew : ∀ (k : ℕ) e, hist'[k]? = some e → hist[k]? = some e ∨ term e = T) :
    Descending term T hist' log line where
  le i hi := (h.le i hi).trans hle.length_le
  fresh := h.fresh
  sorted := h.sorted
  near := h.near
  refused i hi j hj hij := by
    rw [termBefore_congr (take_eq_of_grown hle (h.le j hj))]
    exact h.refused i hi j hj hij
  common i hi k hk heq := by
    -- what the replica has is not of this term, so it is not new
    have he := List.getElem?_eq_getElem hk
    have he' : hist'[k]? = some log[k] := by
      rw [← List.getElem?_take_of_lt (Nat.lt_succ_self k), ← heq,
        List.getElem?_take_of_lt (Nat.lt_succ_self k), he]
    have hold := (hnew k _ he').resolve_right (h.fresh _ (List.mem_of_getElem? he))
    obtain ⟨hlt, -⟩ := List.getElem?_eq_some_iff.mp hold
    exact h.common i hi k hk (heq.trans (take_eq_of_grown hle hlt))

theorem Ascending.grow (h : Ascending hist log line) (hle : hist <+: hist') :
    Ascending hist' log line where
  le := h.le.trans hle
  sorted := h.sorted
  near := h.near

/-! ## The replica -/

/-- The replica hears of the term for the first time. -/
theorem Waiting.descending (h : Waiting term T hist line) (hfresh : ∀ e ∈ log, term e ≠ T) :
    Descending term T hist log line where
  le := h.le
  fresh := hfresh
  sorted := List.pairwise_of_forall_mem_list fun i hi j hj => (h.same i hi j hj).ge
  near i hi j hj := (h.same i hi j hj).le.trans (Nat.le_succ j)
  refused i hi j hj hij := absurd (h.same i hi j hj) hij.ne
  common i hi k hk heq := by
    have he := List.getElem?_eq_getElem hk
    refine h.old i hi k log[k] ?_ (hfresh _ (List.mem_of_getElem? he))
    rw [← List.getElem?_take_of_lt (Nat.lt_succ_self k), ← heq,
      List.getElem?_take_of_lt (Nat.lt_succ_self k), he]

/-- **The replica refuses an entry**, and asks for the one before it. -/
theorem Descending.refuse (h : Descending term T hist log (j :: line))
    (hrefused : termBefore term log j ≠ termBefore term hist j) (k : ℕ) :
    Descending term T hist log (line ++ List.replicate k (j - 1)) := by
  have hpos : j ≠ 0 := by
    rintro rfl
    exact hrefused rfl
  obtain ⟨hhead, hsorted⟩ := List.pairwise_cons.mp h.sorted
  have hnear : ∀ i ∈ line, j ≤ i + 1 := fun i hi =>
    h.near j List.mem_cons_self i (List.mem_cons_of_mem j hi)
  have hcases : ∀ i ∈ line ++ List.replicate k (j - 1), i ∈ line ∨ i = j - 1 := by
    intro i hi
    rcases List.mem_append.mp hi with hi | hi
    · exact .inl hi
    · exact .inr (List.eq_of_mem_replicate hi)
  constructor
  · intro i hi
    rcases hcases i hi with hi | rfl
    · exact h.le i (List.mem_cons_of_mem j hi)
    · exact (Nat.sub_le j 1).trans (h.le j List.mem_cons_self)
  · exact h.fresh
  · refine List.pairwise_append.mpr ⟨hsorted, ?_, ?_⟩
    · exact List.pairwise_replicate.mpr (.inr le_rfl)
    · intro i hi i' hi'
      rw [List.eq_of_mem_replicate hi']
      have := hnear i hi
      omega
  · intro i hi i' hi'
    rcases hcases i hi with hi | rfl <;> rcases hcases i' hi' with hi' | rfl
    · exact h.near i (List.mem_cons_of_mem j hi) i' (List.mem_cons_of_mem j hi')
    · have := hhead i hi
      omega
    · have := hnear i' hi'
      omega
    · omega
  · intro i hi i' hi' hlt
    rcases hcases i' hi' with hi' | rfl
    · rcases hcases i hi with hi | rfl
      · exact h.refused i (List.mem_cons_of_mem j hi) i' (List.mem_cons_of_mem j hi') hlt
      · obtain rfl : i' = j := le_antisymm (hhead i' hi') (by omega)
        exact hrefused
    · rcases hcases i hi with hi | rfl
      · have := hnear i hi
        omega
      · omega
  · intro i hi m hm heq
    have hle := h.common j List.mem_cons_self m hm heq
    have hlt : m + 1 < j := by
      by_contra hnot
      refine hrefused (termBefore_congr ?_)
      have := congrArg (List.take j) heq
      rwa [List.take_take, List.take_take, min_eq_left (by omega)] at this
    rcases hcases i hi with hi | rfl
    · have := hnear i hi
      omega
    · omega

/-- **The replica takes an entry** for the first time. -/
theorem Descending.take (h : Descending term T hist log (j :: line))
    (htaken : termBefore term log j = termBefore term hist j) (hlt : j < hist.length) (k : ℕ) :
    Ascending hist (hist.take (j + 1)) (line ++ List.replicate k (j + 1)) := by
  obtain ⟨hhead, -⟩ := List.pairwise_cons.mp h.sorted
  have hsame : ∀ i ∈ line, i = j := by
    intro i hi
    refine le_antisymm (hhead i hi) (not_lt.mp fun hij => ?_)
    exact h.refused i (List.mem_cons_of_mem j hi) j List.mem_cons_self hij htaken
  have hlength : (hist.take (j + 1)).length = j + 1 := List.length_take_of_le hlt
  refine ⟨List.take_prefix _ _, List.pairwise_append.mpr ⟨?_, ?_, ?_⟩, ?_⟩
  · refine List.pairwise_of_forall_mem_list fun i hi i' hi' => ?_
    rw [hsame i hi, hsame i' hi']
  · exact List.pairwise_replicate.mpr (.inr le_rfl)
  · intro i hi i' hi'
    rw [hsame i hi, List.eq_of_mem_replicate hi']
    exact Nat.le_succ j
  · intro i hi
    rw [hlength]
    rcases List.mem_append.mp hi with hi | hi
    · rw [hsame i hi]
      omega
    · rw [List.eq_of_mem_replicate hi]
      omega

/-- Nothing on an ascending line is refused. -/
theorem Ascending.accepts (h : Ascending hist log line) (hj : j ∈ line) :
    termBefore term log j = termBefore term hist j :=
  (termBefore_congr (take_eq_of_grown h.le (h.near j hj).1)).symm

/-- **The replica takes the next entry**, or the last one once more. -/
theorem Ascending.take (h : Ascending hist log (j :: line)) (hlt : j < hist.length) (k : ℕ) :
    Ascending hist (hist.take (j + 1)) (line ++ List.replicate k (j + 1)) := by
  obtain ⟨hhead, hsorted⟩ := List.pairwise_cons.mp h.sorted
  obtain ⟨-, hend⟩ := h.near j List.mem_cons_self
  have hlength : (hist.take (j + 1)).length = j + 1 := List.length_take_of_le hlt
  have hnear : ∀ i ∈ line, j ≤ i ∧ i ≤ j + 1 := fun i hi =>
    ⟨hhead i hi, (h.near i (List.mem_cons_of_mem j hi)).1.trans hend⟩
  refine ⟨List.take_prefix _ _, List.pairwise_append.mpr ⟨hsorted, ?_, ?_⟩, ?_⟩
  · exact List.pairwise_replicate.mpr (.inr le_rfl)
  · intro i hi i' hi'
    rw [List.eq_of_mem_replicate hi']
    exact (hnear i hi).2
  · intro i hi
    rw [hlength]
    rcases List.mem_append.mp hi with hi | hi
    · have := hnear i hi
      omega
    · rw [List.eq_of_mem_replicate hi]
      omega

/-! ## The line of a term -/

/-- **The line of the term `T`** to a replica whose own term is `now`. A replica of a later term does
not look at it any more. -/
structure Streamed (term : E → ℕ) (T now : ℕ) (hist log : List E) (line : List ℕ) : Prop where
  waiting : now < T → Waiting term T hist line
  replica : now = T → Descending term T hist log line ∨ Ascending hist log line

namespace Streamed

variable {now : ℕ}

/-- A replica of a later term. -/
theorem of_lt (h : T < now) : Streamed term T now hist log line :=
  ⟨fun hnow => absurd hnow h.not_gt, fun hnow => absurd hnow h.ne'⟩

theorem drawn (h : Streamed term T now hist log line) (hline : Drawn line line') :
    Streamed term T now hist log line' where
  waiting hnow := (h.waiting hnow).drawn hline
  replica hnow := (h.replica hnow).imp (·.drawn hline) (·.drawn hline)

/-- The writer extends its log by entries of its term. -/
theorem grow (h : Streamed term T now hist log line) (hle : hist <+: hist')
    (hnew : ∀ (k : ℕ) e, hist'[k]? = some e → hist[k]? = some e ∨ term e = T) :
    Streamed term T now hist' log line where
  waiting hnow := (h.waiting hnow).grow hle hnew
  replica hnow := (h.replica hnow).imp (·.grow hle hnew) (·.grow hle)

/-- The replica comes to the term of the line. -/
theorem hear (h : Streamed term T now hist log line) (hle : now ≤ T)
    (hfresh : now < T → ∀ e ∈ log, term e ≠ T) :
    Descending term T hist log line ∨ Ascending hist log line := by
  rcases hle.lt_or_eq with hlt | heq
  · exact .inl ((h.waiting hlt).descending (hfresh hlt))
  · exact h.replica heq

/-- The term of the replica is raised. -/
theorem raise (h : Streamed term T now hist log line) {now' : ℕ} (hle : now ≤ now')
    (hfresh : now < T → ∀ e ∈ log, term e ≠ T) : Streamed term T now' hist log line where
  waiting hnow := h.waiting (hle.trans_lt hnow)
  replica hnow := h.hear (hle.trans_eq hnow) hfresh

/-- The replica refuses an entry. -/
theorem refuse (h : Streamed term T now hist log (j :: line)) (hle : now ≤ T)
    (hfresh : now < T → ∀ e ∈ log, term e ≠ T)
    (hrefused : termBefore term log j ≠ termBefore term hist j) (k : ℕ) :
    Streamed term T T hist log (line ++ List.replicate k (j - 1)) where
  waiting hnow := absurd hnow (lt_irrefl T)
  replica _ := by
    rcases h.hear hle hfresh with hline | hline
    · exact .inl (hline.refuse hrefused k)
    · exact absurd (hline.accepts List.mem_cons_self) hrefused

/-- The replica takes an entry. -/
theorem take (h : Streamed term T now hist log (j :: line)) (hle : now ≤ T)
    (hfresh : now < T → ∀ e ∈ log, term e ≠ T)
    (htaken : termBefore term log j = termBefore term hist j) (hlt : j < hist.length) (k : ℕ) :
    Streamed term T T hist (hist.take (j + 1)) (line ++ List.replicate k (j + 1)) where
  waiting hnow := absurd hnow (lt_irrefl T)
  replica _ := by
    rcases h.hear hle hfresh with hline | hline
    · exact .inr (hline.take htaken hlt k)
    · exact .inr (hline.take hlt k)

/-- **No index is before what the replica has in common with the writer**, apart from its last entry. -/
theorem common (h : Streamed term T now hist log (j :: line)) (hle : now ≤ T)
    (hfresh : now < T → ∀ e ∈ log, term e ≠ T) {k : ℕ} (hk : k < log.length)
    (heq : log.take (k + 1) = hist.take (k + 1)) : k ≤ j := by
  rcases h.hear hle hfresh with hline | hline
  · exact hline.common j List.mem_cons_self k hk heq
  · have := (hline.near j List.mem_cons_self).2
    omega

end Streamed

end Replication
