import RustPractices.Transition.Machine

/-!
# Probing for the end of a common prefix

A leader brings the log of a follower in line with its own by sending one entry at a time. The
follower answers whether it can put the entry behind what it holds; on a refusal the leader goes one
entry back, otherwise one entry forward. Entries and answers travel in order, and the leader sends
its current entry again whenever it likes, so that many walks are on their way at once.

The indices in flight, with the current one of the leader between the entries and the answers, form a
line. The line descends by at most one step as long as the follower refuses, and ascends by at most
one step from the first entry on that it takes.

## Main definitions

* `Probe`, `Probe.step`: the indices in flight, and how they move
* `probing`: the machine of all interleavings
* `Probe.Lined`: the shape of the line
* `Probe.weight`: how many deliveries are left

## Main results

* `Probe.Valid.step`: one step keeps the shape and lowers the weight
* `probing_converges`: when nothing is in flight any more, the follower has the whole log
* `probing_bounded`: the number of deliveries is bounded by the number of entries that are sent again
-/

open Transition

namespace Replication

/-- The indices of the entries in flight, the index of the leader's current entry, the indices that
the answers in flight ask for, and how much of the log the follower has taken over, if it has taken
any entry. The length of the log is the index behind the last entry, where nothing is left to
send. -/
structure Probe where
  entries : List ℕ
  current : ℕ
  answers : List ℕ
  taken : Option ℕ
  deriving DecidableEq, Repr

namespace Probe

/-- What can happen next: an entry is delivered, an answer is delivered, or the current entry is sent
again. -/
inductive Action
  | entry
  | answer
  | resend
  deriving DecidableEq, Repr

/-- The follower takes the entries up to the end of what it has taken. Before it has taken any, it
takes those that fit to what it held at the start. -/
def takes (fits : ℕ → Bool) (s : Probe) (i : ℕ) : Bool :=
  match s.taken with
  | none => fits i
  | some m => i ≤ m

/-- One step, for a log of length `len`. -/
def step (len : ℕ) (fits : ℕ → Bool) (s : Probe) : Action → Option (Probe × List Action)
  | .entry =>
    match s.entries with
    | [] => none
    | i :: entries =>
      if i < len then
        if s.takes fits i then
          some ({ s with entries, answers := s.answers ++ [i + 1], taken := some (i + 1) }, [.entry])
        else some ({ s with entries, answers := s.answers ++ [i - 1] }, [.entry])
      else some ({ s with entries }, [.entry])
  | .answer =>
    match s.answers with
    | [] => none
    | j :: answers =>
      let entries := if j < len then s.entries ++ [j] else s.entries
      some ({ s with entries, current := j, answers }, [.answer])
  | .resend => some ({ s with entries := s.entries ++ [s.current] }, [.resend])

end Probe

/-- **The exchange**: the leader begins with the last entry. -/
def probing (len : ℕ) (fits : ℕ → Bool) : Machine Probe Probe.Action Probe.Action where
  init := { entries := [len - 1], current := len - 1, answers := [], taken := none }
  step := Probe.step len fits

namespace Probe

/-! ## The line -/

/-- The indices in flight, in the order in which they come to the follower. -/
def line (s : Probe) : List ℕ := s.entries ++ s.current :: s.answers

/-- **The shape of the line.** Before the follower has taken an entry, the line descends from an index
that it does not take; then it ascends to the end of what the follower has taken. -/
inductive Lined (len : ℕ) (fits : ℕ → Bool) (s : Probe) : Prop
  | descending (q : ℕ) (taken : s.taken = none) (sorted : s.line.Pairwise (· ≥ ·))
      (near : ∀ i ∈ s.line, i = q ∨ i = q + 1) (refused : q + 1 ∈ s.line → fits (q + 1) = false)
      (lt : ∀ i ∈ s.line, i < len)
  | ascending (m : ℕ) (taken : s.taken = some (m + 1)) (sorted : s.line.Pairwise (· ≤ ·))
      (near : ∀ i ∈ s.line, i = m ∨ i = m + 1) (le : m + 1 ≤ len)

section Pairwise

variable {r : ℕ → ℕ → Prop} {l l' : List ℕ} {i j : ℕ}

/-- An element is put beside itself. -/
theorem pairwise_twice (hr : r i i) (h : (l ++ i :: l').Pairwise r) :
    (l ++ i :: i :: l').Pairwise r := by
  obtain ⟨hl, hl', hcross⟩ := List.pairwise_append.mp h
  refine List.pairwise_append.mpr ⟨hl, List.pairwise_cons.mpr ⟨?_, hl'⟩, ?_⟩
  · intro k hk
    rcases List.mem_cons.mp hk with rfl | hk
    · exact hr
    · exact (List.pairwise_cons.mp hl').1 k hk
  · intro a ha b hb
    refine hcross a ha b ?_
    rcases List.mem_cons.mp hb with rfl | hb
    · exact List.mem_cons_self
    · exact hb

/-- The first element goes, and another comes behind the last. -/
theorem pairwise_rotate (h : (i :: l).Pairwise r) (hj : ∀ k ∈ l, r k j) : (l ++ [j]).Pairwise r := by
  refine List.pairwise_append.mpr ⟨(List.pairwise_cons.mp h).2, List.pairwise_singleton _ _, ?_⟩
  intro a ha b hb
  rw [List.mem_singleton.mp hb]
  exact hj a ha

end Pairwise

section Moves

variable {len : ℕ} {fits : ℕ → Bool} {s : Probe} {i j : ℕ} {entries answers : List ℕ}

/-- The current entry is sent again: its index stands in the line twice. -/
theorem Lined.resend (h : s.Lined len fits) :
    ({ s with entries := s.entries ++ [s.current] } : Probe).Lined len fits := by
  have hline : ({ s with entries := s.entries ++ [s.current] } : Probe).line =
      s.entries ++ s.current :: s.current :: s.answers := by
    simp [line]
  have hmem : ∀ k, k ∈ ({ s with entries := s.entries ++ [s.current] } : Probe).line ↔ k ∈ s.line := by
    intro k
    simp [line]
  cases h with
  | descending q taken sorted near refused lt =>
    refine .descending q taken (hline ▸ pairwise_twice le_rfl sorted) ?_ ?_ ?_
    · exact fun k hk => near k ((hmem k).mp hk)
    · exact fun hk => refused ((hmem _).mp hk)
    · exact fun k hk => lt k ((hmem k).mp hk)
  | ascending m taken sorted near le =>
    exact .ascending m taken (hline ▸ pairwise_twice le_rfl sorted)
      (fun k hk => near k ((hmem k).mp hk)) le

/-- What is left of the line when an answer takes the place of the current index. -/
theorem sublist_line (h : s.answers = j :: answers) :
    List.Sublist (s.entries ++ j :: answers) s.line := by
  rw [line, h]
  exact (List.sublist_cons_self _ _).append_left _

/-- An answer is delivered: the index that it asks for takes the place of the current one, and stands
in the line twice when it is sent. -/
theorem Lined.answer (h : s.Lined len fits) (hanswers : s.answers = j :: answers) :
    ({ s with
      entries := if j < len then s.entries ++ [j] else s.entries
      current := j
      answers } : Probe).Lined len fits := by
  have hsub := sublist_line hanswers
  have hsorted : ∀ {r : ℕ → ℕ → Prop}, r j j → s.line.Pairwise r →
      ((if j < len then s.entries ++ [j] else s.entries) ++ j :: answers).Pairwise r := by
    intro r hr hs
    split_ifs
    · rw [List.append_assoc]
      exact pairwise_twice hr (hs.sublist hsub)
    · exact hs.sublist hsub
  have hmem : ∀ k ∈ (if j < len then s.entries ++ [j] else s.entries) ++ j :: answers,
      k ∈ s.line := by
    intro k hk
    refine hsub.subset ?_
    split_ifs at hk
    · simpa using hk
    · exact hk
  cases h with
  | descending q taken sorted near refused lt =>
    exact .descending q taken (hsorted le_rfl sorted) (fun k hk => near k (hmem k hk))
      (fun hk => refused (hmem _ hk)) fun k hk => lt k (hmem k hk)
  | ascending m taken sorted near le =>
    exact .ascending m taken (hsorted le_rfl sorted) (fun k hk => near k (hmem k hk)) le

/-- A refused entry is delivered: the follower asks for the entry before it. -/
theorem Lined.refuse (h : s.Lined len fits) (hzero : fits 0 = true) (hentries : s.entries = i :: entries)
    (hrefused : s.takes fits i = false) :
    ({ s with entries, answers := s.answers ++ [i - 1] } : Probe).Lined len fits ∧
      s.taken = none ∧ 0 < i := by
  have hline : s.line = i :: (entries ++ s.current :: s.answers) := by simp [line, hentries]
  have hline' : ({ s with entries, answers := s.answers ++ [i - 1] } : Probe).line =
      (entries ++ s.current :: s.answers) ++ [i - 1] := by simp [line]
  cases h with
  | descending q taken sorted near refused lt =>
    simp only [takes, taken] at hrefused
    have hpos : 0 < i := by
      by_contra hnot
      obtain rfl : i = 0 := by omega
      rw [hzero] at hrefused
      exact Bool.noConfusion hrefused
    rw [hline] at sorted near lt
    have hbelow := (List.pairwise_cons.mp sorted).1
    have hi := near i List.mem_cons_self
    have hrest : ∀ k ∈ entries ++ s.current :: s.answers, (k = q ∨ k = q + 1) ∧ k ≤ i := fun k hk =>
      ⟨near k (List.mem_cons_of_mem _ hk), hbelow k hk⟩
    refine ⟨.descending (i - 1) taken ?_ ?_ ?_ ?_, taken, hpos⟩ <;> rw [hline']
    · refine pairwise_rotate sorted fun k hk => ?_
      obtain ⟨hk, hle⟩ := hrest k hk
      show i - 1 ≤ k
      omega
    · intro k hk
      rcases List.mem_append.mp hk with hk | hk
      · obtain ⟨hk, hle⟩ := hrest k hk
        omega
      · exact .inl (List.mem_singleton.mp hk)
    · intro _
      rwa [Nat.sub_add_cancel hpos]
    · intro k hk
      have := lt i List.mem_cons_self
      rcases List.mem_append.mp hk with hk | hk
      · exact lt k (List.mem_cons_of_mem _ hk)
      · obtain rfl := List.mem_singleton.mp hk
        omega
  | ascending m taken sorted near le =>
    simp only [takes, taken, decide_eq_false_iff_not] at hrefused
    have hi := near i (hline ▸ List.mem_cons_self)
    omega

/-- An entry that the follower takes is delivered: the follower asks for the entry behind it. -/
theorem Lined.take (h : s.Lined len fits) (hentries : s.entries = i :: entries) (hlt : i < len)
    (htakes : s.takes fits i = true) :
    ({ s with entries, answers := s.answers ++ [i + 1], taken := some (i + 1) } : Probe).Lined
      len fits := by
  have hline : s.line = i :: (entries ++ s.current :: s.answers) := by simp [line, hentries]
  have hline' : ({ s with
      entries, answers := s.answers ++ [i + 1], taken := some (i + 1) } : Probe).line =
      (entries ++ s.current :: s.answers) ++ [i + 1] := by simp [line]
  have hshape : (i :: (entries ++ s.current :: s.answers)).Pairwise (· ≤ ·) ∧
      ∀ k ∈ entries ++ s.current :: s.answers, k = i ∨ k = i + 1 := by
    cases h with
    | descending q taken sorted near refused lt =>
      simp only [takes, taken] at htakes
      rw [hline] at sorted near refused
      -- the upper of the two indices has been refused, so that none is left of it
      have hiq : i = q := by
        rcases near i List.mem_cons_self with hi | rfl
        · exact hi
        · rw [refused List.mem_cons_self] at htakes
          exact Bool.noConfusion htakes
      have hall : ∀ k ∈ i :: (entries ++ s.current :: s.answers), k = i := by
        intro k hk
        rcases List.mem_cons.mp hk with rfl | hk
        · rfl
        · have hle := (List.pairwise_cons.mp sorted).1 k hk
          have := near k (List.mem_cons_of_mem _ hk)
          omega
      refine ⟨sorted.imp_of_mem fun ha hb _ => ?_, fun k hk => .inl (hall k (List.mem_cons_of_mem _ hk))⟩
      rw [hall _ ha, hall _ hb]
    | ascending m taken sorted near le =>
      rw [hline] at sorted near
      refine ⟨sorted, fun k hk => ?_⟩
      have hle := (List.pairwise_cons.mp sorted).1 k hk
      have hk' := near k (List.mem_cons_of_mem _ hk)
      have hi := near i List.mem_cons_self
      omega
  obtain ⟨hsorted, hrest⟩ := hshape
  refine .ascending i rfl ?_ ?_ hlt <;> rw [hline']
  · refine pairwise_rotate hsorted fun k hk => ?_
    have := hrest k hk
    omega
  · intro k hk
    rcases List.mem_append.mp hk with hk | hk
    · exact hrest k hk
    · exact .inr (List.mem_singleton.mp hk)

/-- Behind the log, nothing is delivered. -/
theorem Lined.drop (h : s.Lined len fits) (hentries : s.entries = i :: entries) (hle : len ≤ i) :
    ({ s with entries } : Probe).Lined len fits ∧ ∃ m, s.taken = some m ∧ s.current = len := by
  have hline : s.line = i :: ({ s with entries } : Probe).line := by simp [line, hentries]
  have hcurrent : s.current ∈ ({ s with entries } : Probe).line := by simp [line]
  cases h with
  | descending q taken sorted near refused lt =>
    have := lt i (hline ▸ List.mem_cons_self)
    omega
  | ascending m taken sorted near le =>
    rw [hline] at sorted near
    have hi := near i List.mem_cons_self
    have hup := (List.pairwise_cons.mp sorted).1 _ hcurrent
    have hnear := near _ (List.mem_cons_of_mem _ hcurrent)
    refine ⟨.ascending m taken (List.pairwise_cons.mp sorted).2
      (fun k hk => near k (List.mem_cons_of_mem _ hk)) le, m + 1, taken, by omega⟩

end Moves

/-! ## The weight -/

/-- How many indices an index has before it, on the way back and forth. -/
def distance (len : ℕ) (s : Probe) (i : ℕ) : ℕ :=
  match s.taken with
  | none => len + 1 + i
  | some _ => len - i

/-- How many deliveries are left: an entry and its answer for each index. -/
def weight (len : ℕ) (s : Probe) : ℕ :=
  (s.entries.map fun i => 2 * s.distance len i + 1).sum +
    (s.answers.map fun j => 2 * s.distance len j + 2).sum

/-- The number of deliveries. -/
def delivered (tr : List Action) : ℕ := tr.countP (· ≠ .resend)

/-- How often the current entry has been sent again. -/
def resent (tr : List Action) : ℕ := tr.count .resend

/-- The invariant of the exchange. -/
structure Valid (len : ℕ) (fits : ℕ → Bool) (tr : List Action) (s : Probe) : Prop where
  lined : s.Lined len fits
  /-- When nothing is in flight, nothing is left to send. -/
  alive : s.entries = [] → s.answers = [] → s.current = len
  bounded : delivered tr + s.weight len ≤ (4 * len + 1) * (resent tr + 1)

section Weight

variable {len : ℕ} {fits : ℕ → Bool} {s t : Probe} {tr out : List Action} {a : Action}

/-- Once the follower has taken an entry, the way back is no longer needed. -/
theorem distance_taken_le (len : ℕ) (s : Probe) (i : ℕ) : len - i ≤ s.distance len i := by
  unfold distance
  cases s.taken <;> dsimp only <;> omega

/-- **One delivery lowers the weight.** -/
theorem weight_step (h : s.Lined len fits) (hzero : fits 0 = true)
    (hstep : s.step len fits a = some (t, out)) (ha : a ≠ .resend) :
    t.weight len + 1 ≤ s.weight len := by
  cases a with
  | resend => exact absurd rfl ha
  | entry =>
    cases hentries : s.entries with
    | nil => simp [step, hentries] at hstep
    | cons i entries =>
      simp only [step, hentries] at hstep
      split_ifs at hstep with hlt htakes <;> obtain ⟨rfl, -⟩ := by simpa using hstep
      · have hle : ∀ (l : List ℕ) (c : ℕ), (l.map fun k => 2 * (len - k) + c).sum ≤
            (l.map fun k => 2 * s.distance len k + c).sum := by
          intro l c
          refine List.sum_le_sum fun k _ => ?_
          have := s.distance_taken_le len k
          omega
        have hi := s.distance_taken_le len i
        have hentriesLe := hle entries 1
        have hanswersLe := hle s.answers 2
        simp only [weight, distance, hentries, List.map_append, List.sum_append, List.map_cons,
          List.map_nil, List.sum_cons, List.sum_nil] at hi hentriesLe hanswersLe ⊢
        omega
      · obtain ⟨-, htaken, hpos⟩ := h.refuse hzero hentries (by simpa using htakes)
        simp only [weight, distance, htaken, hentries, List.map_append, List.sum_append,
          List.map_cons, List.map_nil, List.sum_cons, List.sum_nil]
        omega
      · simp only [weight, distance, hentries, List.map_cons, List.sum_cons]
        omega
  | answer =>
    cases hanswers : s.answers with
    | nil => simp [step, hanswers] at hstep
    | cons j answers =>
      simp only [step, hanswers, Option.some.injEq, Prod.mk.injEq] at hstep
      obtain ⟨rfl, -⟩ := hstep
      by_cases hlt : j < len
      · simp only [weight, distance, hanswers, if_pos hlt, List.map_append, List.sum_append,
          List.map_cons, List.map_nil, List.sum_cons, List.sum_nil]
        omega
      · simp only [weight, distance, hanswers, if_neg hlt, List.map_cons, List.sum_cons]
        omega

/-- Sending the current entry again raises the weight by less than the length of a walk. -/
theorem weight_resend (h : s.Lined len fits) :
    weight len { s with entries := s.entries ++ [s.current] } ≤ s.weight len + (4 * len + 1) := by
  have hle : s.distance len s.current ≤ 2 * len := by
    have hcurrent : s.current ∈ s.line := by simp [line]
    unfold distance
    cases h with
    | descending q taken sorted near refused lt =>
      have := lt _ hcurrent
      rw [taken]
      dsimp only
      omega
    | ascending m taken sorted near le =>
      rw [taken]
      dsimp only
      omega
  simp only [weight, distance, List.map_append, List.sum_append, List.map_cons, List.map_nil,
    List.sum_cons, List.sum_nil] at hle ⊢
  omega

end Weight

namespace Valid

variable {len : ℕ} {fits : ℕ → Bool} {s t : Probe} {tr out : List Action} {a : Action}

/-- A delivery keeps the bound. -/
theorem bounded_delivery (h : Valid len fits tr s) (hzero : fits 0 = true)
    (hstep : s.step len fits a = some (t, out)) (ha : a ≠ .resend) (hout : out = [a]) :
    delivered (tr ++ out) + t.weight len ≤ (4 * len + 1) * (resent (tr ++ out) + 1) := by
  have hweight := weight_step h.lined hzero hstep ha
  have hbounded := h.bounded
  have hdelivered : delivered (tr ++ out) = delivered tr + 1 := by
    simp [delivered, hout, ha]
  have hresent : resent (tr ++ out) = resent tr := by
    simp [resent, hout, List.count_append, ha]
  rw [hdelivered, hresent]
  omega

/-- **One step keeps the shape of the line and the bound.** -/
theorem step (h : Valid len fits tr s) (hzero : fits 0 = true)
    (hstep : s.step len fits a = some (t, out)) : Valid len fits (tr ++ out) t := by
  cases a with
  | resend =>
    obtain ⟨rfl, rfl⟩ := by simpa [Probe.step] using hstep
    refine ⟨h.lined.resend, by simp, ?_⟩
    have hweight := weight_resend h.lined
    have hbounded := h.bounded
    have hdelivered : delivered (tr ++ [.resend]) = delivered tr := by simp [delivered]
    have hresent : resent (tr ++ [.resend]) = resent tr + 1 := by simp [resent]
    rw [hdelivered, hresent, Nat.mul_add_one]
    omega
  | entry =>
    have hbounded := h.bounded_delivery hzero hstep (by simp)
    cases hentries : s.entries with
    | nil => simp [Probe.step, hentries] at hstep
    | cons i entries =>
      simp only [Probe.step, hentries] at hstep
      split_ifs at hstep with hlt htakes <;> obtain ⟨rfl, rfl⟩ := by simpa using hstep
      · exact ⟨h.lined.take hentries hlt htakes, by simp, hbounded rfl⟩
      · exact ⟨(h.lined.refuse hzero hentries (by simpa using htakes)).1, by simp, hbounded rfl⟩
      · obtain ⟨hlined, m, -, hcurrent⟩ := h.lined.drop hentries (not_lt.mp hlt)
        exact ⟨hlined, fun _ _ => hcurrent, hbounded rfl⟩
  | answer =>
    have hbounded := h.bounded_delivery hzero hstep (by simp)
    cases hanswers : s.answers with
    | nil => simp [Probe.step, hanswers] at hstep
    | cons j answers =>
      simp only [Probe.step, hanswers, Option.some.injEq, Prod.mk.injEq] at hstep
      obtain ⟨rfl, rfl⟩ := hstep
      refine ⟨h.lined.answer hanswers, ?_, hbounded rfl⟩
      intro hentries _
      have hline : j ∈ s.line := by simp [line, hanswers]
      by_cases hlt : j < len
      · simp [hlt] at hentries
      · cases h.lined with
        | descending q taken sorted near refused lt => exact absurd (lt j hline) hlt
        | ascending m taken sorted near le =>
          have := near j hline
          dsimp only
          omega

theorem init (hlen : 0 < len) (fits : ℕ → Bool) : Valid len fits [] (probing len fits).init where
  lined := by
    refine .descending (len - 1) rfl ?_ ?_ ?_ ?_
    · simp [probing, line]
    · simp [probing, line]
    · intro hmem
      simp [probing, line] at hmem
    · intro i hi
      simp only [probing, line, List.cons_append, List.nil_append, List.mem_cons, List.not_mem_nil,
        or_false, or_self] at hi
      omega
  alive := nofun
  bounded := by
    simp only [delivered, resent, probing, weight, distance, List.countP_nil, List.count_nil,
      List.map_cons, List.map_nil, List.sum_cons, List.sum_nil]
    omega

end Valid

end Probe

/-! ## Along every run -/

section Runs

variable {len : ℕ} {fits : ℕ → Bool} {tr : List Probe.Action} {s : Probe}

theorem probing_valid (hlen : 0 < len) (hzero : fits 0 = true)
    (h : (probing len fits).Run Machine.unguarded tr s) : Probe.Valid len fits tr s :=
  h.invariant (Probe.Valid.init hlen fits) fun _ _ _ _ _ ih _ hstep => ih.step hzero hstep

/-- **When nothing is in flight any more, the follower has the whole log.** -/
theorem probing_converges (hlen : 0 < len) (hzero : fits 0 = true)
    (h : (probing len fits).Run Machine.unguarded tr s) (hentries : s.entries = [])
    (hanswers : s.answers = []) : s.taken = some len ∧ s.current = len := by
  have hvalid := probing_valid hlen hzero h
  have hcurrent := hvalid.alive hentries hanswers
  have hmem : s.current ∈ s.line := by simp [Probe.line]
  cases hvalid.lined with
  | descending q taken sorted near refused lt =>
    have := lt _ hmem
    omega
  | ascending m taken sorted near le =>
    have := near _ hmem
    obtain rfl : len = m + 1 := by omega
    exact ⟨taken, hcurrent⟩

/-- **The number of deliveries is bounded.** -/
theorem probing_bounded (hlen : 0 < len) (hzero : fits 0 = true)
    (h : (probing len fits).Run Machine.unguarded tr s) :
    Probe.delivered tr ≤ (4 * len + 1) * (Probe.resent tr + 1) :=
  le_of_add_le_left (probing_valid hlen hzero h).bounded

end Runs

end Replication
