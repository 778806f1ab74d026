import Mathlib

/-!
# Searching for a pattern in chunks

A list can be searched for a pattern as a whole, by comparing its windows with the pattern one after
the other, or in chunks of which each is searched on its own. The two agree where the first
occurrence of the pattern in the whole list lies within a chunk, and only there.

## Main definitions

* `windows`: the windows of a list
* `OccursAt`, `FirstFrom`: the positions of a pattern
* `firstIn`: the search in chunks
* `Within`: a part of the whole list lies within a chunk

## Main results

* `findIdx?_windows_eq_some`, `findIdx?_windows_eq_none`: the search in the windows
* `firstIn_eq_iff`: the search in chunks finds the first occurrence exactly when it lies within one
-/

namespace Search

universe u

variable {α : Type u}

/-- The windows of `n` elements of a list, from left to right. -/
def windows (n : ℕ) : List α → List (List α)
  | [] => []
  | a :: l =>
    let window := (a :: l).take n
    if window.length = n then window :: windows n l else []

/-- The pattern stands at the position `i`. -/
def OccursAt (pat l : List α) (i : ℕ) : Prop := pat <+: l.drop i

/-- The first occurrence of the pattern from `offset` on is `i` behind `offset`. -/
structure FirstFrom (pat l : List α) (offset i : ℕ) : Prop where
  occurs : OccursAt pat l (offset + i)
  before : ∀ j < i, ¬ OccursAt pat l (offset + j)

variable {pat l l' : List α} {i j n offset : ℕ}

/-! ## Windows -/

theorem getElem?_windows (hn : 0 < n) (l : List α) (i : ℕ) :
    (windows n l)[i]? = if i + n ≤ l.length then some ((l.drop i).take n) else none := by
  induction l generalizing i with
  | nil =>
    rw [if_neg (by simp only [List.length_nil]; omega)]
    rfl
  | cons a l ih =>
    rw [windows]
    split_ifs with hlength hle hle
    · cases i with
      | zero => rfl
      | succ i =>
        rw [List.length_cons] at hle
        rw [List.getElem?_cons_succ, ih, if_pos (by omega), List.drop_succ_cons]
    · cases i with
      | zero =>
        rw [List.length_take] at hlength
        omega
      | succ i =>
        rw [List.length_cons] at hle
        rw [List.getElem?_cons_succ, ih, if_neg (by omega)]
    · rw [List.length_take] at hlength
      omega
    · rfl

theorem OccursAt.le (h : OccursAt pat l i) (hpat : pat ≠ []) : i + pat.length ≤ l.length := by
  have hlength := h.length_le
  have hpos := List.length_pos_of_ne_nil hpat
  rw [List.length_drop] at hlength
  omega

/-- The pattern stands where it is the window. -/
theorem occursAt_iff (hpat : pat ≠ []) :
    OccursAt pat l i ↔ (windows pat.length l)[i]? = some pat := by
  have hpos := List.length_pos_of_ne_nil hpat
  rw [getElem?_windows hpos]
  constructor
  · intro h
    rw [if_pos (h.le hpat), ← List.prefix_iff_eq_take.mp h]
  · intro h
    split_ifs at h
    exact List.prefix_iff_eq_take.mpr (Option.some.inj h).symm

section Find

variable [DecidableEq α]

/-- The first window behind `offset` windows that is the pattern. -/
theorem findIdx?_windows_eq_some (hpat : pat ≠ []) :
    ((windows pat.length l).drop offset).findIdx? (fun window => window == pat) = some i ↔
      FirstFrom pat l offset i := by
  rw [List.findIdx?_eq_some_iff_getElem]
  constructor
  · rintro ⟨hlt, heq, hbefore⟩
    refine ⟨(occursAt_iff hpat).mpr ?_, fun j hj hoccurs => ?_⟩
    · rw [← List.getElem?_drop, List.getElem?_eq_getElem hlt, eq_of_beq heq]
    · have hwindow := (occursAt_iff hpat).mp hoccurs
      rw [← List.getElem?_drop, List.getElem?_eq_getElem (hj.trans hlt)] at hwindow
      exact hbefore j hj (beq_iff_eq.mpr (Option.some.inj hwindow))
  · rintro ⟨hoccurs, hbefore⟩
    have hwindow := (occursAt_iff hpat).mp hoccurs
    rw [← List.getElem?_drop] at hwindow
    obtain ⟨hlt, heq⟩ := List.getElem?_eq_some_iff.mp hwindow
    refine ⟨hlt, beq_iff_eq.mpr heq, fun j hj hbeq => hbefore j hj ((occursAt_iff hpat).mpr ?_)⟩
    rw [← List.getElem?_drop, List.getElem?_eq_getElem (hj.trans hlt), eq_of_beq hbeq]

/-- No window behind `offset` windows is the pattern. -/
theorem findIdx?_windows_eq_none (hpat : pat ≠ []) :
    ((windows pat.length l).drop offset).findIdx? (fun window => window == pat) = none ↔
      ∀ j, ¬ OccursAt pat l (offset + j) := by
  rw [List.findIdx?_eq_none_iff]
  constructor
  · intro h j hoccurs
    have hwindow := (occursAt_iff hpat).mp hoccurs
    rw [← List.getElem?_drop] at hwindow
    have hbeq := h pat (List.mem_of_getElem? hwindow)
    simp at hbeq
  · intro h window hmem
    obtain ⟨j, hj⟩ := List.mem_iff_getElem?.mp hmem
    rw [List.getElem?_drop] at hj
    refine beq_eq_false_iff_ne.mpr ?_
    rintro rfl
    exact h j ((occursAt_iff hpat).mpr hj)

end Find

/-! ## Occurrences in parts -/

/-- What stands in the front of a list stands in the list. -/
theorem OccursAt.append (h : OccursAt pat l i) (hpat : pat ≠ []) (l' : List α) :
    OccursAt pat (l ++ l') i := by
  have hle := h.le hpat
  rw [OccursAt, List.drop_append_of_le_length (by omega)]
  exact h.trans (List.prefix_append _ _)

/-- What ends in the front of a list stands in the front. -/
theorem OccursAt.of_append (h : OccursAt pat (l ++ l') i) (hle : i + pat.length ≤ l.length) :
    OccursAt pat l i := by
  rw [OccursAt, List.drop_append_of_le_length (by omega)] at h
  refine List.prefix_of_prefix_length_le h (List.prefix_append _ _) ?_
  rw [List.length_drop]
  omega

theorem occursAt_append_length : OccursAt pat (l ++ l') (l.length + i) ↔ OccursAt pat l' i := by
  rw [OccursAt, OccursAt, List.drop_append, List.drop_eq_nil_of_le (by omega), List.nil_append,
    Nat.add_sub_cancel_left]

/-- A first occurrence behind the front of a list is one of the rest. -/
theorem FirstFrom.of_append (h : FirstFrom pat (l ++ l') 0 (l.length + i)) :
    FirstFrom pat l' 0 i where
  occurs := by
    have hoccurs := h.occurs
    rw [Nat.zero_add, occursAt_append_length] at hoccurs
    rwa [Nat.zero_add]
  before := by
    intro j hj hoccurs
    rw [Nat.zero_add] at hoccurs
    refine h.before (l.length + j) (by omega) ?_
    rwa [Nat.zero_add, occursAt_append_length]

/-! ## Chunks -/

/-- **The search in chunks**: what lies before the end of the first occurrence in a chunk. -/
def firstIn [DecidableEq α] (pat : List α) : List (List α) → Option (List α)
  | [] => none
  | chunk :: chunks =>
    match (windows pat.length chunk).findIdx? (fun window => window == pat) with
    | some i => some (chunk.take (i + pat.length))
    | none => (firstIn pat chunks).map (chunk ++ ·)

/-- The `n` elements from `i` on lie within a chunk. -/
def Within (chunks : List (List α)) (i n : ℕ) : Prop :=
  ∃ pre chunk post, chunks = pre ++ chunk :: post ∧ pre.flatten.length ≤ i ∧
    i + n ≤ pre.flatten.length + chunk.length

variable {chunk : List α} {chunks : List (List α)}

/-- The elements lie within the first chunk, or within one behind it. -/
theorem within_cons : Within (chunk :: chunks) i n ↔
    i + n ≤ chunk.length ∨ chunk.length ≤ i ∧ Within chunks (i - chunk.length) n := by
  constructor
  · rintro ⟨pre, chunk', post, heq, hle, hend⟩
    cases pre with
    | nil =>
      obtain ⟨rfl, -⟩ := List.cons.inj heq
      simp only [List.flatten_nil, List.length_nil, Nat.zero_add] at hend
      exact .inl hend
    | cons first pre =>
      obtain ⟨rfl, rfl⟩ := List.cons.inj heq
      simp only [List.flatten_cons, List.length_append] at hle hend
      exact .inr ⟨by omega, pre, chunk', post, rfl, by omega, by omega⟩
  · rintro (hend | ⟨hle, pre, chunk', post, rfl, hle', hend⟩)
    · exact ⟨[], chunk, chunks, rfl, Nat.zero_le _, by simpa using hend⟩
    · refine ⟨chunk :: pre, chunk', post, rfl, ?_, ?_⟩ <;>
        simp only [List.flatten_cons, List.length_append] <;> omega

section FirstIn

variable [DecidableEq α]

theorem find_windows_eq_some (hpat : pat ≠ []) :
    (windows pat.length l).findIdx? (fun window => window == pat) = some i ↔
      FirstFrom pat l 0 i := by
  have hfind : ((windows pat.length l).drop 0).findIdx? (fun window => window == pat) = some i ↔
      FirstFrom pat l 0 i := findIdx?_windows_eq_some hpat
  rwa [List.drop_zero] at hfind

theorem find_windows_eq_none (hpat : pat ≠ []) :
    (windows pat.length l).findIdx? (fun window => window == pat) = none ↔
      ∀ j, ¬ OccursAt pat l j := by
  have hfind : ((windows pat.length l).drop 0).findIdx? (fun window => window == pat) = none ↔
      ∀ j, ¬ OccursAt pat l (0 + j) := findIdx?_windows_eq_none hpat
  simpa only [List.drop_zero, Nat.zero_add] using hfind

/-- What the search in chunks finds ends with the pattern. -/
theorem le_length_of_firstIn (hpat : pat ≠ []) {found : List α}
    (h : firstIn pat chunks = some found) : pat.length ≤ found.length := by
  induction chunks generalizing found with
  | nil => simp [firstIn] at h
  | cons chunk chunks ih =>
    rw [firstIn] at h
    split at h
    · next i hfind =>
      have hle := ((find_windows_eq_some hpat).mp hfind).occurs.le hpat
      obtain rfl := Option.some.inj h
      rw [List.length_take]
      omega
    · obtain ⟨found', hfound, rfl⟩ := Option.map_eq_some_iff.mp h
      have := ih hfound
      rw [List.length_append]
      omega

/-- **The search in chunks finds the first occurrence** in the whole list exactly when it lies within
a chunk. -/
theorem firstIn_eq_iff (hpat : pat ≠ []) (h : FirstFrom pat chunks.flatten 0 i) :
    firstIn pat chunks = some (chunks.flatten.take (i + pat.length)) ↔
      Within chunks i pat.length := by
  have hpos := List.length_pos_of_ne_nil hpat
  induction chunks generalizing i with
  | nil =>
    have hle := h.occurs.le hpat
    simp only [List.flatten_nil, List.length_nil] at hle
    omega
  | cons chunk chunks ih =>
    have hend := h.occurs.le hpat
    rw [List.flatten_cons] at h hend ⊢
    rw [Nat.zero_add] at hend
    rw [firstIn, within_cons]
    split
    · next k hfind =>
      have hfirst := (find_windows_eq_some hpat).mp hfind
      have hk := hfirst.occurs.le hpat
      have hik : i ≤ k := by
        by_contra hlt
        exact h.before k (not_le.mp hlt) (hfirst.occurs.append hpat _)
      constructor
      · intro heq
        have hlength := congrArg List.length (Option.some.inj heq)
        rw [List.length_take, List.length_take] at hlength
        exact .inl (by omega)
      · rintro (hlt | ⟨hle, -⟩)
        · have hki : k ≤ i := by
            by_contra hlt'
            have hoccurs := h.occurs
            rw [Nat.zero_add] at hoccurs
            refine hfirst.before i (not_le.mp hlt') ?_
            rw [Nat.zero_add]
            exact hoccurs.of_append hlt
          rw [le_antisymm hik hki, List.take_append_of_le_length (by omega)]
        · omega
    · next hfind =>
      have hnone := (find_windows_eq_none hpat).mp hfind
      have hlt : ¬ i + pat.length ≤ chunk.length := by
        intro hle
        have hoccurs := h.occurs
        rw [Nat.zero_add] at hoccurs
        exact hnone i (hoccurs.of_append hle)
      rw [or_iff_right hlt]
      by_cases hle : chunk.length ≤ i
      · obtain ⟨k, rfl⟩ := Nat.exists_eq_add_of_le hle
        have hrest := ih h.of_append
        rw [and_iff_right hle, Nat.add_sub_cancel_left, Nat.add_assoc, List.take_length_add_append]
        refine Iff.trans ?_ hrest
        constructor
        · intro heq
          obtain ⟨found, hfound, hchunk⟩ := Option.map_eq_some_iff.mp heq
          rw [hfound, List.append_cancel_left hchunk]
        · intro heq
          rw [heq]
          rfl
      · -- the occurrence straddles the end of the chunk
        refine iff_of_false ?_ fun hwithin => hle hwithin.1
        intro heq
        obtain ⟨found, hfound, hchunk⟩ := Option.map_eq_some_iff.mp heq
        have hfound' := le_length_of_firstIn hpat hfound
        have hlength := congrArg List.length hchunk
        rw [List.length_append, List.length_take] at hlength
        omega

end FirstIn

end Search
