import Mathlib

/-!
# Locks and their holders

Each of several sides is in some phase, and the sides in the inner phases are those that hold the
lock. A step under the lock is made by its holder, or by the side that takes it, so that what is
protected changes only where the other sides know nothing of it.

## Main definitions

* `Mutex`: what is protected, the holder, and whether a holder has panicked
* `Locked`: the sides in the inner phases hold the lock

## Main results

* `Locked.set`: a side takes the lock, takes a step under it, or gives it back
* `Locked.outside`: a side takes a step outside of the lock
* `getElem?_set_eq_update`, `getElem?_append_eq_update`: sides that are kept in a list
* `sum_map_set`: a count over all sides when one of them takes a step
* `sum_map_le_of_unique`: a count that at most one side has
-/

namespace Transition

universe u v w

/-- What a mutex protects, the side that holds it, and whether a side has panicked while it held
it. -/
structure Mutex (α : Type u) (ι : Type v) where
  data : α
  holder : Option ι
  poisoned : Bool

variable {ι : Type v} {P : Type w}

/-- **The sides in the inner phases hold the lock.** What is protected satisfies `Free` while nobody
holds the lock, and its holder knows what its phase says. -/
structure Locked (holder : Option ι) (phase : ι → Option P) (Inside : P → Prop) (Free : Prop)
    (Knows : P → Prop) : Prop where
  inside_iff : ∀ i, (∃ p, phase i = some p ∧ Inside p) ↔ holder = some i
  free : holder = none → Free
  knows : ∀ i p, phase i = some p → Inside p → Knows p

namespace Locked

variable {holder holder' : Option ι} {phase : ι → Option P} {Inside : P → Prop}
  {Free Free' : Prop} {Knows Knows' : P → Prop} {i j : ι} {p q : P}

theorem holder_eq (h : Locked holder phase Inside Free Knows) (hp : phase i = some p)
    (hinside : Inside p) : holder = some i :=
  (h.inside_iff i).mp ⟨p, hp, hinside⟩

/-- What the holder knows. -/
theorem of_inside (h : Locked holder phase Inside Free Knows) (hp : phase i = some p)
    (hinside : Inside p) : Knows p :=
  h.knows i p hp hinside

/-- At most one side is inside. -/
theorem eq_of_inside (h : Locked holder phase Inside Free Knows) (hp : phase i = some p)
    (hq : phase j = some q) (hip : Inside p) (hiq : Inside q) : i = j :=
  Option.some.inj ((h.holder_eq hp hip).symm.trans (h.holder_eq hq hiq))

theorem mono (h : Locked holder phase Inside Free Knows) (hfree : Free → Free')
    (hknows : ∀ p, Inside p → Knows p → Knows' p) : Locked holder phase Inside Free' Knows' where
  inside_iff := h.inside_iff
  free := fun hnone => hfree (h.free hnone)
  knows := fun i p hp hinside => hknows p hinside (h.knows i p hp hinside)

variable [DecidableEq ι]

/-- A side takes the lock, takes a step under it, or gives it back. -/
theorem set (h : Locked holder phase Inside Free Knows) {next : Option P}
    (hturn : holder = none ∨ holder = some i) (hturn' : holder' = none ∨ holder' = some i)
    (hinside : (∃ p, next = some p ∧ Inside p) ↔ holder' = some i)
    (hfree : holder' = none → Free') (hknows : ∀ p, next = some p → Inside p → Knows' p) :
    Locked holder' (Function.update phase i next) Inside Free' Knows' := by
  -- no other side is inside, before or after the step
  have hother : ∀ j, j ≠ i → ∀ p, phase j = some p → ¬ Inside p := by
    intro j hne p hp hin
    have hholder := h.holder_eq hp hin
    rcases hturn with hnone | hsome
    · exact absurd (hnone.symm.trans hholder) (by simp)
    · exact hne (Option.some.inj (hholder.symm.trans hsome))
  refine ⟨?_, hfree, ?_⟩
  · intro j
    by_cases hj : j = i
    · subst hj
      rw [Function.update_self]
      exact hinside
    · rw [Function.update_of_ne hj]
      refine iff_of_false ?_ ?_
      · rintro ⟨p, hp, hin⟩
        exact hother j hj p hp hin
      · intro hholder
        rcases hturn' with hnone | hsome
        · exact absurd (hnone.symm.trans hholder) (by simp)
        · exact hj (Option.some.inj (hholder.symm.trans hsome))
  · intro j p hp hin
    by_cases hj : j = i
    · subst hj
      rw [Function.update_self] at hp
      exact hknows p hp hin
    · rw [Function.update_of_ne hj] at hp
      exact absurd hin (hother j hj p hp)

/-- A side takes a step outside of the lock, which another side may hold. -/
theorem outside (h : Locked holder phase Inside Free Knows) {next : Option P}
    (hout : ∀ p, phase i = some p → ¬ Inside p) (hout' : ∀ p, next = some p → ¬ Inside p) :
    Locked holder (Function.update phase i next) Inside Free Knows := by
  refine ⟨?_, h.free, ?_⟩
  · intro j
    by_cases hj : j = i
    · subst hj
      rw [Function.update_self]
      refine iff_of_false ?_ ?_
      · rintro ⟨p, hp, hin⟩
        exact hout' p hp hin
      · intro hholder
        obtain ⟨p, hp, hin⟩ := (h.inside_iff j).mpr hholder
        exact hout p hp hin
    · rw [Function.update_of_ne hj]
      exact h.inside_iff j
  · intro j p hp hin
    by_cases hj : j = i
    · subst hj
      rw [Function.update_self] at hp
      exact absurd hin (hout' p hp)
    · rw [Function.update_of_ne hj] at hp
      exact h.knows j p hp hin

end Locked

/-! ## Sides in a list -/

variable {sides : List P} {n : ℕ} {p : P}

/-- A step of one of several sides, as a step of its phase. -/
theorem getElem?_set_eq_update (hp : sides[n]? = some p) (q : P) :
    (fun m => (sides.set n q)[m]?) = Function.update (fun m => sides[m]?) n (some q) := by
  obtain ⟨hlt, -⟩ := List.getElem?_eq_some_iff.mp hp
  funext m
  by_cases hm : m = n
  · subst hm
    rw [Function.update_self, List.getElem?_set_self hlt]
  · rw [Function.update_of_ne hm, List.getElem?_set_ne (Ne.symm hm)]

/-- A side that comes, as a step of its phase. -/
theorem getElem?_append_eq_update (sides : List P) (q : P) :
    (fun m => (sides ++ [q])[m]?) = Function.update (fun m => sides[m]?) sides.length (some q) := by
  funext m
  rcases lt_trichotomy m sides.length with hm | rfl | hm
  · rw [Function.update_of_ne hm.ne, List.getElem?_append_left hm]
  · rw [Function.update_self, List.getElem?_append_right le_rfl, Nat.sub_self]
    rfl
  · rw [Function.update_of_ne hm.ne', List.getElem?_eq_none hm.le, List.getElem?_eq_none]
    rw [List.length_append, List.length_singleton]
    exact hm

theorem sum_map_set (hp : sides[n]? = some p) (q : P) (f : P → ℕ) :
    ((sides.set n q).map f).sum + f p = (sides.map f).sum + f q := by
  induction sides generalizing n with
  | nil => simp at hp
  | cons r sides ih =>
    cases n with
    | zero =>
      obtain rfl : r = p := by simpa using hp
      simp only [List.set_cons_zero, List.map_cons, List.sum_cons]
      omega
    | succ n =>
      have := ih (by simpa using hp)
      simp only [List.set_cons_succ, List.map_cons, List.sum_cons]
      omega

theorem le_sum_map (hp : sides[n]? = some p) (f : P → ℕ) : f p ≤ (sides.map f).sum :=
  List.le_sum_of_mem (List.mem_map_of_mem (List.mem_of_getElem? hp))

/-- A count that at most one side has. -/
theorem sum_map_le_of_unique {f : P → ℕ} {b : ℕ} (hle : ∀ p ∈ sides, f p ≤ b)
    (hunique : ∀ (m n : ℕ) p q, sides[m]? = some p → sides[n]? = some q → f p ≠ 0 → f q ≠ 0 → m = n) :
    (sides.map f).sum ≤ b := by
  induction sides with
  | nil => exact Nat.zero_le b
  | cons r sides ih =>
    rw [List.map_cons, List.sum_cons]
    by_cases hr : f r = 0
    · rw [hr, Nat.zero_add]
      refine ih (fun p hp => hle p (List.mem_cons_of_mem r hp)) fun m n p q hp hq hfp hfq => ?_
      exact Nat.succ.inj
        (hunique (m + 1) (n + 1) p q (by simpa using hp) (by simpa using hq) hfp hfq)
    · have hzero : (sides.map f).sum = 0 := by
        refine List.sum_eq_zero fun k hk => ?_
        obtain ⟨p, hp, rfl⟩ := List.mem_map.mp hk
        obtain ⟨m, hm⟩ := List.mem_iff_getElem?.mp hp
        by_contra hfp
        exact Nat.succ_ne_zero m (hunique (m + 1) 0 p r (by simpa using hm) rfl hfp hr)
      rw [hzero, Nat.add_zero]
      exact hle r List.mem_cons_self

end Transition
