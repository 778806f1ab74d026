import Mathlib

/-!
# Machines and their runs

A machine answers each action with a successor state and the events the action exhibits; it
refuses the actions its state does not enable. The runs of a machine are its sequences of
answered actions from the initial state. A guard on the steps restricts the runs, and a ghost
records the history of a run beside its state without changing the runs.

## Main definitions

* `Machine`: an initial state and a partial step function with events
* `Machine.Run`: the guarded runs, with the events exhibited so far
* `Machine.exec`: the executable form of a run
* `Machine.guard`: the machine that refuses the steps outside a guard
* `Machine.GhostRun`: a run paired with a history that its steps update
* `Machine.ghost`: the machine that keeps the history in its state

## Main results

* `Machine.Run.invariant`: what one guarded step preserves holds along every guarded run
* `Machine.Run.invariant_over`: the same over what is known of every run
* `Machine.Run.length_add_le`: a measure that pays for the events bounds every run
* `Machine.Run.simulates`, `Machine.Run.refines`: a machine whose steps another one matches
* `Machine.run_exec`: the executable form computes runs
* `Machine.Run.exists_ghost`: every run carries its history
* `Machine.GhostRun.invariant`: invariants of a state and its history
* `Machine.GhostRun.of_ghost`: the runs with a history are runs of the machine that keeps it
-/

namespace Transition

universe u v w x

/-- **A machine**: an initial state, and for each state and action either a successor with the
events of the step, or a refusal. -/
structure Machine (σ : Type u) (α : Type v) (ε : Type w) where
  init : σ
  step : σ → α → Option (σ × List ε)

namespace Machine

variable {σ : Type u} {α : Type v} {ε : Type w} {γ : Type x}

/-- The runs all of whose steps meet the guard `ok`, with the events exhibited so far. -/
inductive Run (M : Machine σ α ε) (ok : σ → α → Prop) : List ε → σ → Prop
  | init : Run M ok [] M.init
  | step {tr : List ε} {s t : σ} {a : α} {out : List ε} :
      Run M ok tr s → ok s a → M.step s a = some (t, out) → Run M ok (tr ++ out) t

/-- The guard that admits every step. -/
def unguarded : σ → α → Prop := fun _ _ => True

/-- **The invariant rule**: what holds initially and is preserved by every guarded step holds
at the end of every guarded run. -/
theorem Run.invariant {M : Machine σ α ε} {ok : σ → α → Prop} {P : List ε → σ → Prop}
    (h0 : P [] M.init)
    (hstep : ∀ tr s a t out, P tr s → ok s a → M.step s a = some (t, out) → P (tr ++ out) t)
    {tr : List ε} {s : σ} (h : M.Run ok tr s) : P tr s := by
  induction h with
  | init => exact h0
  | step _ hok hs ih => exact hstep _ _ _ _ _ ih hok hs

/-- The runs of a guard are runs of a weaker one. -/
theorem Run.mono {M : Machine σ α ε} {ok ok' : σ → α → Prop} (hle : ∀ s a, ok s a → ok' s a)
    {tr : List ε} {s : σ} (h : M.Run ok tr s) : M.Run ok' tr s := by
  induction h with
  | init => exact .init
  | step _ hok hs ih => exact .step ih (hle _ _ hok) hs

/-- The invariant rule for a layer over what is known of every run: the steps may use it of both of
their states. -/
theorem Run.invariant_over {M : Machine σ α ε} {ok : σ → α → Prop} {P Q : List ε → σ → Prop}
    (hP : ∀ {tr s}, M.Run ok tr s → P tr s) (h0 : Q [] M.init)
    (hstep : ∀ tr s a t out, P tr s → P (tr ++ out) t → Q tr s → M.step s a = some (t, out) →
      Q (tr ++ out) t)
    {tr : List ε} {s : σ} (h : M.Run ok tr s) : Q tr s := by
  induction h with
  | init => exact h0
  | step hrun hok hs ih => exact hstep _ _ _ _ _ (hP hrun) (hP (.step hrun hok hs)) ih hs

/-- **The measure rule**: where every guarded step pays for its events with a measure of the state, what
is left of the measure bounds the events to come. -/
theorem Run.length_add_le {M : Machine σ α ε} {ok : σ → α → Prop} (μ : σ → ℕ)
    (hstep : ∀ s a t out, ok s a → M.step s a = some (t, out) → out.length + μ t ≤ μ s)
    {tr : List ε} {s : σ} (h : M.Run ok tr s) : tr.length + μ s ≤ μ M.init := by
  induction h with
  | init => simp
  | step _ hok hs ih =>
    have hpaid := hstep _ _ _ _ hok hs
    rw [List.length_append]
    omega

/-- **The simulation rule**: where every guarded step is matched by a step of another machine with the
same events under other names, every guarded run is matched by a run. -/
theorem Run.simulates {σ' : Type*} {α' : Type*} {ε' : Type*} {M : Machine σ α ε} {N : Machine σ' α' ε'}
    {ok : σ → α → Prop} {R : σ → σ' → Prop} (f : ε → ε') (h0 : R M.init N.init)
    (hstep : ∀ s u a t out, R s u → ok s a → M.step s a = some (t, out) →
      ∃ a' u', N.step u a' = some (u', out.map f) ∧ R t u')
    {tr : List ε} {s : σ} (h : M.Run ok tr s) : ∃ u, N.Run unguarded (tr.map f) u ∧ R s u := by
  induction h with
  | init => exact ⟨N.init, .init, h0⟩
  | step _ hok hs ih =>
    obtain ⟨u, hrun, hR⟩ := ih
    obtain ⟨a', u', hs', hR'⟩ := hstep _ u _ _ _ hR hok hs
    rw [List.map_append]
    exact ⟨u', .step hrun trivial hs', hR'⟩

/-- **The refinement rule**: where every guarded step is matched by the steps of another machine, none or
several of them, with those of the events that `f` has a name for, every guarded run is matched by a run. -/
theorem Run.refines {σ' : Type*} {α' : Type*} {ε' : Type*} {M : Machine σ α ε} {N : Machine σ' α' ε'}
    {ok : σ → α → Prop} {ok' : σ' → α' → Prop} {R : σ → σ' → Prop} (f : ε → Option ε')
    (h0 : R M.init N.init)
    (hstep : ∀ tr' s u a t out, N.Run ok' tr' u → R s u → ok s a → M.step s a = some (t, out) →
      ∃ u', N.Run ok' (tr' ++ out.filterMap f) u' ∧ R t u')
    {tr : List ε} {s : σ} (h : M.Run ok tr s) : ∃ u, N.Run ok' (tr.filterMap f) u ∧ R s u := by
  induction h with
  | init => exact ⟨N.init, .init, h0⟩
  | step _ hok hs ih =>
    obtain ⟨u, hrun, hR⟩ := ih
    rw [List.filterMap_append]
    exact hstep _ _ _ _ _ _ hrun hR hok hs

/-- The state and the events after the actions `as`, from the state `s` and the events `tr`. -/
def execFrom (M : Machine σ α ε) : σ → List ε → List α → Option (σ × List ε)
  | s, tr, [] => some (s, tr)
  | s, tr, a :: as =>
    match M.step s a with
    | some (t, out) => M.execFrom t (tr ++ out) as
    | none => none

/-- The state and the events after the actions `as`. -/
def exec (M : Machine σ α ε) (as : List α) : Option (σ × List ε) := M.execFrom M.init [] as

theorem run_execFrom {M : Machine σ α ε} {s t : σ} {tr tr' : List ε} {as : List α}
    (hs : M.Run unguarded tr s) (h : M.execFrom s tr as = some (t, tr')) :
    M.Run unguarded tr' t := by
  induction as generalizing s tr with
  | nil =>
    obtain ⟨rfl, rfl⟩ : s = t ∧ tr = tr' := by simpa [execFrom] using h
    exact hs
  | cons a as ih =>
    simp only [execFrom] at h
    split at h
    · next hstep => exact ih (.step hs trivial hstep) h
    · exact absurd h (by simp)

/-- The executable form computes runs. -/
theorem run_exec {M : Machine σ α ε} {t : σ} {tr : List ε} {as : List α}
    (h : M.exec as = some (t, tr)) : M.Run unguarded tr t :=
  run_execFrom .init h

/-- The machine that refuses the steps outside the guard. -/
def guard (M : Machine σ α ε) (ok : σ → α → Prop) [∀ s a, Decidable (ok s a)] :
    Machine σ α ε where
  init := M.init
  step s a := if ok s a then M.step s a else none

/-- The runs of the machine with a guard are the guarded runs. -/
theorem Run.of_guard {M : Machine σ α ε} {ok : σ → α → Prop} [∀ s a, Decidable (ok s a)]
    {tr : List ε} {s : σ} (h : (M.guard ok).Run unguarded tr s) : M.Run ok tr s := by
  induction h with
  | init => exact .init
  | step _ _ hs ih =>
    simp only [guard] at hs
    split_ifs at hs with hok
    exact .step ih hok hs

/-! ## Histories -/

/-- A guarded run beside a history, which starts at `g₀` and which every step updates from its
two states and its action. -/
inductive GhostRun (M : Machine σ α ε) (ok : σ → α → Prop) (g₀ : γ) (upd : γ → σ → α → σ → γ) :
    List ε → σ → γ → Prop
  | init : GhostRun M ok g₀ upd [] M.init g₀
  | step {tr : List ε} {s t : σ} {g : γ} {a : α} {out : List ε} :
      GhostRun M ok g₀ upd tr s g → ok s a → M.step s a = some (t, out) →
        GhostRun M ok g₀ upd (tr ++ out) t (upd g s a t)

/-- Every run carries its history. -/
theorem Run.exists_ghost {M : Machine σ α ε} {ok : σ → α → Prop} (g₀ : γ)
    (upd : γ → σ → α → σ → γ) {tr : List ε} {s : σ} (h : M.Run ok tr s) :
    ∃ g, M.GhostRun ok g₀ upd tr s g := by
  induction h with
  | init => exact ⟨g₀, .init⟩
  | step _ hok hs ih =>
    obtain ⟨g, hg⟩ := ih
    exact ⟨_, .step hg hok hs⟩

/-- The invariant rule for a state and its history. -/
theorem GhostRun.invariant {M : Machine σ α ε} {ok : σ → α → Prop} {g₀ : γ}
    {upd : γ → σ → α → σ → γ} {P : List ε → σ → γ → Prop} (h0 : P [] M.init g₀)
    (hstep : ∀ tr s g a t out, P tr s g → ok s a → M.step s a = some (t, out) →
      P (tr ++ out) t (upd g s a t))
    {tr : List ε} {s : σ} {g : γ} (h : M.GhostRun ok g₀ upd tr s g) : P tr s g := by
  induction h with
  | init => exact h0
  | step _ hok hs ih => exact hstep _ _ _ _ _ _ ih hok hs

/-- The machine that keeps the history in its state. -/
def ghost (M : Machine σ α ε) (g₀ : γ) (upd : γ → σ → α → σ → γ) : Machine (σ × γ) α ε where
  init := (M.init, g₀)
  step s a := (M.step s.1 a).map fun (t, out) => ((t, upd s.2 s.1 a t), out)

/-- A step of the machine that keeps the history. -/
theorem step_of_ghost {M : Machine σ α ε} {g₀ : γ} {upd : γ → σ → α → σ → γ} {s s' : σ × γ} {a : α}
    {out : List ε} (h : (M.ghost g₀ upd).step s a = some (s', out)) :
    M.step s.1 a = some (s'.1, out) ∧ s'.2 = upd s.2 s.1 a s'.1 := by
  obtain ⟨⟨t, out⟩, hstep, heq⟩ := Option.map_eq_some_iff.mp h
  obtain ⟨rfl, rfl⟩ := Prod.mk.inj heq
  exact ⟨hstep, rfl⟩

/-- The runs of the machine that keeps the history are the runs with a history. -/
theorem GhostRun.of_ghost {M : Machine σ α ε} {ok : σ → α → Prop} {g₀ : γ}
    {upd : γ → σ → α → σ → γ} {tr : List ε} {s : σ × γ}
    (h : (M.ghost g₀ upd).Run (fun s a => ok s.1 a) tr s) : M.GhostRun ok g₀ upd tr s.1 s.2 := by
  induction h with
  | init => exact .init
  | step _ hok hs ih =>
    obtain ⟨hstep, hg⟩ := step_of_ghost hs
    rw [hg]
    exact .step ih hok hstep

end Machine

end Transition
