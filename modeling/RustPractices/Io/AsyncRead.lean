import RustPractices.Io.Stream

/-!
# Reading without blocking

A poll of an asynchronous reader answers at once: with a value, or that nothing is there yet. A
source serves its bytes in pieces of any size, with answers of `Pending` between any two of them,
and is then at end of file or fails at every further read. The same source can also be read by
blocking reads, which wait until something has come.

## Main definitions

* `Poll`, `AsyncRead`: what an asynchronous reader implements
* `pollReadExact`: one poll of a new future of `read_exact`
* `Source`, `Source.bytes`, `Source.pendings`: a scripted source, what it serves, and after how many
  bytes it answers `Pending`

## Main results

* `Source.pollReadExact_cases`: how one poll of a new future of `read_exact` ends
* `Source.pollReadExact_of_smooth`: without a `Pending` on the way, it is ready at the first poll
* `Source.readExact_source`: blocking reads of a source take the bytes from its front
* `Source.pollReadExact_eq_readExact`: a source that never answers `Pending` is read as by blocking reads
-/

namespace Io

universe u

/-- `std::task::Poll`. -/
inductive Poll (α : Type u)
  | ready (a : α)
  | pending
  deriving DecidableEq, Repr

/-- **An asynchronous reader**: `pollRead` asks for at most that many bytes. -/
class AsyncRead (S : Type u) where
  pollRead : S → ℕ → Poll (Outcome (List UInt8)) × S

/-- One poll of a new future of `AsyncReadExt::read_exact`. The bytes that have been read before a
`Pending` are in the future. -/
def pollReadExact {S : Type u} [AsyncRead S] (s : S) (n : ℕ) : Poll (Outcome (List UInt8)) × S :=
  if _hn : n = 0 then (.ready (.ok []), s)
  else
    match AsyncRead.pollRead s n with
    | (.pending, s) => (.pending, s)
    | (.ready (.error e), s) => (.ready (.error e), s)
    | (.ready (.ok []), s) => (.ready (err .unexpectedEof), s)
    | (.ready (.ok (b :: bs)), s) =>
      match pollReadExact s (n - (bs.length + 1)) with
      | (.ready (.ok rest), s) => (.ready (.ok (b :: bs ++ rest)), s)
      | (.ready (.error e), s) => (.ready (.error e), s)
      | (.pending, s) => (.pending, s)
termination_by n
decreasing_by omega

/-- An answer of a source to a read: nothing is there yet, or a piece of at least one byte is. -/
inductive Answer
  | pending
  | piece (b : UInt8) (bs : List UInt8)
  deriving DecidableEq, Repr

/-- The bytes of an answer. -/
def Answer.bytes : Answer → List UInt8
  | .pending => []
  | .piece b bs => b :: bs

/-- After how many bytes the answers are `Pending`. -/
def pendings : List Answer → List ℕ
  | [] => []
  | .pending :: answers => 0 :: pendings answers
  | .piece _ bs :: answers => (pendings answers).map (· + (bs.length + 1))

/-- **A source** with a script of its answers. A read that asks for less than a piece leaves the rest
of it to the next read. After the script, the source is at end of file, or fails. -/
structure Source where
  answers : List Answer
  failure : Option ErrorKind := none
  deriving DecidableEq, Repr

namespace Source

/-- The bytes that the source still serves. -/
def bytes (s : Source) : List UInt8 := s.answers.flatMap Answer.bytes

/-- After how many of its bytes the source answers `Pending`. -/
def pendings (s : Source) : List ℕ := Io.pendings s.answers

/-- How a source ends. -/
def ended (s : Source) : Outcome (List UInt8) :=
  match s.failure with
  | none => .ok []
  | some kind => err kind

/-- The source after `n` bytes of its first piece, which are at least one and at most all. -/
def afterPiece (s : Source) (b : UInt8) (bs : List UInt8) (answers : List Answer) (n : ℕ) : Source :=
  match (b :: bs).drop n with
  | [] => { s with answers }
  | c :: cs => { s with answers := .piece c cs :: answers }

/-- A poll takes the next answer. -/
def pollRead (s : Source) (n : ℕ) : Poll (Outcome (List UInt8)) × Source :=
  match s.answers with
  | [] => (.ready s.ended, s)
  | .pending :: answers => (.pending, { s with answers })
  | .piece b bs :: answers => (.ready (.ok ((b :: bs).take n)), s.afterPiece b bs answers n)

instance : AsyncRead Source := ⟨pollRead⟩

/-- A blocking read waits for the next piece. -/
def read (s : Source) (n : ℕ) : Outcome (List UInt8) × Source :=
  match s with
  | { answers := [], failure } => ((⟨[], failure⟩ : Source).ended, ⟨[], failure⟩)
  | { answers := .pending :: answers, failure } => read ⟨answers, failure⟩ n
  | { answers := .piece b bs :: answers, failure } =>
    (.ok ((b :: bs).take n), (⟨answers, failure⟩ : Source).afterPiece b bs answers n)
termination_by s.answers.length

instance : Read Source := ⟨read⟩

/-! ## The bytes of a source -/

section

variable {s : Source} {b : UInt8} {bs : List UInt8} {answers : List Answer} {n : ℕ}

@[simp] theorem bytes_afterPiece :
    (s.afterPiece b bs answers n).bytes = (b :: bs).drop n ++ answers.flatMap Answer.bytes := by
  unfold afterPiece
  split
  next hdrop => simp [bytes, hdrop]
  next c cs hdrop => simp [bytes, hdrop, Answer.bytes]

@[simp] theorem failure_afterPiece : (s.afterPiece b bs answers n).failure = s.failure := by
  unfold afterPiece
  split <;> rfl

/-- Taking bytes of a piece moves the later answers of `Pending` forward. -/
theorem pendings_afterPiece (hn : n ≤ bs.length + 1) :
    (s.afterPiece b bs answers n).pendings.map (· + n) =
      (Io.pendings answers).map (· + (bs.length + 1)) := by
  have hlength : ((b :: bs).drop n).length = bs.length + 1 - n := by simp
  unfold afterPiece
  split
  next hdrop =>
    rw [hdrop, List.length_nil] at hlength
    have hn : n = bs.length + 1 := by omega
    rw [hn]
    rfl
  next c cs hdrop =>
    rw [hdrop, List.length_cons] at hlength
    show (((Io.pendings answers).map (· + (cs.length + 1))).map (· + n)) = _
    rw [List.map_map]
    apply List.map_congr_left
    intro p _
    show p + (cs.length + 1) + n = p + (bs.length + 1)
    omega

end

/-- A `Pending` comes after at most all of the bytes. -/
theorem le_length_of_mem_pendings {answers : List Answer} {p : ℕ} (hp : p ∈ Io.pendings answers) :
    p ≤ (answers.flatMap Answer.bytes).length := by
  induction answers generalizing p with
  | nil => simp [Io.pendings] at hp
  | cons answer answers ih =>
    cases answer with
    | pending =>
      rcases List.mem_cons.mp hp with rfl | hp
      · exact Nat.zero_le _
      · exact (ih hp).trans (by simp [Answer.bytes])
    | piece b bs =>
      obtain ⟨q, hq, rfl⟩ := List.mem_map.mp hp
      have := ih hq
      simp only [List.flatMap_cons, Answer.bytes, List.length_append, List.length_cons]
      omega

/-! ## One poll -/

/-- How one poll of a new future of `read_exact` for `n` bytes ends. -/
inductive Polled (s : Source) (n : ℕ) : Poll (Outcome (List UInt8)) → Source → Prop
  /-- The bytes have come. -/
  | ready {bs : List UInt8} {s' : Source} :
      s.bytes = bs ++ s'.bytes → bs.length = n → s'.pendings.map (· + n) = s.pendings →
      s'.failure = s.failure → Polled s n (.ready (.ok bs)) s'
  /-- A `Pending` has come before them, and the bytes before it are lost. -/
  | pending {lost : List UInt8} {s' : Source} :
      s.bytes = lost ++ s'.bytes → lost.length < n →
      s.pendings = lost.length :: s'.pendings.map (· + lost.length) →
      s'.failure = s.failure → Polled s n .pending s'
  /-- The source has ended before them. -/
  | ended {kind : ErrorKind} {s' : Source} :
      s.bytes.length < n → s.pendings = [] → s'.answers = [] → s'.failure = s.failure →
      Polled s n (.ready (.error (.error kind))) s'

section

variable {s t : Source} {n : ℕ}

/-- The bytes that have come first belong to the bytes that come. -/
theorem Polled.append {bs : List UInt8} {r : Poll (Outcome (List UInt8))} {s' : Source}
    (hbytes : s.bytes = bs ++ t.bytes) (hpendings : t.pendings.map (· + bs.length) = s.pendings)
    (hfailure : t.failure = s.failure) (h : Polled t n r s') :
    (∃ rest, r = .ready (.ok rest) ∧ Polled s (bs.length + n) (.ready (.ok (bs ++ rest))) s') ∨
      (r = .pending ∨ ∃ e, r = .ready (.error e)) ∧ Polled s (bs.length + n) r s' := by
  cases h with
  | @ready rest s' hrest hlength hpendings' hfailure' =>
    refine .inl ⟨rest, rfl, .ready ?_ ?_ ?_ (hfailure'.trans hfailure)⟩
    · rw [hbytes, hrest, List.append_assoc]
    · rw [List.length_append, hlength]
    · rw [← hpendings, ← hpendings', List.map_map]
      apply List.map_congr_left
      intro p _
      show p + (bs.length + n) = p + n + bs.length
      omega
  | @pending lost s' hlost hlength hpendings' hfailure' =>
    refine .inr ⟨.inl rfl, @Polled.pending _ _ (bs ++ lost) _ ?_ ?_ ?_ (hfailure'.trans hfailure)⟩
    · rw [hbytes, hlost, List.append_assoc]
    · rw [List.length_append]
      omega
    · rw [← hpendings, hpendings', List.map_cons, List.map_map, List.length_append]
      congr 1
      · omega
      · apply List.map_congr_left
        intro p _
        show p + lost.length + bs.length = p + (bs.length + lost.length)
        omega
  | @ended kind s' hlength hnone hnil hfailure' =>
    refine .inr ⟨.inr ⟨_, rfl⟩, .ended ?_ ?_ hnil (hfailure'.trans hfailure)⟩
    · rw [hbytes, List.length_append]
      omega
    · rw [← hpendings, hnone]
      rfl

/-- One poll of a new future of `read_exact`. -/
theorem pollReadExact_cases (s : Source) (n : ℕ) :
    Polled s n (pollReadExact s n).1 (pollReadExact s n).2 := by
  induction n using Nat.strong_induction_on generalizing s with
  | _ n ih =>
    by_cases hzero : n = 0
    · subst hzero
      rw [pollReadExact, dif_pos rfl]
      exact .ready rfl rfl (by simp) rfl
    rw [pollReadExact, dif_neg hzero]
    match s with
    | ⟨[], none⟩ =>
      have hpoll : AsyncRead.pollRead (⟨[], none⟩ : Source) n = (.ready (.ok []), ⟨[], none⟩) := rfl
      rw [hpoll]
      exact .ended (by simp [bytes]; omega) rfl rfl rfl
    | ⟨[], some kind⟩ =>
      have hpoll : AsyncRead.pollRead (⟨[], some kind⟩ : Source) n =
        (.ready (err kind), ⟨[], some kind⟩) := rfl
      rw [hpoll]
      exact .ended (by simp [bytes]; omega) rfl rfl rfl
    | ⟨.pending :: answers, failure⟩ =>
      have hpoll : AsyncRead.pollRead (⟨.pending :: answers, failure⟩ : Source) n =
        (.pending, ⟨answers, failure⟩) := rfl
      rw [hpoll]
      refine @Polled.pending _ _ [] _ rfl (by simp; omega) ?_ rfl
      simp [pendings, Io.pendings]
    | ⟨.piece b bs :: answers, failure⟩ =>
      obtain ⟨m, rfl⟩ := Nat.exists_eq_succ_of_ne_zero hzero
      have hpoll : AsyncRead.pollRead (⟨.piece b bs :: answers, failure⟩ : Source) (m + 1) =
          (.ready (.ok (b :: bs.take m)),
            afterPiece ⟨.piece b bs :: answers, failure⟩ b bs answers (m + 1)) := rfl
      rw [hpoll]
      simp only
      have hafter : afterPiece ⟨.piece b bs :: answers, failure⟩ b bs answers (m + 1) =
          afterPiece ⟨.piece b bs :: answers, failure⟩ b bs answers (b :: bs.take m).length := by
        unfold afterPiece
        have hdrop : (b :: bs).drop (b :: bs.take m).length = (b :: bs).drop (m + 1) := by
          rcases le_total m bs.length with hle | hle
          · simp [hle]
          · simp [hle, List.drop_eq_nil_of_le]
        rw [hdrop]
      have hlength : (b :: bs.take m).length = min m bs.length + 1 := by simp
      rw [hafter]
      set t := afterPiece ⟨.piece b bs :: answers, failure⟩ b bs answers (b :: bs.take m).length
      have hbytes : (⟨.piece b bs :: answers, failure⟩ : Source).bytes = (b :: bs.take m) ++ t.bytes := by
        have hsplit : b :: bs = (b :: bs.take m) ++ (b :: bs).drop (b :: bs.take m).length := by
          have htake := List.take_append_drop (b :: bs.take m).length (b :: bs)
          rw [hlength, List.take_succ_cons, List.take_eq_take_min, min_eq_left (min_le_right _ _),
            ← List.take_eq_take_min] at htake
          rw [hlength]
          exact htake.symm
        rw [bytes_afterPiece, ← List.append_assoc, ← hsplit]
        rfl
      have hpendings : t.pendings.map (· + (b :: bs.take m).length) =
          (⟨.piece b bs :: answers, failure⟩ : Source).pendings :=
        pendings_afterPiece (by omega)
      obtain ⟨k, hk⟩ : ∃ k, k = m.succ - ((bs.take m).length + 1) := ⟨_, rfl⟩
      have hn : (b :: bs.take m).length + k = m.succ := by
        simp only [List.length_cons, List.length_take] at hk ⊢
        omega
      have hrest := ih k (by simp only [List.length_take] at hk; omega) t
      rw [← hk]
      rcases hrest.append hbytes hpendings failure_afterPiece with ⟨rest, hr, hpolled⟩ |
        ⟨hr | ⟨e, hr⟩, hpolled⟩ <;> rw [hn] at hpolled
      · rwa [show pollReadExact t k = (.ready (.ok rest), _) from Prod.ext hr rfl]
      · rw [hr] at hpolled
        rwa [show pollReadExact t k = (.pending, _) from Prod.ext hr rfl]
      · rw [hr] at hpolled
        rwa [show pollReadExact t k = (.ready (.error e), _) from Prod.ext hr rfl]

/-- Without a `Pending` on the way, the future of `read_exact` is ready at the first poll. -/
theorem pollReadExact_of_smooth {bs rest : List UInt8} (hbytes : s.bytes = bs ++ rest)
    (hsmooth : ∀ p ∈ s.pendings, bs.length ≤ p) :
    ∃ s', pollReadExact s bs.length = (.ready (.ok bs), s') ∧ s'.bytes = rest ∧
      s'.pendings.map (· + bs.length) = s.pendings := by
  have hcases := pollReadExact_cases s bs.length
  revert hcases
  cases pollReadExact s bs.length with
  | mk result s' =>
  intro hcases
  cases hcases with
  | ready hbytes' hlength hpendings _ =>
    obtain ⟨rfl, rfl⟩ := List.append_inj (hbytes'.symm.trans hbytes) hlength
    exact ⟨s', rfl, rfl, hpendings⟩
  | pending _ hlt hpendings _ =>
    have hle := hsmooth _ (hpendings ▸ List.mem_cons_self)
    omega
  | ended hlt _ _ _ =>
    rw [hbytes, List.length_append] at hlt
    omega

end

/-! ## Blocking reads -/

/-- A blocking read takes bytes from the front, or finds the end. -/
theorem read_cases (s : Source) {n : ℕ} (hn : 0 < n) :
    (s.bytes = [] ∧ ∃ s', Read.read s n = (s.ended, s') ∧ s'.bytes = [] ∧ s'.failure = s.failure) ∨
    ∃ b bs s', Read.read s n = (.ok (b :: bs), s') ∧ bs.length < n ∧ s.bytes = b :: bs ++ s'.bytes ∧
      s'.failure = s.failure := by
  obtain ⟨answers, failure⟩ := s
  show (_ ∧ ∃ s', read _ n = _ ∧ _) ∨ ∃ b bs s', read _ n = _ ∧ _
  induction answers with
  | nil =>
    refine .inl ⟨rfl, ⟨[], failure⟩, ?_, rfl, rfl⟩
    rw [read]
  | cons answer answers ih =>
    cases answer with
    | pending =>
      rw [read]
      exact ih
    | piece b bs =>
      obtain ⟨m, rfl⟩ := Nat.exists_eq_succ_of_ne_zero hn.ne'
      refine .inr ⟨b, bs.take m, _, by rw [read]; rfl, ?_, ?_, failure_afterPiece⟩
      · exact (List.length_take_le m bs).trans_lt (Nat.lt_succ_self m)
      · rw [bytes_afterPiece, ← List.append_assoc, ← List.take_succ_cons, List.take_append_drop]
        rfl

/-- Blocking reads of a source take the bytes from its front. -/
theorem readExact_source (s : Source) (n : ℕ) : ∃ s',
    readExact s n = ((if n ≤ s.bytes.length then .ok (s.bytes.take n)
      else err (s.failure.getD .unexpectedEof)), s') ∧
    s'.bytes = s.bytes.drop n ∧ s'.failure = s.failure := by
  induction n using Nat.strong_induction_on generalizing s with
  | _ n ih =>
    by_cases hzero : n = 0
    · subst hzero
      exact ⟨s, by simp, rfl, rfl⟩
    rw [readExact, dif_neg hzero]
    rcases s.read_cases (Nat.pos_of_ne_zero hzero) with ⟨hnil, s', hread, hbytes, hfailure⟩ |
      ⟨b, bs, t, hread, hlt, hbytes, hfailure⟩
    · refine ⟨s', ?_, by rw [hbytes, hnil, List.drop_nil], hfailure⟩
      rw [hread, hnil, if_neg (by simpa using hzero)]
      unfold ended
      cases s.failure <;> rfl
    · obtain ⟨s', hrest, hbytes', hfailure'⟩ := ih (n - (bs.length + 1)) (by omega) t
      refine ⟨s', ?_, ?_, hfailure'.trans hfailure⟩
      · have hn : n = (b :: bs).length + (n - (bs.length + 1)) := by
          simp only [List.length_cons]
          omega
        have hlength : s.bytes.length = bs.length + 1 + t.bytes.length := by
          rw [hbytes, List.length_append, List.length_cons]
        rw [hread]
        simp only
        rw [hrest, hfailure]
        by_cases hle : n ≤ s.bytes.length
        · rw [if_pos hle, if_pos (by omega), hbytes]
          conv_rhs => rw [hn, List.take_length_add_append]
        · rw [if_neg hle, if_neg (by omega)]
          rfl
      · have hn : n = (b :: bs).length + (n - (bs.length + 1)) := by
          simp only [List.length_cons]
          omega
        rw [hbytes']
        conv_rhs => rw [hbytes, hn, List.drop_length_add_append]

/-- A source that never answers `Pending` is read as by blocking reads. -/
theorem pollReadExact_eq_readExact {s : Source} (hs : s.pendings = []) (n : ℕ) :
    pollReadExact s n = (.ready (readExact s n).1, (readExact s n).2) ∧
      (readExact s n).2.pendings = [] := by
  induction n using Nat.strong_induction_on generalizing s with
  | _ n ih =>
    by_cases hzero : n = 0
    · subst hzero
      rw [pollReadExact, dif_pos rfl, readExact_zero]
      exact ⟨rfl, hs⟩
    obtain ⟨m, rfl⟩ := Nat.exists_eq_succ_of_ne_zero hzero
    rw [pollReadExact, dif_neg hzero, readExact, dif_neg hzero]
    obtain ⟨answers, failure⟩ := s
    rcases answers with - | ⟨- | ⟨b, bs⟩, answers⟩
    · rcases failure with - | kind
      · have hpoll : AsyncRead.pollRead (⟨[], none⟩ : Source) (m + 1) =
          (.ready (.ok []), ⟨[], none⟩) := rfl
        have hread : Read.read (⟨[], none⟩ : Source) (m + 1) = (.ok [], ⟨[], none⟩) :=
          by show read _ _ = _; rw [read]; rfl
        rw [hpoll, hread]
        exact ⟨rfl, rfl⟩
      · have hpoll : AsyncRead.pollRead (⟨[], some kind⟩ : Source) (m + 1) =
          (.ready (err kind), ⟨[], some kind⟩) := rfl
        have hread : Read.read (⟨[], some kind⟩ : Source) (m + 1) = (err kind, ⟨[], some kind⟩) :=
          by show read _ _ = _; rw [read]; rfl
        rw [hpoll, hread]
        exact ⟨rfl, rfl⟩
    · simp [pendings, Io.pendings] at hs
    · set t := afterPiece ⟨.piece b bs :: answers, failure⟩ b bs answers (m + 1) with ht
      have hpoll : AsyncRead.pollRead (⟨.piece b bs :: answers, failure⟩ : Source) (m + 1) =
        (.ready (.ok (b :: bs.take m)), t) := rfl
      have hread : Read.read (⟨.piece b bs :: answers, failure⟩ : Source) (m + 1) =
          (.ok (b :: bs.take m), t) := by
        show read _ _ = _
        rw [read]
        rfl
      have hnone : Io.pendings answers = [] := List.map_eq_nil_iff.mp hs
      have htnone : t.pendings = [] := by
        rw [ht, pendings, afterPiece]
        split
        · exact hnone
        · simp [Io.pendings, hnone]
      obtain ⟨hrest, hrestnone⟩ := ih (m + 1 - ((bs.take m).length + 1)) (by omega) htnone
      rw [hpoll, hread]
      simp only
      rw [hrest]
      revert hrestnone
      cases readExact t (m + 1 - ((bs.take m).length + 1)) with
      | mk result s' =>
        intro hrestnone
        cases result with
        | ok rest => exact ⟨rfl, hrestnone⟩
        | error e => exact ⟨rfl, hrestnone⟩

end Source

end Io
