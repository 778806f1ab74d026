import RustPractices.Groupchat.ReadFrame

/-!
# The asynchronous stream of commands

Every poll of the stream makes a new future of `read_frame` and polls it once. When a `Pending`
comes in the middle of a frame, the bytes of the frame that have been read are in the future, which
is dropped: they are lost. The stream yields exactly the commands that have been sent if and only if
a `Pending` never comes in the middle of a frame.

## Main definitions

* `AsyncStreamAgent`, `AsyncStreamAgent.pollNext`: the stream and one poll of it
* `yields`: the commands that successive polls yield

## Main results

* `pollReadFrame_cases`: how one poll of a new future of `read_frame` ends
* `yields_iff`: when the stream yields the commands that have been sent
-/

open Io

namespace Groupchat

universe u

structure AgentAsyncWriter where
  buf : List UInt8 := []
  cursor : ℕ := 0
  deriving DecidableEq, Repr

structure AsyncStreamAgent (S : Type u) where
  stream : S
  writer : AgentAsyncWriter

namespace AsyncStreamAgent

variable {S : Type u}

/-- `AsyncStreamAgent::new`. -/
def new (stream : S) : AsyncStreamAgent S := { stream, writer := {} }

/-- `Stream::poll_next`: a new future of `read_frame` is polled once, and dropped. -/
def pollNext [AsyncRead S] (a : AsyncStreamAgent S) :
    Poll (Option (Outcome Command)) × AsyncStreamAgent S :=
  match pollReadFrame a.stream with
  | (.ready result, stream) => (.ready (some result), { a with stream })
  | (.pending, stream) => (.pending, { a with stream })

/-- The commands that `n` successive polls of the stream yield. A poll that panics is the last. -/
def yields [AsyncRead S] : ℕ → AsyncStreamAgent S → List Command
  | 0, _ => []
  | n + 1, a =>
    match a.pollNext with
    | (.ready none, _) => []
    | (.ready (some (.ok cmd)), a) => cmd :: yields n a
    | (.ready (some (.error (.error _))), a) => yields n a
    | (.ready (some (.error .panic)), _) => []
    | (.pending, a) => yields n a

end AsyncStreamAgent

/-! ## One poll -/

/-- How one poll of a new future of `read_frame` ends. -/
inductive FramePolled (s : Source) : Poll (Outcome Command) → Source → Prop
  /-- A frame has come. -/
  | ready {cmd : Command} {s' : Source} :
      s.bytes = cmd.frame ++ s'.bytes → s'.pendings.map (· + cmd.frame.length) = s.pendings →
      FramePolled s (.ready (.ok cmd)) s'
  /-- A `Pending` has come, and the bytes before it are lost. -/
  | pending {lost : List UInt8} {s' : Source} :
      s.bytes = lost ++ s'.bytes → s.pendings = lost.length :: s'.pendings.map (· + lost.length) →
      FramePolled s .pending s'
  /-- The source has ended. -/
  | ended {kind : ErrorKind} {s' : Source} :
      s.pendings = [] → s'.answers = [] → FramePolled s (.ready (.error (.error kind))) s'
  /-- What has come is no frame. -/
  | panicked {lost : List UInt8} {s' : Source} :
      s.bytes = lost ++ s'.bytes → lost ≠ [] → FramePolled s (.ready (.error .panic)) s'

section Source

variable {s : Source}

/-- How one poll of a new future of `read_frame` ends. -/
theorem pollReadFrame_cases (s : Source) :
    FramePolled s (pollReadFrame s).1 (pollReadFrame s).2 := by
  have hpolled₁ := Source.pollReadExact_cases s 1
  unfold pollReadFrame
  revert hpolled₁
  cases pollReadExact s 1 with
  | mk r₁ s₁ =>
  intro hpolled₁
  cases hpolled₁ with
  | pending hbytes _ hpendings _ => exact .pending hbytes hpendings
  | ended _ hpendings hnil _ => exact .ended hpendings hnil
  | @ready tagByte s₁ hbytes₁ hlength₁ hpendings₁ hfailure₁ =>
  simp only
  rw [← hlength₁] at hpendings₁
  have hpolled₂ := (Source.pollReadExact_cases s₁ 4).append hbytes₁ hpendings₁ hfailure₁
  revert hpolled₂
  cases pollReadExact s₁ 4 with
  | mk r₂ s₂ =>
  rintro (⟨lenBytes, rfl, hpolled₂⟩ | ⟨rfl | ⟨e, rfl⟩, hpolled₂⟩)
  rotate_left
  · cases hpolled₂ with
    | pending hbytes _ hpendings _ => exact .pending hbytes hpendings
  · cases hpolled₂ with
    | ended _ hpendings hnil _ => exact .ended hpendings hnil
  cases hpolled₂ with
  | ready hbytes₂ hlength₂ hpendings₂ hfailure₂ =>
  simp only
  rw [← hlength₂] at hpendings₂
  have hpolled₃ := (Source.pollReadExact_cases s₂ (fromBeBytes lenBytes)).append hbytes₂ hpendings₂
    hfailure₂
  revert hpolled₃
  cases pollReadExact s₂ (fromBeBytes lenBytes) with
  | mk r₃ s₃ =>
  rintro (⟨msgBytes, rfl, hpolled₃⟩ | ⟨rfl | ⟨e, rfl⟩, hpolled₃⟩)
  rotate_left
  · cases hpolled₃ with
    | pending hbytes _ hpendings _ => exact .pending hbytes hpendings
  · cases hpolled₃ with
    | ended _ hpendings hnil _ => exact .ended hpendings hnil
  cases hpolled₃ with
  | ready hbytes₃ hlength₃ hpendings₃ hfailure₃ =>
  simp only
  obtain ⟨tag, rfl⟩ := List.length_eq_one_iff.mp hlength₁
  simp only [List.length_append, List.length_singleton] at hlength₂ hlength₃
  show FramePolled s (.ready (commandOf tag msgBytes)) s₃
  cases hcommand : commandOf tag msgBytes with
  | error e =>
    obtain rfl := eq_panic_of_commandOf_eq_error hcommand
    exact .panicked hbytes₃ (by simp)
  | ok cmd =>
    obtain ⟨htag, hmsg⟩ := eq_of_commandOf_eq_ok hcommand
    have hframe : [tag] ++ lenBytes ++ msgBytes = cmd.frame := by
      have hlen : (asBytes cmd.payload).length = fromBeBytes lenBytes := by
        rw [← hmsg]
        omega
      rw [Command.frame, hlen, toBeBytes_fromBeBytes (by omega), ← htag, ← hmsg]
      simp
    refine .ready ?_ ?_
    · rw [← hframe]
      exact hbytes₃
    · rw [← hframe, ← hpendings₃, List.length_append, List.length_append, List.length_singleton]
      apply List.map_congr_left
      intro p _
      omega

/-- Without a `Pending` in the frame, a poll returns its command. -/
theorem pollReadFrame_of_smooth {cmd : Command} (hfits : cmd.Fits) {rest : List UInt8}
    (hbytes : s.bytes = cmd.frame ++ rest) (hsmooth : ∀ p ∈ s.pendings, cmd.frame.length ≤ p) :
    ∃ s', pollReadFrame s = (.ready (.ok cmd), s') ∧ s'.bytes = rest ∧
      s'.pendings.map (· + cmd.frame.length) = s.pendings := by
  have hsplit : cmd.frame = [cmd.tag] ++ toBeBytes (asBytes cmd.payload).length ++
      asBytes cmd.payload := by
    simp [Command.frame]
  rw [hsplit, List.append_assoc, List.append_assoc] at hbytes
  obtain ⟨s₁, hpoll₁, hbytes₁, hpendings₁⟩ := Source.pollReadExact_of_smooth hbytes (by
    intro p hp
    have := hsmooth p hp
    rw [cmd.length_frame] at this
    simp only [List.length_singleton]
    omega)
  obtain ⟨s₂, hpoll₂, hbytes₂, hpendings₂⟩ := Source.pollReadExact_of_smooth hbytes₁ (by
    intro p hp
    have := hsmooth (p + 1) (hpendings₁ ▸ List.mem_map.mpr ⟨p, hp, rfl⟩)
    rw [cmd.length_frame] at this
    rw [length_toBeBytes]
    omega)
  obtain ⟨s₃, hpoll₃, hbytes₃, hpendings₃⟩ := Source.pollReadExact_of_smooth hbytes₂ (by
    intro p hp
    have hp₁ : p + 4 ∈ s₁.pendings := hpendings₂ ▸ List.mem_map.mpr ⟨p, hp, rfl⟩
    have := hsmooth (p + 4 + 1) (hpendings₁ ▸ List.mem_map.mpr ⟨p + 4, hp₁, rfl⟩)
    rw [cmd.length_frame] at this
    omega)
  rw [List.length_singleton] at hpoll₁
  rw [length_toBeBytes] at hpoll₂
  refine ⟨s₃, ?_, hbytes₃, ?_⟩
  · rw [pollReadFrame, hpoll₁]
    simp only
    rw [hpoll₂]
    simp only
    rw [fromBeBytes_toBeBytes hfits, hpoll₃]
    simp only [List.headD_cons, commandOf_tag_payload]
  · rw [← hpendings₁, ← hpendings₂, ← hpendings₃, List.map_map, List.map_map]
    apply List.map_congr_left
    intro p _
    show p + cmd.frame.length = p + _ + _ + _
    rw [cmd.length_frame, length_toBeBytes, List.length_singleton]
    omega

end Source

/-! ## The stream -/

/-- A `Pending` comes between two frames of these commands, before all, or after all of them. -/
def BetweenFrames (cmds : List Command) (p : ℕ) : Prop :=
  ∃ k ≤ cmds.length, p = (frames (cmds.take k)).length

instance (cmds : List Command) (p : ℕ) : Decidable (BetweenFrames cmds p) :=
  inferInstanceAs (Decidable (∃ k ≤ cmds.length, _))

namespace AsyncStreamAgent

variable {a : AsyncStreamAgent Source} {cmds : List Command} {n : ℕ}

/-- What is yielded has come. -/
theorem length_frames_yields_le (n : ℕ) (a : AsyncStreamAgent Source) :
    (frames (a.yields n)).length ≤ a.stream.bytes.length := by
  induction n generalizing a with
  | zero => exact Nat.zero_le _
  | succ n ih =>
    have hcases := pollReadFrame_cases a.stream
    unfold yields pollNext
    revert hcases
    cases pollReadFrame a.stream with
    | mk result stream =>
    intro hcases
    cases hcases with
    | ready hbytes _ =>
      have hrest := ih { a with stream }
      simp only [frames_cons, hbytes, List.length_append] at hrest ⊢
      omega
    | pending hbytes _ =>
      have hrest := ih { a with stream }
      simp only [hbytes, List.length_append] at hrest ⊢
      omega
    | ended _ hnil =>
      have hrest := ih { a with stream }
      have hempty : stream.bytes = [] := by
        rw [Source.bytes, show stream.answers = [] from hnil]
        rfl
      simp only [hempty, List.length_nil] at hrest ⊢
      omega
    | panicked _ _ => exact Nat.zero_le _

/-- Where all that has come is yielded, each `Pending` has come between two frames. -/
theorem betweenFrames_of_yields (h : a.stream.bytes.length ≤ (frames (a.yields n)).length) {p : ℕ}
    (hp : p ∈ a.stream.pendings) : BetweenFrames (a.yields n) p := by
  induction n generalizing a p with
  | zero =>
    have hle := Source.le_length_of_mem_pendings hp
    exact ⟨0, le_rfl, Nat.le_zero.mp (hle.trans h)⟩
  | succ n ih =>
    have hcases := pollReadFrame_cases a.stream
    unfold yields pollNext at h ⊢
    revert hcases h
    cases pollReadFrame a.stream with
    | mk result stream =>
    intro hcases h
    cases hcases with
    | @ready cmd _ hbytes hpendings =>
      simp only [frames_cons, hbytes, List.length_append] at h ⊢
      rw [← hpendings] at hp
      obtain ⟨q, hq, rfl⟩ := List.mem_map.mp hp
      obtain ⟨k, hk, rfl⟩ := ih (a := { a with stream }) (by simpa using h) hq
      refine ⟨k + 1, by simpa using hk, ?_⟩
      rw [List.take_succ_cons, frames_cons, List.length_append]
      omega
    | @pending lost _ hbytes hpendings =>
      -- nothing has been lost before the `Pending`
      have hle := length_frames_yields_le n { a with stream }
      simp only [hbytes, List.length_append] at h hle ⊢
      have hlost : lost.length = 0 := by omega
      rw [hpendings, hlost] at hp
      rcases List.mem_cons.mp hp with rfl | hp
      · exact ⟨0, Nat.zero_le _, rfl⟩
      · obtain ⟨q, hq, rfl⟩ := List.mem_map.mp hp
        exact ih (a := { a with stream }) (by show stream.bytes.length ≤ _; omega) hq
    | ended hpendings _ => simp [hpendings] at hp
    | panicked _ _ =>
      have hle := Source.le_length_of_mem_pendings hp
      exact ⟨0, Nat.zero_le _, Nat.le_zero.mp (hle.trans h)⟩

/-- A source without any bytes yields nothing. -/
theorem yields_of_answers_nil (h : a.stream.answers = []) (n : ℕ) : a.yields n = [] := by
  have hbytes : a.stream.bytes = [] := by
    rw [Source.bytes, h]
    rfl
  have hle := length_frames_yields_le n a
  rw [hbytes] at hle
  cases hyields : a.yields n with
  | nil => rfl
  | cons cmd cmds => simp [hyields, Command.length_frame] at hle

/-- Where each `Pending` comes between two frames, all commands are yielded. -/
theorem yields_of_betweenFrames (hfits : ∀ cmd ∈ cmds, cmd.Fits)
    (hbytes : a.stream.bytes = frames cmds)
    (hbetween : ∀ p ∈ a.stream.pendings, BetweenFrames cmds p) :
    ∃ m, ∀ n, m ≤ n → a.yields n = cmds := by
  induction hm : a.stream.bytes.length + a.stream.pendings.length using Nat.strong_induction_on
    generalizing a cmds with
  | _ m ih =>
    match hanswers : a.stream.answers with
    | [] =>
      have hnil : frames cmds = [] := by
        rw [← hbytes, Source.bytes, hanswers]
        rfl
      have hcmds : cmds = [] := by
        cases cmds with
        | nil => rfl
        | cons cmd cmds => simp [Command.frame] at hnil
      exact ⟨0, fun n _ => hcmds ▸ yields_of_answers_nil hanswers n⟩
    | .pending :: answers =>
      have hpoll : pollReadFrame a.stream = (.pending, { a.stream with answers }) := by
        have hread : AsyncRead.pollRead a.stream 1 = (.pending, { a.stream with answers }) := by
          show a.stream.pollRead 1 = _
          rw [Source.pollRead, hanswers]
        rw [pollReadFrame, pollReadExact, dif_neg one_ne_zero, hread]
      have hpendings : a.stream.pendings = 0 :: pendings answers := by
        rw [Source.pendings, hanswers]
        rfl
      have hsame : (⟨answers, a.stream.failure⟩ : Source).bytes = a.stream.bytes := by
        rw [Source.bytes, Source.bytes, hanswers]
        rfl
      obtain ⟨m, hyields⟩ := ih (a.stream.bytes.length + (pendings answers).length)
        (by rw [← hm, hpendings]; simp) (a := { a with stream := { a.stream with answers } }) hfits
        (hsame.trans hbytes) (fun p hp => hbetween p (hpendings ▸ List.mem_cons_of_mem 0 hp))
        (by rw [hsame]; rfl)
      refine ⟨m + 1, ?_⟩
      intro n hn
      obtain ⟨n, rfl⟩ := Nat.exists_eq_add_of_le' (Nat.one_le_of_lt hn)
      rw [yields, pollNext, hpoll]
      exact hyields n (by omega)
    | .piece b bs :: answers =>
      cases cmds with
      | nil => simp [Source.bytes, hanswers, Answer.bytes] at hbytes
      | cons cmd cmds =>
        -- no `Pending` comes before the end of the first frame
        have hpos : ∀ p ∈ a.stream.pendings, 0 < p := by
          intro p hp
          rw [Source.pendings, hanswers] at hp
          obtain ⟨q, -, rfl⟩ := List.mem_map.mp hp
          omega
        have hsmooth : ∀ p ∈ a.stream.pendings, cmd.frame.length ≤ p := by
          intro p hp
          obtain ⟨k, -, rfl⟩ := hbetween p hp
          cases k with
          | zero => exact absurd (hpos _ hp) (lt_irrefl 0)
          | succ k => simp
        have hfirst : a.stream.bytes = cmd.frame ++ frames cmds := hbytes
        obtain ⟨stream, hpoll, hrest, hpendings⟩ :=
          pollReadFrame_of_smooth (hfits cmd (by simp)) hfirst hsmooth
        have hlength : a.stream.bytes.length = cmd.frame.length + stream.bytes.length := by
          rw [hfirst, List.length_append, hrest]
        have hbetween' : ∀ p ∈ stream.pendings, BetweenFrames cmds p := by
          intro p hp
          obtain ⟨k, hk, heq⟩ := hbetween _ (hpendings ▸ List.mem_map.mpr ⟨p, hp, rfl⟩)
          cases k with
          | zero =>
            have hzero : p + cmd.frame.length = 0 := heq
            have := cmd.length_frame
            omega
          | succ k =>
            refine ⟨k, by simpa using hk, ?_⟩
            rw [List.take_succ_cons, frames_cons, List.length_append] at heq
            omega
        obtain ⟨m, hyields⟩ := ih (stream.bytes.length + stream.pendings.length)
          (by rw [← hm, hlength, ← hpendings, List.length_map, cmd.length_frame]; omega)
          (a := { a with stream }) (fun c hc => hfits c (List.mem_cons_of_mem _ hc)) hrest hbetween'
          rfl
        refine ⟨m + 1, ?_⟩
        intro n hn
        obtain ⟨n, rfl⟩ := Nat.exists_eq_add_of_le' (Nat.one_le_of_lt hn)
        rw [yields, pollNext, hpoll]
        exact congrArg (cmd :: ·) (hyields n (by omega))

/-- **The stream yields the commands that have been sent** if and only if a `Pending` never comes in
the middle of a frame. -/
theorem yields_iff {cmds : List Command} (hfits : ∀ cmd ∈ cmds, cmd.Fits) {s : Source}
    (hbytes : s.bytes = frames cmds) :
    (∃ m, ∀ n, m ≤ n → (new s).yields n = cmds) ↔ ∀ p ∈ s.pendings, BetweenFrames cmds p := by
  constructor
  · rintro ⟨m, hyields⟩ p hp
    have hm := hyields m le_rfl
    have hbetween : BetweenFrames ((new s).yields m) p :=
      betweenFrames_of_yields (by rw [hm, ← hbytes]; rfl) hp
    rwa [hm] at hbetween
  · exact yields_of_betweenFrames (a := new s) hfits hbytes

/-- A `Pending` between two frames, of which the second one comes in two pieces. -/
theorem yields_iff_two : ∃ m, ∀ n, m ≤ n →
    (new (⟨[.piece 0 [0, 0, 0, 1, 65], .pending, .piece 1 [0, 0], .piece 0 [0]], none⟩ : Source)).yields
      n = [.name "A", .message ""] :=
  (yields_iff (by decide) (by decide +kernel)).mpr (by decide)

/-- **A `Pending` in the middle of a frame loses bytes**: of these two commands, none is yielded. -/
theorem yields_loses_bytes :
    ¬ ∀ (cmds : List Command) (s : Source), (∀ cmd ∈ cmds, cmd.Fits) → s.bytes = frames cmds →
      ∃ m, ∀ n, m ≤ n → (new s).yields n = cmds := by
  intro h
  have hyields := h [.name "A", .message ""]
    ⟨[.piece 0 [0, 0], .pending, .piece 0 [1, 65, 1, 0, 0, 0, 0]], none⟩ (by decide)
    (by decide +kernel)
  have hbetween := (yields_iff (by decide) (by decide +kernel)).mp hyields 3 (by decide)
  exact absurd hbetween (by decide)

end AsyncStreamAgent

end Groupchat
