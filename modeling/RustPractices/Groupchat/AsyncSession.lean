import RustPractices.Groupchat.AsyncStream

/-!
# The reader task of the asynchronous server

The broker spawns a task for each client that turns the commands of the client into server
commands. Its loop ends when the stream of commands ends, and the stream never ends: it yields an
error at every poll after the connection has failed or closed, and the task pushes a `Disconnect`
for each of them.

## Main definitions

* `readerTask`: what the task pushes while its stream is polled
* `SessionEnds`: the task announces the departure of its client once

## Main results

* `readerTask_of_answers_nil`: after the end of the connection, the task pushes `Disconnect` forever
* `not_sessionEnds`: the task never announces the departure of its client just once
-/

open Io

namespace Groupchat.AsyncServer

universe u

/-- `TaskId`. -/
structure TaskId where
  id : ℕ
  deriving DecidableEq, Repr

/-- What the broker has to do, as far as the reader tasks push it. -/
inductive ServerCmd
  | announcement (msg : String)
  | broadcast (id : TaskId) (msg : String)
  | disconnect (id : TaskId)
  deriving DecidableEq, Repr

/-- The body of the loop for a command: the name of the client after it, and the server command
that is pushed. -/
def respond (id : TaskId) (oldName : String) : Command → String × ServerCmd
  | .name name =>
    if oldName ≠ name then
      if oldName = "" then (name, .announcement ("----- Welcome, " ++ name ++ " -----"))
      else (name, .announcement ("----- " ++ oldName ++ " changed name to 👉 " ++ name ++ " -----"))
    else (oldName, .announcement ("----- Welcome again, " ++ name ++ " -----"))
  | .message msg => (oldName, .broadcast id (oldName ++ ": " ++ msg))

/-- What the reader task of a client pushes while its stream is polled `n` times. The loop goes on
as long as the stream yields something; a poll that panics ends the task. -/
def readerTask {S : Type u} [AsyncRead S] (id : TaskId) :
    ℕ → String → AsyncStreamAgent S → List ServerCmd
  | 0, _, _ => []
  | n + 1, name, rdStream =>
    match rdStream.pollNext with
    | (.pending, rdStream) => readerTask id n name rdStream
    | (.ready none, _) => []
    | (.ready (some (.ok cmd)), rdStream) =>
      (respond id name cmd).2 :: readerTask id n (respond id name cmd).1 rdStream
    | (.ready (some (.error (.error _))), rdStream) =>
      .disconnect id :: readerTask id n name rdStream
    | (.ready (some (.error .panic)), _) => []

/-- The server commands for a sequence of commands of the client `name`. -/
def responses (id : TaskId) (name : String) : List Command → List ServerCmd
  | [] => []
  | cmd :: cmds => (respond id name cmd).2 :: responses id (respond id name cmd).1 cmds

/-- The task pushes one server command for each command that it decodes, then announces the
departure of the client once, and does nothing more. -/
def SessionEnds {S : Type u} [AsyncRead S] (id : TaskId) (rdStream : AsyncStreamAgent S) : Prop :=
  ∃ cmds m, ∀ n, m ≤ n →
    readerTask id n "" rdStream = responses id "" cmds ++ [.disconnect id]

variable {id : TaskId} {name : String} {rdStream : AsyncStreamAgent Source}

theorem respond_ne_disconnect (id : TaskId) (name : String) (cmd : Command) :
    (respond id name cmd).2 ≠ .disconnect id := by
  cases cmd with
  | name newName =>
    unfold respond
    dsimp only
    split_ifs <;> simp
  | message msg => simp [respond]

/-- **After the end of the connection**, the task pushes `Disconnect` at every poll. -/
theorem readerTask_of_answers_nil (h : rdStream.stream.answers = []) (n : ℕ) :
    readerTask id n name rdStream = List.replicate n (.disconnect id) := by
  induction n generalizing rdStream with
  | zero => rfl
  | succ n ih =>
    have hbytes : rdStream.stream.bytes = [] := by
      rw [Source.bytes, h]
      rfl
    have hpendings : rdStream.stream.pendings = [] := by
      rw [Source.pendings, h]
      rfl
    have hcases := pollReadFrame_cases rdStream.stream
    unfold readerTask AsyncStreamAgent.pollNext
    revert hcases
    cases pollReadFrame rdStream.stream with
    | mk result stream =>
    intro hcases
    cases hcases with
    | ready hframe _ => simp [hbytes, Command.frame] at hframe
    | pending _ hpending => simp [hpendings] at hpending
    | panicked hlost hne => simp [hbytes, hne] at hlost
    | ended _ hnil =>
      rw [List.replicate_succ]
      exact congrArg (ServerCmd.disconnect id :: ·) (ih hnil)

/-- The task panics before it has pushed any `Disconnect`, or it pushes more and more. -/
theorem readerTask_dichotomy (name : String) (rdStream : AsyncStreamAgent Source) :
    (∀ n, .disconnect id ∉ readerTask id n name rdStream) ∨
      ∃ m, ∀ n, n ≤ (readerTask id (m + n) name rdStream).length := by
  induction hm : rdStream.stream.bytes.length + rdStream.stream.pendings.length
    using Nat.strong_induction_on generalizing name rdStream with
  | _ m ih =>
    have hcases := pollReadFrame_cases rdStream.stream
    obtain ⟨result, stream, hpoll⟩ : ∃ result stream,
      pollReadFrame rdStream.stream = (result, stream) := ⟨_, _, rfl⟩
    rw [hpoll] at hcases
    dsimp only at hcases
    cases hcases with
    | @ready cmd _ hbytes hpendings =>
      have hstep : ∀ n, readerTask id (n + 1) name rdStream = (respond id name cmd).2 ::
          readerTask id n (respond id name cmd).1 { rdStream with stream } := by
        intro n
        rw [readerTask, AsyncStreamAgent.pollNext, hpoll]
      have hlt : stream.bytes.length + stream.pendings.length < m := by
        rw [← hm, hbytes, ← hpendings, List.length_append, List.length_map, cmd.length_frame]
        omega
      rcases ih _ hlt (respond id name cmd).1 { rdStream with stream } rfl with hnone | ⟨k, hmany⟩
      · left
        intro n
        cases n with
        | zero => exact List.not_mem_nil
        | succ n =>
          rw [hstep]
          exact List.not_mem_cons_of_ne_of_not_mem (respond_ne_disconnect id name cmd).symm (hnone n)
      · refine .inr ⟨k + 1, ?_⟩
        intro n
        rw [Nat.add_right_comm, hstep]
        exact (hmany n).trans (Nat.le_succ _)
    | @pending lost _ hbytes hpendings =>
      have hstep : ∀ n, readerTask id (n + 1) name rdStream =
          readerTask id n name { rdStream with stream } := by
        intro n
        rw [readerTask, AsyncStreamAgent.pollNext, hpoll]
      have hlt : stream.bytes.length + stream.pendings.length < m := by
        rw [← hm, hbytes, hpendings, List.length_append, List.length_cons, List.length_map]
        omega
      rcases ih _ hlt name { rdStream with stream } rfl with hnone | ⟨k, hmany⟩
      · left
        intro n
        cases n with
        | zero => exact List.not_mem_nil
        | succ n =>
          rw [hstep]
          exact hnone n
      · refine .inr ⟨k + 1, ?_⟩
        intro n
        rw [Nat.add_right_comm, hstep]
        exact hmany n
    | ended _ hnil =>
      refine .inr ⟨1, ?_⟩
      intro n
      rw [Nat.add_comm, readerTask, AsyncStreamAgent.pollNext, hpoll]
      show n ≤ (readerTask id n name { rdStream with stream }).length + 1
      rw [readerTask_of_answers_nil hnil, List.length_replicate]
      exact Nat.le_succ n
    | panicked _ _ =>
      left
      intro n
      cases n with
      | zero => exact List.not_mem_nil
      | succ n =>
        rw [readerTask, AsyncStreamAgent.pollNext, hpoll]
        exact List.not_mem_nil

/-- **The task never announces the departure of its client just once**, whatever the client sends and
however its connection ends. -/
theorem not_sessionEnds (id : TaskId) (s : Source) :
    ¬ SessionEnds id (AsyncStreamAgent.new s) := by
  rintro ⟨cmds, m, hends⟩
  rcases @readerTask_dichotomy id "" (AsyncStreamAgent.new s) with hnone | ⟨k, hmany⟩
  · apply hnone m
    rw [hends m le_rfl]
    exact List.mem_append_right _ (List.mem_singleton_self _)
  · have hlength := hmany (m + (responses id "" cmds).length + 2)
    rw [hends _ (by omega), List.length_append, List.length_singleton] at hlength
    omega

/-- **A client that sends one message and closes its connection**: the task has pushed more than two
server commands after three polls. -/
theorem session_pushes_too_many :
    ¬ ∀ (id : TaskId) (cmds : List Command) (s : Source), s.bytes = frames cmds →
      ∀ n, (readerTask id n "" (AsyncStreamAgent.new s)).length ≤ cmds.length + 1 := by
  intro h
  have hle := h ⟨1⟩ [.message "A"] ⟨[.piece 1 [0, 0, 0, 1, 65]], none⟩ (by decide +kernel) 3
  have hpushed : readerTask ⟨1⟩ 3 ""
      (AsyncStreamAgent.new (⟨[.piece 1 [0, 0, 0, 1, 65]], none⟩ : Source)) =
      [.broadcast ⟨1⟩ ": A", .disconnect ⟨1⟩, .disconnect ⟨1⟩] := by
    decide +kernel
  rw [hpushed] at hle
  exact absurd hle (by decide)

end Groupchat.AsyncServer
