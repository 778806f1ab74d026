import RustPractices.Groupchat.StreamAgent

/-!
# The event server's handling of a client

A readiness event of a client reads what has arrived into the client's agent, decodes commands
until decoding fails, and queues one server command for each; a failure to read queues the
client's departure. A writable event flushes the agent.

A decoding that runs into the end of the read buffer has consumed what it read, so the decoding
loop takes the whole frames at the front of the buffer and loses the rest of it.

## Main definitions

* `handleClientEvent`: the handling of one event
* `decodeLoop`: its decoding loop
* `replies`: the server commands for a sequence of commands

## Main results

* `decodeLoop_frames`: a read buffer of whole frames is decoded completely
* `exists_of_decodeLoop_eq_ok`: what is decoded are the frames at the front, and the rest is lost
* `replies_injective`: the replies to a sequence of commands determine the commands
-/

open Io

namespace Groupchat

universe u

/-- `mio::Token`. -/
structure Token where
  id : ℕ
  deriving DecidableEq, Repr

/-- What the server has to do. -/
inductive ServerCmd (S : Type u)
  | announcement (msg : String)
  | broadcast (src : Token) (msg : String)
  | connect (stream : S)
  | disconnect (token : Token)
  deriving DecidableEq

structure Client (S : Type u) where
  name : String
  stream : StreamAgent S

/-- `Client::new`. -/
def Client.new {S : Type u} (stream : StreamAgent S) : Client S := { name := "", stream }

/-- A readiness event. -/
structure Event where
  token : Token
  readable : Bool
  writable : Bool
  deriving DecidableEq, Repr

variable {S : Type u}

/-- The body of the decoding loop: the client after a command, and the server command pushed for
it. -/
def Client.respond (client : Client S) (token : Token) : Command → Client S × ServerCmd S
  | .name name =>
    let oldName := client.name
    if oldName ≠ name then
      let client := { client with name }
      if oldName = "" then (client, .announcement ("----- Welcome, " ++ name ++ " -----"))
      else
        (client, .announcement ("----- " ++ oldName ++ " changed name to 👉 " ++ name ++ " -----"))
    else (client, .announcement ("----- Welcome again, " ++ name ++ " -----"))
  | .message msg => (client, .broadcast token (client.name ++ ": " ++ msg))

@[simp] theorem respond_stream (client : Client S) (token : Token) (cmd : Command) :
    (client.respond token cmd).1.stream = client.stream := by
  cases cmd with
  | message msg => rfl
  | name newName =>
    simp only [Client.respond]
    split_ifs <;> rfl

/-- `while let Ok(cmd) = client.stream.decode()`. -/
def decodeLoop (token : Token) (client : Client S) (channel : List (ServerCmd S)) :
    Outcome (Client S × List (ServerCmd S)) :=
  match _h : decode client.stream with
  | (.ok cmd, stream) =>
    let next := Client.respond { client with stream } token cmd
    decodeLoop token next.1 (channel ++ [next.2])
  | (.error (.error _), stream) => .ok ({ client with stream }, channel)
  | (.error .panic, _) => panicked
termination_by client.stream.reader.buf.length
decreasing_by
  have hlen := congrArg List.length (StreamAgent.eq_of_decode_agent_eq_ok _h).2.1
  rw [List.length_append, Command.length_frame] at hlen
  rw [respond_stream, hlen]
  simp only
  omega

/-- The part of `handle_client_event` for a readable event. -/
def handleReadable [ReadToEnd S] (token : Token) (client : Client S)
    (channel : List (ServerCmd S)) : Outcome (Client S × List (ServerCmd S)) :=
  match client.stream.readFromStream with
  | (.ok (), stream) => decodeLoop token { client with stream } channel
  | (.error (.error _), stream) => .ok ({ client with stream }, channel ++ [.disconnect token])
  | (.error .panic, _) => panicked

/-- The part of `handle_client_event` for a writable event. -/
def handleWritable [Write S] (token : Token) (client : Client S) (channel : List (ServerCmd S)) :
    Outcome (Client S × List (ServerCmd S)) :=
  match client.stream.flush with
  | (.ok (), stream) => .ok ({ client with stream }, channel)
  | (.error (.error _), stream) => .ok ({ client with stream }, channel ++ [.disconnect token])
  | (.error .panic, _) => panicked

/-- `handle_client_event`. -/
def handleClientEvent [ReadToEnd S] [Write S] (client : Client S) (event : Event)
    (channel : List (ServerCmd S)) : Outcome (Client S × List (ServerCmd S)) := do
  let (client, channel) ←
    if event.readable then handleReadable event.token client channel else .ok (client, channel)
  if event.writable then handleWritable event.token client channel else .ok (client, channel)

/-! ## Replies -/

/-- The server command for a command of the client `name`. -/
def reply (token : Token) (name : String) : Command → ServerCmd S
  | .name newName =>
    if name ≠ newName then
      if name = "" then .announcement ("----- Welcome, " ++ newName ++ " -----")
      else .announcement ("----- " ++ name ++ " changed name to 👉 " ++ newName ++ " -----")
    else .announcement ("----- Welcome again, " ++ newName ++ " -----")
  | .message msg => .broadcast token (name ++ ": " ++ msg)

/-- The name of the client after a command. -/
def rename (name : String) : Command → String
  | .name newName => newName
  | .message _ => name

/-- The server commands for a sequence of commands of the client `name`. -/
def replies (token : Token) (name : String) : List Command → List (ServerCmd S)
  | [] => []
  | cmd :: cmds => reply token name cmd :: replies token (rename name cmd) cmds

theorem replies_append (token : Token) (name : String) (cmds cmds' : List Command) :
    (replies token name (cmds ++ cmds') : List (ServerCmd S)) =
      replies token name cmds ++ replies token (cmds.foldl rename name) cmds' := by
  induction cmds generalizing name with
  | nil => rfl
  | cons cmd cmds ih => simp [replies, ih]

theorem respond_eq (client : Client S) (token : Token) (cmd : Command) :
    client.respond token cmd =
      ({ client with name := rename client.name cmd }, reply token client.name cmd) := by
  obtain ⟨name, stream⟩ := client
  cases cmd with
  | message msg => rfl
  | name newName =>
    simp only [Client.respond, reply, rename]
    split_ifs with h
    · rfl
    · rfl
    · rw [not_not.mp h]

/-- The announcements of a first name and of a repeated name differ. -/
theorem welcome_ne_welcomeAgain (a b : String) :
    "----- Welcome, " ++ a ++ " -----" ≠ "----- Welcome again, " ++ b ++ " -----" := by
  intro h
  have := congrArg String.toList h
  simp [String.toList_append] at this

/-- The announcements of a changed name and of a repeated name differ, by their lengths. -/
theorem changed_ne_welcomeAgain (a b : String) :
    "----- " ++ a ++ " changed name to 👉 " ++ b ++ " -----" ≠
      "----- Welcome again, " ++ a ++ " -----" := by
  intro h
  have := congrArg String.length h
  simp only [String.length_append] at this
  have h₁ : "----- ".length = 6 := by decide
  have h₂ : " changed name to 👉 ".length = 19 := by decide
  have h₃ : " -----".length = 6 := by decide
  have h₄ : "----- Welcome again, ".length = 21 := by decide
  omega

/-- Two announcements to the client `name` agree only on the same new name. -/
theorem reply_name_injective {token : Token} {name n₁ n₂ : String}
    (h : (reply token name (.name n₁) : ServerCmd S) = reply token name (.name n₂)) : n₁ = n₂ := by
  simp only [reply] at h
  split_ifs at h with h₁ h₂ h₃ h₃ h₂ h₃ <;> simp only [ServerCmd.announcement.injEq] at h
  · simpa using h
  · exact absurd h (welcome_ne_welcomeAgain _ _)
  · simpa using h
  · exact absurd (not_not.mp h₃ ▸ h) (changed_ne_welcomeAgain _ _)
  · exact absurd h.symm (welcome_ne_welcomeAgain _ _)
  · exact absurd (not_not.mp h₁ ▸ h.symm) (changed_ne_welcomeAgain _ _)
  · simpa using h

theorem reply_injective (token : Token) (name : String) :
    Function.Injective (reply token name : Command → ServerCmd S) := by
  rintro (n₁ | m₁) (n₂ | m₂) h
  · rw [reply_name_injective h]
  · simp only [reply] at h
    split_ifs at h
  · simp only [reply] at h
    split_ifs at h
  · simpa [reply] using h

/-- The replies to a sequence of commands determine the commands. -/
theorem replies_injective {token : Token} {name : String} {cmds cmds' : List Command}
    (h : (replies token name cmds : List (ServerCmd S)) = replies token name cmds') :
    cmds = cmds' := by
  induction cmds generalizing name cmds' with
  | nil =>
    cases cmds' with
    | nil => rfl
    | cons cmd' cmds' => simp [replies] at h
  | cons cmd cmds ih =>
    cases cmds' with
    | nil => simp [replies] at h
    | cons cmd' cmds' =>
      obtain ⟨hcmd, hcmds⟩ := List.cons.inj h
      obtain rfl := reply_injective token name hcmd
      rw [ih hcmds]

theorem disconnect_notMem_replies (token token' : Token) (name : String) (cmds : List Command) :
    ServerCmd.disconnect token' ∉ (replies token name cmds : List (ServerCmd S)) := by
  induction cmds generalizing name with
  | nil => simp [replies]
  | cons cmd cmds ih =>
    simp only [replies, List.mem_cons, not_or]
    refine ⟨?_, ih _⟩
    cases cmd <;> simp only [reply]
    · split_ifs <;> simp
    · simp

/-! ## The decoding loop -/

/-- The client after a sequence of commands that its agent has decoded. -/
def Client.afterDecoding (client : Client S) (cmds : List Command) : Client S where
  name := cmds.foldl rename client.name
  stream := { client.stream with reader := {} }

/-- The frames in front of a read buffer are decoded one after the other. -/
theorem decodeLoop_frames_append {token : Token} {cmds : List Command} {rest : List UInt8}
    (hfits : ∀ cmd ∈ cmds, cmd.Fits) {client : Client S} {channel : List (ServerCmd S)}
    (hbuf : client.stream.reader.buf = frames cmds ++ rest) : decodeLoop token client channel =
      decodeLoop token
        { name := cmds.foldl rename client.name
          stream := { client.stream with reader := { buf := rest } } }
        (channel ++ replies token client.name cmds) := by
  induction cmds generalizing client channel with
  | nil =>
    obtain ⟨name, stream, ⟨buf⟩, writer⟩ := client
    obtain rfl : buf = rest := hbuf
    rw [replies, List.append_nil]
    rfl
  | cons cmd cmds ih =>
    have hdecode : decode client.stream =
        (.ok cmd, { client.stream with reader := { buf := frames cmds ++ rest } }) := by
      rw [StreamAgent.decode_agent, hbuf, frames_cons, List.append_assoc,
        parse_frame_append (hfits cmd List.mem_cons_self)]
    rw [decodeLoop]
    split
    · next cmd' stream hok =>
      obtain ⟨hcmd, rfl⟩ := Prod.mk.inj (hdecode.symm.trans hok)
      obtain rfl := Except.ok.inj hcmd
      simp only [respond_eq]
      rw [ih (fun c hc => hfits c (List.mem_cons_of_mem _ hc)) rfl, List.append_assoc]
      rfl
    · next herror => cases (Prod.mk.inj (hdecode.symm.trans herror)).1
    · next hpanic => cases (Prod.mk.inj (hdecode.symm.trans hpanic)).1

/-- A read buffer of whole frames is decoded completely. -/
theorem decodeLoop_frames (token : Token) {cmds : List Command} (hfits : ∀ cmd ∈ cmds, cmd.Fits)
    (client : Client S) (channel : List (ServerCmd S))
    (hbuf : client.stream.reader.buf = frames cmds) :
    decodeLoop token client channel =
      .ok (client.afterDecoding cmds, channel ++ replies token client.name cmds) := by
  rw [decodeLoop_frames_append hfits (hbuf.trans (List.append_nil _).symm)]
  have hdecode : decode ({ client.stream with reader := { buf := [] } } : StreamAgent S) =
      (err .unexpectedEof, { client.stream with reader := {} }) := by
    rw [StreamAgent.decode_agent, parse_nil]
  rw [decodeLoop]
  split
  · next hok => cases (Prod.mk.inj (hdecode.symm.trans hok)).1
  · next herror =>
    obtain ⟨-, rfl⟩ := Prod.mk.inj (hdecode.symm.trans herror)
    rfl
  · next hpanic => cases (Prod.mk.inj (hdecode.symm.trans hpanic)).1

/-- What the loop decodes from a read buffer are the frames at its front; the rest is lost. -/
theorem exists_of_decodeLoop_eq_ok {token : Token} {client client' : Client S}
    {channel channel' : List (ServerCmd S)}
    (h : decodeLoop token client channel = .ok (client', channel')) :
    ∃ cmds lost, (∀ cmd ∈ cmds, cmd.Fits) ∧ client.stream.reader.buf = frames cmds ++ lost ∧
      client' = client.afterDecoding cmds ∧
      channel' = channel ++ replies token client.name cmds := by
  induction hlen : client.stream.reader.buf.length using Nat.strong_induction_on
    generalizing client channel with
  | _ len ih =>
    rw [decodeLoop] at h
    split at h
    · next cmd stream hdecode =>
      obtain ⟨hfits, hbuf, hstream⟩ := StreamAgent.eq_of_decode_agent_eq_ok hdecode
      simp only [respond_eq] at h
      have hlt : stream.reader.buf.length < len := by
        rw [← hlen, hbuf, List.length_append, Command.length_frame]
        omega
      obtain ⟨cmds, lost, hcmds, hrest, rfl, rfl⟩ := ih _ hlt h rfl
      refine ⟨cmd :: cmds, lost, ?_, ?_, ?_, ?_⟩
      · intro c hc
        rcases List.mem_cons.mp hc with rfl | hc
        · exact hfits
        · exact hcmds c hc
      · rw [hbuf, frames_cons, List.append_assoc]
        exact congrArg (cmd.frame ++ ·) hrest
      · simp only [Client.afterDecoding, List.foldl_cons]
        rw [hstream]
      · simp [replies]
    · next kind stream hdecode =>
      obtain ⟨rfl, rfl⟩ := Prod.mk.inj (Except.ok.inj h)
      rw [StreamAgent.decode_agent] at hdecode
      obtain ⟨hparse, rfl⟩ := Prod.mk.inj hdecode
      have hrest := rest_eq_nil_of_parse_eq_err (Prod.ext hparse rfl)
      exact ⟨[], client.stream.reader.buf, by simp, by simp,
        by simp [Client.afterDecoding, hrest], by simp [replies]⟩
    · simp [panicked] at h

end Groupchat
