import RustPractices.Groupchat.EventServer

/-!
# Sessions of a client

A session is the handling of a sequence of readable events, into which the bytes that a client
sends before closing have been split. It should be the session in which the whole stream is
decoded at once. That is so if and only if every event ends with a frame and the end of file
comes alone: the part of a frame that an event delivers is lost when the rest comes with a later
event, and bytes that come together with the end of file leave the departure unqueued.

## Main definitions

* `session`: the handling of a sequence of events
* `arrivals`: a byte stream split into readable events
* `wholeSession`: the server commands of a sequence of commands, decoded at once

## Main results

* `session_of_whole`: a session whose events bring whole frames
* `exists_of_session_eq_ok`: what any session queues
* `session_iff`: when a session is the whole session
-/

open Io

namespace Groupchat

universe u

variable {S : Type u}

/-- The handling of a sequence of events. -/
def session [ReadToEnd S] [Write S] (client : Client S) (channel : List (ServerCmd S)) :
    List Event → Outcome (Client S × List (ServerCmd S))
  | [] => .ok (client, channel)
  | event :: events => do
    let (client, channel) ← handleClientEvent client event channel
    session client channel events

/-- The session in which the whole stream is decoded at once. -/
def wholeSession (token : Token) (cmds : List Command) : List (ServerCmd S) :=
  replies token "" cmds ++ [.disconnect token]

/-- A byte stream split into readable events: each brings some bytes and then would block, and
the last one is followed by end of file. -/
def arrivals (chunks : List (List UInt8)) (last : List UInt8) : List Arrival :=
  chunks.flatMap (fun chunk => [.bytes chunk, .wouldBlock]) ++ [.bytes last, .eof]

/-- A new client whose bytes arrive in `chunks`, with `last` at the end of file. -/
def sender (chunks : List (List UInt8)) (last : List UInt8) : Client Socket :=
  Client.new (StreamAgent.new { incoming := arrivals chunks last })

@[simp] theorem sender_name (chunks : List (List UInt8)) (last : List UInt8) :
    (sender chunks last).name = "" := rfl

/-- One readable event for every chunk, and one for the last. -/
def readableEvents (token : Token) (chunks : List (List UInt8)) : List Event :=
  List.replicate (chunks.length + 1) { token, readable := true, writable := false }

/-- The bytes are a sequence of frames. -/
def WholeFrames (bytes : List UInt8) : Prop :=
  ∃ cmds : List Command, (∀ cmd ∈ cmds, cmd.Fits) ∧ bytes = frames cmds

/-- The client when a readable event has been read in: its agent holds `bytes`, and `incoming`
is still to arrive. -/
def Client.received (client : Client Socket) (bytes : List UInt8) (incoming : List Arrival) :
    Client Socket :=
  { client with
    stream := { client.stream with
      stream := { client.stream.stream with incoming }
      reader := { buf := bytes } } }

theorem handleClientEvent_readable (client : Client S) [ReadToEnd S] [Write S] (token : Token)
    (channel : List (ServerCmd S)) :
    handleClientEvent client { token, readable := true, writable := false } channel =
      handleReadable token client channel := by
  unfold handleClientEvent
  simp only [if_true]
  cases handleReadable token client channel <;> rfl

/-- An event that brings a chunk and then would block decodes the chunk. -/
theorem handleReadable_chunk (token : Token) (client : Client Socket)
    (channel : List (ServerCmd Socket)) {chunk : List UInt8} {rest : List Arrival}
    (hin : client.stream.stream.incoming = .bytes chunk :: .wouldBlock :: rest)
    (hbuf : client.stream.reader.buf = []) :
    handleReadable token client channel =
      decodeLoop token (client.received chunk rest) channel := by
  have hread : client.stream.readFromStream = (.ok (), (client.received chunk rest).stream) := by
    simp [StreamAgent.readFromStream, ReadToEnd.readToEnd, hin, hbuf, Socket.readArrivals, err,
      Client.received]
  rw [handleReadable, hread]
  rfl

/-- An event that brings some last bytes together with the end of file decodes them. -/
theorem handleReadable_last (token : Token) (client : Client Socket)
    (channel : List (ServerCmd Socket)) {last : List UInt8} (hlast : last ≠ [])
    (hin : client.stream.stream.incoming = [.bytes last, .eof])
    (hbuf : client.stream.reader.buf = []) :
    handleReadable token client channel =
      decodeLoop token (client.received last [.eof]) channel := by
  obtain ⟨b, bs, rfl⟩ := List.exists_cons_of_ne_nil hlast
  have hread : client.stream.readFromStream =
      (.ok (), (client.received (b :: bs) [.eof]).stream) := by
    simp [StreamAgent.readFromStream, ReadToEnd.readToEnd, hin, hbuf, Socket.readArrivals,
      Client.received]
  rw [handleReadable, hread]
  rfl

/-- An event that brings the end of file alone queues the departure. -/
theorem handleReadable_eof (token : Token) (client : Client Socket)
    (channel : List (ServerCmd Socket))
    (hin : client.stream.stream.incoming = [.bytes [], .eof])
    (hbuf : client.stream.reader.buf = []) :
    handleReadable token client channel =
      .ok (client.received [] [.eof], channel ++ [.disconnect token]) := by
  have hread : client.stream.readFromStream =
      (err .unexpectedEof, (client.received [] [.eof]).stream) := by
    simp [StreamAgent.readFromStream, ReadToEnd.readToEnd, hin, hbuf, Socket.readArrivals,
      Client.received]
  rw [handleReadable, hread]
  rfl

/-- A session whose events bring whole frames, and then the end of file alone. -/
theorem session_of_whole (token : Token) (css : List (List Command))
    (hfits : ∀ cmds ∈ css, ∀ cmd ∈ cmds, cmd.Fits) (client : Client Socket)
    (channel : List (ServerCmd Socket)) (hbuf : client.stream.reader.buf = [])
    (hin : client.stream.stream.incoming = arrivals (css.map frames) []) :
    ∃ client', session client channel (readableEvents token (css.map frames)) =
      .ok (client', channel ++ replies token client.name css.flatten ++ [.disconnect token]) := by
  induction css generalizing client channel with
  | nil =>
    refine ⟨client.received [] [.eof], ?_⟩
    simp only [readableEvents, List.map_nil, List.length_nil, Nat.zero_add, List.replicate_one,
      session, handleClientEvent_readable]
    rw [handleReadable_eof token client channel hin hbuf]
    simp [replies, bind, Except.bind]
  | cons cmds css ih =>
    have hin' : client.stream.stream.incoming =
        .bytes (frames cmds) :: .wouldBlock :: arrivals (css.map frames) [] := hin
    have hevent := handleReadable_chunk token client channel hin' hbuf
    rw [decodeLoop_frames token (hfits cmds (by simp)) _ channel rfl] at hevent
    obtain ⟨client', hrest⟩ := ih (fun c hc => hfits c (by simp [hc]))
      ((client.received (frames cmds) (arrivals (css.map frames) [])).afterDecoding cmds)
      (channel ++ replies token client.name cmds) rfl rfl
    refine ⟨client', ?_⟩
    have hevents : readableEvents token ((cmds :: css).map frames) =
        { token, readable := true, writable := false } ::
          readableEvents token (css.map frames) := rfl
    rw [hevents, session, handleClientEvent_readable, hevent]
    change session _ _ _ = _
    rw [show (client.received (frames cmds) (arrivals (css.map frames) [])).name = client.name
      from rfl, hrest, List.flatten_cons, replies_append]
    simp [Client.afterDecoding, Client.received]

/-- What any session queues: the replies to some commands whose frames take at most the bytes of
the chunks, all of them only if every chunk is a sequence of frames; and the departure if the end
of file comes alone. -/
theorem exists_of_session_eq_ok {token : Token} {chunks : List (List UInt8)} {last : List UInt8}
    {client client' : Client Socket} {channel channel' : List (ServerCmd Socket)}
    (hbuf : client.stream.reader.buf = [])
    (hin : client.stream.stream.incoming = arrivals chunks last)
    (h : session client channel (readableEvents token chunks) = .ok (client', channel')) :
    ∃ cmds : List Command,
      (last = [] → channel' = channel ++ replies token client.name cmds ++ [.disconnect token] ∧
        (frames cmds).length ≤ chunks.flatten.length ∧
        ((frames cmds).length = chunks.flatten.length → ∀ chunk ∈ chunks, WholeFrames chunk)) ∧
      (last ≠ [] → channel' = channel ++ replies token client.name cmds) := by
  induction chunks generalizing client channel with
  | nil =>
    simp only [readableEvents, List.length_nil, Nat.zero_add, List.replicate_one, session,
      handleClientEvent_readable] at h
    by_cases hlast : last = []
    · subst hlast
      rw [handleReadable_eof token client channel hin hbuf] at h
      obtain ⟨-, rfl⟩ := Prod.mk.inj (Except.ok.inj h)
      exact ⟨[], fun _ => ⟨by simp [replies], by simp, by simp⟩, fun h => absurd rfl h⟩
    · rw [handleReadable_last token client channel hlast hin hbuf] at h
      cases hloop : decodeLoop token (client.received last [.eof]) channel with
      | error e => simp [hloop, bind, Except.bind] at h
      | ok result =>
        obtain ⟨cmds, lost, -, -, -, hchannel⟩ := exists_of_decodeLoop_eq_ok hloop
        simp only [hloop, bind, Except.bind, Except.ok.injEq, Prod.mk.injEq] at h
        exact ⟨cmds, fun h => absurd h hlast, fun _ => h.2 ▸ hchannel⟩
  | cons chunk chunks ih =>
    have hin' : client.stream.stream.incoming =
        .bytes chunk :: .wouldBlock :: arrivals chunks last := hin
    have hevents : readableEvents token (chunk :: chunks) =
        { token, readable := true, writable := false } :: readableEvents token chunks := rfl
    rw [hevents, session, handleClientEvent_readable,
      handleReadable_chunk token client channel hin' hbuf] at h
    cases hloop : decodeLoop token (client.received chunk (arrivals chunks last)) channel with
    | error e => simp [hloop, bind, Except.bind] at h
    | ok result =>
      obtain ⟨client₁, channel₁⟩ := result
      obtain ⟨cmds₁, lost, hfits, hchunk, rfl, rfl⟩ := exists_of_decodeLoop_eq_ok hloop
      rw [hloop] at h
      have hchunk : chunk = frames cmds₁ ++ lost := hchunk
      obtain ⟨cmds, hall, hdata⟩ := ih rfl rfl h
      have hreplies : replies token client.name (cmds₁ ++ cmds) =
          (replies token client.name cmds₁ : List (ServerCmd Socket)) ++
            replies token (cmds₁.foldl rename client.name) cmds := replies_append _ _ _ _
      refine ⟨cmds₁ ++ cmds, fun hlast => ?_, fun hlast => ?_⟩
      · obtain ⟨hch, hle, heq⟩ := hall hlast
        have hlen : (frames (cmds₁ ++ cmds)).length + lost.length ≤
            (chunk :: chunks).flatten.length := by
          simp only [frames_append, List.flatten_cons, List.length_append, hchunk]
          omega
        refine ⟨?_, by omega, fun hfull => ?_⟩
        · rw [hch, hreplies]
          simp [Client.afterDecoding, Client.received]
        · have hlost : lost = [] := List.length_eq_zero_iff.mp (by omega)
          subst hlost
          simp only [List.append_nil] at hchunk
          rw [frames_append, List.flatten_cons, List.length_append, List.length_append,
            hchunk] at hfull
          intro c hc
          rcases List.mem_cons.mp hc with rfl | hc
          · exact ⟨cmds₁, hfits, hchunk⟩
          · exact heq (by omega) c hc
      · rw [hdata hlast, hreplies]
        simp [Client.afterDecoding, Client.received]

/-- Chunks of whole frames that make up the frames of some commands split the commands. -/
theorem exists_split_of_wholeFrames {chunks : List (List UInt8)}
    (h : ∀ chunk ∈ chunks, WholeFrames chunk) :
    ∃ css : List (List Command), (∀ cmds ∈ css, ∀ cmd ∈ cmds, cmd.Fits) ∧
      chunks = css.map frames := by
  induction chunks with
  | nil => exact ⟨[], by simp, rfl⟩
  | cons chunk chunks ih =>
    obtain ⟨cmds, hfits, rfl⟩ := h chunk (by simp)
    obtain ⟨css, hcss, rfl⟩ := ih fun c hc => h c (by simp [hc])
    refine ⟨cmds :: css, ?_, rfl⟩
    intro cs hcs
    rcases List.mem_cons.mp hcs with rfl | hcs
    · exact hfits
    · exact hcss cs hcs

theorem flatten_map_frames (css : List (List Command)) :
    (css.map frames).flatten = frames css.flatten := by
  induction css with
  | nil => rfl
  | cons cmds css ih => simp [ih]

/-- **When a session is the whole session.** A client sends the frames of some commands before
closing, and the bytes arrive in `chunks`, with `last` at the end of file. The server queues what
it would queue for the whole stream if and only if every chunk is a sequence of frames and the end
of file comes alone. -/
theorem session_iff (token : Token) {cmds : List Command} (hfits : ∀ cmd ∈ cmds, cmd.Fits)
    {chunks : List (List UInt8)} {last : List UInt8}
    (hstream : chunks.flatten ++ last = frames cmds) :
    (∃ client, session (sender chunks last) [] (readableEvents token chunks) =
        .ok (client, wholeSession token cmds)) ↔
      (∀ chunk ∈ chunks, WholeFrames chunk) ∧ last = [] := by
  constructor
  · rintro ⟨client, h⟩
    obtain ⟨cmds', hall, hdata⟩ := exists_of_session_eq_ok rfl rfl h
    by_cases hlast : last = []
    · obtain ⟨hchannel, -, hwhole⟩ := hall hlast
      have hreplies : (replies token "" cmds : List (ServerCmd Socket)) =
          replies token "" cmds' := by
        simpa [wholeSession] using hchannel
      obtain rfl := replies_injective hreplies
      refine ⟨hwhole ?_, hlast⟩
      rw [← hstream, hlast, List.append_nil]
    · -- the departure is queued only when the end of file comes alone
      have hmem : ServerCmd.disconnect token ∈
          (replies token "" cmds' : List (ServerCmd Socket)) := by
        have := hdata hlast
        simp only [List.nil_append, sender_name] at this
        rw [← this]
        simp [wholeSession]
      exact absurd hmem (disconnect_notMem_replies _ _ _ _)
  · rintro ⟨hwhole, rfl⟩
    obtain ⟨css, hcss, rfl⟩ := exists_split_of_wholeFrames hwhole
    have hflat : frames css.flatten = frames cmds := by
      rw [← hstream, List.append_nil, flatten_map_frames]
    have hsame : css.flatten = cmds := by
      refine eq_of_frames_eq (fun cmd hcmd => ?_) hfits hflat
      obtain ⟨cs, hcs, hmem⟩ := List.mem_flatten.mp hcmd
      exact hcss cs hcs cmd hmem
    obtain ⟨client, h⟩ := session_of_whole token css hcss
      (sender (css.map frames) []) [] rfl rfl
    refine ⟨client, h.trans ?_⟩
    simp [wholeSession, hsame]

/-- Two events that bring one message each, and then the end of file. -/
theorem session_iff_two_messages :
    ∃ client, session
        (sender [(Command.message "a").frame, (Command.message "b").frame] []) []
        (readableEvents ⟨1⟩ [(Command.message "a").frame, (Command.message "b").frame]) =
      .ok (client, wholeSession ⟨1⟩ [.message "a", .message "b"]) := by
  have hfits : ∀ cmd ∈ [Command.message "a", .message "b"], cmd.Fits := by decide +kernel
  have hstream : [(Command.message "a").frame, (Command.message "b").frame].flatten ++ [] =
      frames [.message "a", .message "b"] := by decide +kernel
  refine (session_iff ⟨1⟩ hfits hstream).mpr ⟨fun chunk hchunk => ?_, rfl⟩
  rcases List.mem_pair.mp hchunk with rfl | rfl
  · exact ⟨[.message "a"], by decide +kernel, by simp⟩
  · exact ⟨[.message "b"], by decide +kernel, by simp⟩

/-- A message of five bytes whose length field is cut by two events is lost. -/
theorem session_depends_on_arrival :
    ¬ ∀ (token : Token) (cmds : List Command) (chunks : List (List UInt8)) (last : List UInt8),
      (∀ cmd ∈ cmds, cmd.Fits) → (∀ chunk ∈ chunks, chunk ≠ []) →
      chunks.flatten ++ last = frames cmds →
      ∃ client, session (sender chunks last) [] (readableEvents token chunks) =
        .ok (client, wholeSession token cmds) := by
  intro hall
  obtain ⟨client, h⟩ := hall ⟨1⟩ [.message ""] [[1, 0], [0, 0, 0]] [] (by decide +kernel)
    (by decide) (by decide +kernel)
  have hqueued : (session (sender [[1, 0], [0, 0, 0]] []) []
      (readableEvents ⟨1⟩ [[1, 0], [0, 0, 0]])).map Prod.snd = .ok [.disconnect ⟨1⟩] := by
    decide +kernel
  rw [h] at hqueued
  exact absurd (congrArg List.length (Except.ok.inj hqueued)) (by simp [wholeSession, replies])

end Groupchat
