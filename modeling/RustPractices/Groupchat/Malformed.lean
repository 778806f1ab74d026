import RustPractices.Groupchat.Session

/-!
# Malformed frames

Whatever bytes a client sends, decoding them ends with a command or an I/O error, unless a whole frame
arrives that is no command: a frame with an unknown tag, or whose payload is not UTF-8. Such a frame
makes `decode` panic, and takes the event server down.

## Main definitions

* `rawFrame`: a whole frame with any tag and any payload
* `Malformed`: a frame that is no command
* `Decodable`: bytes without a malformed frame behind whole commands

## Main results

* `decode_panics_iff`: `decode` panics exactly on a malformed frame
* `decodeLoop_ok_iff`: the decoding loop ends exactly on decodable bytes
* `session_ok_iff`: a session ends exactly when the bytes of each event are decodable
-/

open Io

namespace Groupchat

/-- A whole frame with any tag and any payload. -/
def rawFrame (tag : UInt8) (payload : List UInt8) : List UInt8 :=
  tag :: (toBeBytes payload.length ++ payload)

/-- A frame that is no command. -/
def Malformed (tag : UInt8) (payload : List UInt8) : Prop :=
  fromUtf8 payload = none ∨ tag ≠ 0 ∧ tag ≠ 1

/-- **The bytes are decodable**: behind whole commands at their front there is no malformed frame. -/
def Decodable (bytes : List UInt8) : Prop :=
  ∀ (cmds : List Command) (tag : UInt8) (payload rest : List UInt8),
    (∀ cmd ∈ cmds, cmd.Fits) → payload.length < 2 ^ 32 →
      bytes = frames cmds ++ (rawFrame tag payload ++ rest) → ¬ Malformed tag payload

/-! ## Parsing a frame -/

section Parse

variable {tag : UInt8} {payload rest buf : List UInt8} {cmd : Command}

/-- A whole frame is parsed, and its bytes are gone. -/
theorem parse_rawFrame_append (hfits : payload.length < 2 ^ 32) :
    parse (rawFrame tag payload ++ rest) = (commandOf tag payload, rest) := by
  have hsplit : rawFrame tag payload ++ rest =
      [tag] ++ (toBeBytes payload.length ++ (payload ++ rest)) := by
    simp [rawFrame]
  rw [hsplit, parse, takeExact_append List.length_singleton]
  dsimp only
  rw [takeExact_append (length_toBeBytes _)]
  dsimp only
  rw [fromBeBytes_toBeBytes hfits, takeExact_append rfl]
  rfl

/-- A frame is malformed exactly when it is no command. -/
theorem commandOf_eq_panicked_iff : commandOf tag payload = panicked ↔ Malformed tag payload := by
  unfold commandOf Malformed
  cases hmsg : fromUtf8 payload with
  | none => simp
  | some msg =>
    dsimp only
    split_ifs with h0 h1
    · simp [panicked, h0]
    · simp [panicked, h1]
    · simp [h0, h1]

/-- Parsing panics on a whole frame. -/
theorem exists_of_parse_eq_panicked (h : (parse buf).1 = panicked) :
    ∃ tag payload rest, payload.length < 2 ^ 32 ∧ buf = rawFrame tag payload ++ rest ∧
      commandOf tag payload = panicked := by
  have hne : ∀ n b, (takeExact b n).1 = panicked → False := by
    intro n b hpanic
    unfold takeExact at hpanic
    split_ifs at hpanic
    · simp [panicked] at hpanic
    · simp [err, panicked] at hpanic
  unfold parse at h
  split at h
  · next htag => exact (hne 1 buf (by rw [htag, Except.error.inj h]; rfl)).elim
  next tagByte buf₁ htag =>
  split at h
  · next hlen => exact (hne 4 buf₁ (by rw [hlen, Except.error.inj h]; rfl)).elim
  next lenBytes buf₂ hlen =>
  split at h
  · next hmsg => exact (hne _ buf₂ (by rw [hmsg, Except.error.inj h]; rfl)).elim
  next msgBytes buf₃ hmsg =>
  obtain ⟨rfl, htag₁⟩ := takeExact_eq_ok htag
  obtain ⟨rfl, hlen₁⟩ := takeExact_eq_ok hlen
  obtain ⟨rfl, hmsg₁⟩ := takeExact_eq_ok hmsg
  obtain ⟨t, rfl⟩ := List.length_eq_one_iff.mp htag₁
  refine ⟨t, msgBytes, buf₃, ?_, ?_, h⟩
  · rw [hmsg₁]
    exact fromBeBytes_lt hlen₁
  · rw [rawFrame, hmsg₁, toBeBytes_fromBeBytes hlen₁]
    simp

/-- **Decoding panics** exactly when a malformed frame is at the front of the read buffer. -/
theorem decode_panics_iff {S : Type*} (a : StreamAgent S) : (decode a).1 = panicked ↔
    ∃ tag payload rest, payload.length < 2 ^ 32 ∧
      a.reader.buf = rawFrame tag payload ++ rest ∧ Malformed tag payload := by
  rw [StreamAgent.decode_agent]
  constructor
  · intro h
    obtain ⟨tag, payload, rest, hfits, hbuf, hcmd⟩ := exists_of_parse_eq_panicked h
    exact ⟨tag, payload, rest, hfits, hbuf, commandOf_eq_panicked_iff.mp hcmd⟩
  · rintro ⟨tag, payload, rest, hfits, hbuf, hmal⟩
    rw [hbuf, parse_rawFrame_append hfits]
    exact commandOf_eq_panicked_iff.mpr hmal

end Parse

/-! ## Decodable bytes -/

namespace Decodable

variable {bytes rest : List UInt8} {cmd : Command}

/-- Bytes that are parsed to a command are decodable when the bytes behind it are. -/
theorem iff_of_parse (h : parse bytes = (.ok cmd, rest)) : Decodable bytes ↔ Decodable rest := by
  obtain ⟨rfl, hfits⟩ := frame_append_of_parse h
  constructor
  · intro hdec cmds tag payload rest' hcmds hlen hrest
    refine hdec (cmd :: cmds) tag payload rest' ?_ hlen ?_
    · intro c hc
      rcases List.mem_cons.mp hc with rfl | hc
      · exact hfits
      · exact hcmds c hc
    · rw [hrest, frames_cons, List.append_assoc]
  · intro hdec cmds tag payload rest' hcmds hlen hbytes
    cases cmds with
    | nil =>
      rw [frames_nil, List.nil_append] at hbytes
      rw [hbytes, parse_rawFrame_append hlen] at h
      intro hmal
      rw [commandOf_eq_panicked_iff.mpr hmal] at h
      simp [panicked] at h
    | cons c cmds =>
      rw [frames_cons, List.append_assoc] at hbytes
      rw [hbytes, parse_frame_append (hcmds c List.mem_cons_self)] at h
      obtain ⟨-, rfl⟩ := Prod.mk.inj h
      exact hdec cmds tag payload rest' (fun d hd => hcmds d (List.mem_cons_of_mem _ hd)) hlen rfl

/-- Bytes that end within a frame are decodable. -/
theorem of_parse_error {kind : ErrorKind} (h : (parse bytes).1 = .error (.error kind)) :
    Decodable bytes := by
  intro cmds tag payload rest' hcmds hlen hbytes hmal
  cases cmds with
  | nil =>
    rw [hbytes, frames_nil, List.nil_append, parse_rawFrame_append hlen,
      commandOf_eq_panicked_iff.mpr hmal] at h
    simp [panicked] at h
  | cons c cmds =>
    rw [hbytes, frames_cons, List.append_assoc,
      parse_frame_append (hcmds c List.mem_cons_self)] at h
    simp at h

/-- Bytes that begin with a malformed frame are not decodable. -/
theorem not_of_parse_panicked (h : (parse bytes).1 = panicked) : ¬ Decodable bytes := by
  obtain ⟨tag, payload, rest', hlen, hbytes, hcmd⟩ := exists_of_parse_eq_panicked h
  intro hdec
  exact hdec [] tag payload rest' (by simp) hlen hbytes (commandOf_eq_panicked_iff.mp hcmd)

theorem nil : Decodable [] := by
  have hparse : (parse []).1 = .error (.error .unexpectedEof) := rfl
  exact of_parse_error hparse

end Decodable

/-! ## The decoding loop -/

variable {S : Type*}

/-- **The decoding loop ends** exactly on decodable bytes. -/
theorem decodeLoop_ok_iff (token : Token) (client : Client S) (channel : List (ServerCmd S)) :
    (∃ client' channel', decodeLoop token client channel = .ok (client', channel')) ↔
      Decodable client.stream.reader.buf := by
  induction hlen : client.stream.reader.buf.length using Nat.strong_induction_on
    generalizing client channel with
  | _ len ih =>
    rw [decodeLoop]
    split
    · next cmd stream hdecode =>
      obtain ⟨hfits, hbuf, -⟩ := StreamAgent.eq_of_decode_agent_eq_ok hdecode
      have hlt : stream.reader.buf.length < len := by
        rw [← hlen, hbuf, List.length_append, Command.length_frame]
        omega
      have hparse : parse client.stream.reader.buf = (.ok cmd, stream.reader.buf) := by
        rw [hbuf, parse_frame_append hfits]
      rw [Decodable.iff_of_parse hparse]
      simp only [respond_eq]
      exact ih _ hlt _ _ rfl
    · next kind stream hdecode =>
      have hparse : (parse client.stream.reader.buf).1 = .error (.error kind) := by
        rw [StreamAgent.decode_agent] at hdecode
        exact (Prod.mk.inj hdecode).1
      exact iff_of_true ⟨_, _, rfl⟩ (Decodable.of_parse_error hparse)
    · next stream hdecode =>
      have hparse : (parse client.stream.reader.buf).1 = panicked := by
        rw [StreamAgent.decode_agent] at hdecode
        exact (Prod.mk.inj hdecode).1
      refine iff_of_false ?_ (Decodable.not_of_parse_panicked hparse)
      simp [panicked]

/-! ## Sessions -/

/-- A session ends exactly when what is read with each of its events is decodable. -/
theorem session_ok_iff_of_incoming (token : Token) {chunks : List (List UInt8)}
    {last : List UInt8} {client : Client Socket} {channel : List (ServerCmd Socket)}
    (hbuf : client.stream.reader.buf = [])
    (hin : client.stream.stream.incoming = arrivals chunks last) :
    (∃ client' channel', session client channel (readableEvents token chunks) =
      .ok (client', channel')) ↔ ∀ bytes ∈ chunks ++ [last], Decodable bytes := by
  induction chunks generalizing client channel with
  | nil =>
    simp only [readableEvents, List.length_nil, Nat.zero_add, List.replicate_one, session,
      handleClientEvent_readable, List.nil_append, List.mem_singleton, forall_eq]
    by_cases hlast : last = []
    · -- the sender closes without sending more: nothing is decoded
      subst hlast
      rw [handleReadable_eof token client channel hin hbuf]
      exact iff_of_true ⟨_, _, rfl⟩ Decodable.nil
    · rw [handleReadable_last token client channel hlast hin hbuf]
      have hloop := decodeLoop_ok_iff token (client.received last [.eof]) channel
      refine Iff.trans ?_ hloop
      cases decodeLoop token (client.received last [.eof]) channel with
      | ok result => simp [bind, Except.bind]
      | error e => simp [bind, Except.bind]
  | cons chunk chunks ih =>
    have hin' : client.stream.stream.incoming =
        .bytes chunk :: .wouldBlock :: arrivals chunks last := hin
    have hevents : readableEvents token (chunk :: chunks) =
        { token, readable := true, writable := false } :: readableEvents token chunks := rfl
    have hloop := decodeLoop_ok_iff token (client.received chunk (arrivals chunks last)) channel
    rw [hevents, session, handleClientEvent_readable,
      handleReadable_chunk token client channel hin' hbuf, List.cons_append, List.forall_mem_cons]
    cases hresult : decodeLoop token (client.received chunk (arrivals chunks last)) channel with
    | error e =>
      rw [hresult] at hloop
      have hnot : ¬ Decodable chunk := fun hdec => by
        obtain ⟨_, _, h⟩ := hloop.mpr hdec
        simp at h
      simp [bind, Except.bind, hnot]
    | ok result =>
      obtain ⟨client₁, channel₁⟩ := result
      obtain ⟨cmds, lost, -, -, rfl, rfl⟩ := exists_of_decodeLoop_eq_ok hresult
      have hdec : Decodable chunk := hloop.mp ⟨_, _, hresult⟩
      rw [and_iff_right hdec]
      exact ih rfl rfl

/-- **A client does not crash the server** exactly when the bytes that are read with each event are
decodable, however the bytes that it sends are split into events. -/
theorem session_ok_iff (token : Token) (chunks : List (List UInt8)) (last : List UInt8) :
    (∃ client channel, session (sender chunks last) [] (readableEvents token chunks) =
      .ok (client, channel)) ↔ ∀ bytes ∈ chunks ++ [last], Decodable bytes :=
  session_ok_iff_of_incoming token rfl rfl

/-- **A frame with an unknown tag crashes the server.** -/
theorem session_panics :
    (session (sender [[7, 0, 0, 0, 0]] []) [] (readableEvents ⟨1⟩ [[7, 0, 0, 0, 0]])).map Prod.snd =
      panicked := by
  decide +kernel

end Groupchat
