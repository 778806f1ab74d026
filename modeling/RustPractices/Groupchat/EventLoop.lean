import RustPractices.Broadcast.Hub
import RustPractices.Groupchat.CommandLoop
import RustPractices.Groupchat.Writing

/-!
# The event server

The server waits for events, accepts connections and handles the events of its clients, and then works on
its channel of server commands until the channel is empty. It is a single thread, but its channel is fed
from both sides: by the clients, and by the command loop itself.

## Main definitions

* `State`, `eventLoop`: the server, and the machine of all its runs
* `Fits`: the flushes that the agents of the clients cope with
* `Refined`: the server as a hub

## Main results

* `refines_hub`: the server is a hub
* `clients_hear`: each client is sent what it has to hear, in one order for all clients
-/

open Io Transition

/-! ## Maps -/

namespace List

variable {α : Type*} {β : α → Type*} [DecidableEq α] {a a' : α}

theorem dlookup_kreplace (b : β a) {l : List (Sigma β)} (h : a ∈ l.keys) :
    (l.kreplace a b).dlookup a = some b := by
  induction l with
  | nil => cases h
  | cons x l ih =>
    by_cases heq : a = x.1
    · rw [kreplace, lookmap_cons_some _ _ (dif_pos heq)]
      exact dlookup_cons_eq ..
    · rw [kreplace, lookmap_cons_none _ _ (dif_neg heq), dlookup_cons_ne _ _ heq]
      exact ih ((mem_cons.mp h).resolve_left heq)

theorem dlookup_kreplace_ne (b : β a) (h : a' ≠ a) (l : List (Sigma β)) :
    (l.kreplace a b).dlookup a' = l.dlookup a' := by
  induction l with
  | nil => rfl
  | cons x l ih =>
    by_cases heq : a = x.1
    · have hne : a' ≠ x.1 := heq ▸ h
      rw [kreplace, lookmap_cons_some _ _ (dif_pos heq), dlookup_cons_ne _ x hne]
      exact dlookup_cons_ne _ ⟨a, b⟩ h
    · rw [kreplace, lookmap_cons_none _ _ (dif_neg heq)]
      by_cases heq' : a' = x.1
      · subst heq'
        rw [dlookup_cons_eq, dlookup_cons_eq]
      · rw [dlookup_cons_ne _ _ heq', dlookup_cons_ne _ _ heq']
        exact ih

end List

namespace Finmap

variable {α : Type*} {β : α → Type*} [DecidableEq α] {a a' : α} {s : Finmap β}

theorem lookup_replace (b : β a) (h : a ∈ s) : (s.replace a b).lookup a = some b := by
  induction s using Finmap.induction_on with
  | _ s => exact List.dlookup_kreplace b h

theorem lookup_replace_ne (b : β a) (h : a' ≠ a) (s : Finmap β) :
    (s.replace a b).lookup a' = s.lookup a' := by
  induction s using Finmap.induction_on with
  | _ s => exact List.dlookup_kreplace_ne b h s.entries

end Finmap

namespace Groupchat

universe u

variable {S : Type u}

namespace EventLoop

/-- **The event server**: what its loops share, and whether it works on its channel or on the events that
`poll` has reported. -/
structure State (S : Type u) where
  server : Server S :=
    { clients := ∅, channel := [], uniqueToken := ⟨1⟩, fresh := fun _ h => absurd h Finmap.notMem_empty }
  working : Bool := false

/-- Who pushes a server command, apart from the command loop. -/
inductive Sender
  | listener
  | client (token : Token)
  deriving DecidableEq, Repr

/-- What happens next: a connection is accepted, an event of a client is handled, the server starts to work
on its channel, takes a turn of the command loop, or polls again. -/
inductive Action (S : Type u)
  | accept (stream : S)
  | handle (event : Groupchat.Event)
  | work
  | turn (choice : Choice)
  | poll (result : Except ErrorKind Unit)

/-- What the server does. -/
inductive Event (S : Type u)
  | pushed (sender : Option Sender) (cmd : ServerCmd S)
  | popped (cmd : ServerCmd S)
  | joined (token : Token) (stream : S)
  | sent (sending : Sending)
  | removed (token : Token) (name : String)
  deriving DecidableEq

/-- What is done with the result of a call of `encode`: a client that it fails for is to be disconnected. -/
def sendingEvents (sending : Sending) : List (Event S) :=
  .sent sending ::
    if failed sending.result then [.pushed none (.disconnect sending.token)] else []

/-- What a turn of the command loop does, from the server `s` to the server `t`. The turn of a `Connect`
does not say whether the client is in the map. -/
def turnEvents (s t : Server S) (turn : Turn S) : List (Event S) :=
  .popped turn.cmd ::
    match turn.cmd with
    | .announcement _ | .broadcast _ _ => turn.sendings.flatMap sendingEvents
    | .connect stream => if s.uniqueToken ∈ t.clients then [.joined s.uniqueToken stream] else []
    | .disconnect _ =>
      turn.left.toList.flatMap fun (token, name) =>
        [.removed token name, .pushed none (hasLeft name)]

/-- The server after an event of a client has been handled. -/
def afterEvent (s : Server S) (token : Token) (client : Client S) (channel : List (ServerCmd S)) :
    Server S :=
  { s with
    clients := s.clients.replace token client
    channel
    fresh := fun t h => s.fresh t (Finmap.mem_replace.mp h) }

namespace State

/-- The body of the loop over the events, for an event of a client. -/
def handle [ReadToEnd S] [Write S] (s : State S) (event : Groupchat.Event) : State S × List (Event S) :=
  match s.server.clients.lookup event.token with
  | none => (s, [])
  | some client =>
    match handleClientEvent client event s.server.channel with
    | .error e => ({ s with server := { s.server with ended := some e } }, [])
    | .ok (client, channel) =>
      ({ s with server := afterEvent s.server event.token client channel },
        (channel.drop s.server.channel.length).map (.pushed (some (.client event.token))))

/-- **A step of the server**, as long as `main` has not ended. -/
def step [ReadToEnd S] [Write S] (s : State S) (a : Action S) : Option (State S × List (Event S)) :=
  if s.server.ended = none then
    match s.working, a with
    | false, .accept stream =>
      some ({ s with server := { s.server with channel := s.server.channel ++ [.connect stream] } },
        [.pushed (some .listener) (.connect stream)])
    | false, .handle event => some (s.handle event)
    | false, .work => some ({ s with working := true }, [])
    | true, .turn choice =>
      (s.server.step choice).map fun (t, turns) =>
        ({ s with server := t }, turns.flatMap (turnEvents s.server t))
    | true, .poll result =>
      match s.server.channel, result with
      | [], .ok () => some ({ s with working := false }, [])
      -- `?` ends `main`
      | [], .error kind => some ({ s with server := { s.server with ended := some (.error kind) } }, [])
      | _, _ => none
    | _, _ => none
  else none

end State

/-- **The event server** without clients, in all its runs. At first it polls. -/
def eventLoop [ReadToEnd S] [Write S] : Machine (State S) (Action S) (Event S) where
  init := { working := true }
  step := State.step

/-- The agent of the client copes with a call. -/
def ClientFits (s : State Socket) (token : Token) (call : Call) : Prop :=
  ∀ client ∈ s.server.clients.lookup token, AnswersFit client.stream call

instance (s : State Socket) (token : Token) (call : Call) : Decidable (ClientFits s token call) :=
  inferInstanceAs (Decidable (∀ client ∈ s.server.clients.lookup token, _))

/-- The agents of the clients that the first command is for cope with its message. -/
def HeadFits (s : State Socket) : List (ServerCmd Socket) → Prop
  | .announcement msg :: _ =>
    ∀ token ∈ s.server.clients.keys, ClientFits s token (.encode (.message msg))
  | .broadcast src msg :: _ =>
    ∀ token ∈ s.server.clients.keys.erase src, ClientFits s token (.encode (.message msg))
  | _ => True

instance (s : State Socket) : (channel : List (ServerCmd Socket)) → Decidable (HeadFits s channel)
  | .announcement msg :: _ => inferInstanceAs (Decidable (∀ token ∈ s.server.clients.keys,
      ClientFits s token (.encode (.message msg))))
  | .broadcast src msg :: _ => inferInstanceAs (Decidable (∀ token ∈ s.server.clients.keys.erase src,
      ClientFits s token (.encode (.message msg))))
  | [] => isTrue trivial
  | .connect _ :: _ => isTrue trivial
  | .disconnect _ :: _ => isTrue trivial

/-- **The server finds answers that the agents cope with**, when it flushes for an event, and when it
encodes a message. -/
def Fits (s : State Socket) : Action Socket → Prop
  | .handle event => event.writable = true → ClientFits s event.token .flush
  | .turn _ => HeadFits s s.server.channel
  | _ => True

instance (s : State Socket) : (a : Action Socket) → Decidable (Fits s a)
  | .accept _ => isTrue trivial
  | .handle _ => inferInstanceAs (Decidable (_ → _))
  | .work => isTrue trivial
  | .turn _ => inferInstanceAs (Decidable (HeadFits s s.server.channel))
  | .poll _ => isTrue trivial

/-! ## What a step does -/

/-- The steps, one by one. -/
inductive Stepped [ReadToEnd S] [Write S] (s : State S) : Action S → List (Event S) → State S → Prop
  | accept (stream : S) (hworking : s.working = false) :
      Stepped s (.accept stream) [.pushed (some .listener) (.connect stream)]
        { s with server := { s.server with channel := s.server.channel ++ [.connect stream] } }
  | missed {event : Groupchat.Event} (hworking : s.working = false)
      (hclient : s.server.clients.lookup event.token = none) : Stepped s (.handle event) [] s
  | handled {event : Groupchat.Event} {client client' : Client S} {channel : List (ServerCmd S)}
      (hworking : s.working = false) (hclient : s.server.clients.lookup event.token = some client)
      (hhandle : handleClientEvent client event s.server.channel = .ok (client', channel)) :
      Stepped s (.handle event)
        ((channel.drop s.server.channel.length).map (.pushed (some (.client event.token))))
        { s with server := afterEvent s.server event.token client' channel }
  | crashed {event : Groupchat.Event} {client : Client S} {e : Failure} (hworking : s.working = false)
      (hclient : s.server.clients.lookup event.token = some client)
      (hhandle : handleClientEvent client event s.server.channel = .error e) :
      Stepped s (.handle event) [] { s with server := { s.server with ended := some e } }
  | work (hworking : s.working = false) : Stepped s .work [] { s with working := true }
  | turn {choice : Choice} {cmd : ServerCmd S} {rest : List (ServerCmd S)} {r : Server S × Turn S}
      (hworking : s.working = true) (hchannel : s.server.channel = cmd :: rest)
      (horder : choice.Iterates s.server.clients)
      (hprocess : r = Server.process { s.server with channel := rest } choice cmd) :
      Stepped s (.turn choice) (turnEvents s.server r.1 r.2) { s with server := r.1 }
  | polled (hworking : s.working = true) (hchannel : s.server.channel = []) :
      Stepped s (.poll (.ok ())) [] { s with working := false }
  | pollFails {kind : ErrorKind} (hworking : s.working = true) (hchannel : s.server.channel = []) :
      Stepped s (.poll (.error kind)) []
        { s with server := { s.server with ended := some (.error kind) } }

theorem stepped_of_step [ReadToEnd S] [Write S] {s t : State S} {a : Action S} {out : List (Event S)}
    (hstep : s.step a = some (t, out)) : s.server.ended = none ∧ Stepped s a out t := by
  unfold State.step at hstep
  split_ifs at hstep with hended
  refine ⟨hended, ?_⟩
  split at hstep
  next stream hworking =>
    obtain ⟨rfl, rfl⟩ := Prod.mk.inj (Option.some.inj hstep)
    exact .accept stream hworking
  next event hworking =>
    unfold State.handle at hstep
    split at hstep
    next hclient =>
      -- the client has left since `poll` has reported the event
      obtain ⟨rfl, rfl⟩ := Prod.mk.inj (Option.some.inj hstep)
      exact .missed hworking hclient
    next client hclient =>
      split at hstep
      next e hhandle =>
        obtain ⟨rfl, rfl⟩ := Prod.mk.inj (Option.some.inj hstep)
        exact .crashed hworking hclient hhandle
      next client' channel hhandle =>
        obtain ⟨rfl, rfl⟩ := Prod.mk.inj (Option.some.inj hstep)
        exact .handled hworking hclient hhandle
  next hworking =>
    obtain ⟨rfl, rfl⟩ := Prod.mk.inj (Option.some.inj hstep)
    exact .work hworking
  next choice hworking =>
    obtain ⟨⟨server, turns⟩, hturn, heq⟩ := Option.map_eq_some_iff.mp hstep
    obtain ⟨rfl, rfl⟩ := Prod.mk.inj heq
    obtain ⟨cmd, rest, hchannel, horder, rfl, rfl⟩ := Server.step_cases hturn
    rw [List.flatMap_singleton]
    exact .turn hworking hchannel horder rfl
  next result hworking =>
    split at hstep
    next hchannel =>
      obtain ⟨rfl, rfl⟩ := Prod.mk.inj (Option.some.inj hstep)
      exact .polled hworking hchannel
    next kind hchannel =>
      obtain ⟨rfl, rfl⟩ := Prod.mk.inj (Option.some.inj hstep)
      exact .pollFails hworking hchannel
    next => cases hstep
  next => cases hstep

/-! ## The events of a client -/

section Handling

variable {token : Token} {client client' : Client S} {channel channel' : List (ServerCmd S)}

/-- What a readable event does: the commands at the front of the read buffer are decoded, or the client is
to be disconnected. -/
theorem handleReadable_cases [ReadToEnd S]
    (h : handleReadable token client channel = .ok (client', channel')) :
    (∃ agent cmds lost, client.stream.readFromStream = (.ok (), agent) ∧ (∀ cmd ∈ cmds, cmd.Fits) ∧
      agent.reader.buf = frames cmds ++ lost ∧
      client' = Client.afterDecoding { client with stream := agent } cmds ∧
      channel' = channel ++ replies token client.name cmds) ∨
    ∃ kind agent, client.stream.readFromStream = (err kind, agent) ∧
      client' = { client with stream := agent } ∧ channel' = channel ++ [.disconnect token] := by
  unfold handleReadable at h
  split at h
  · next agent hread =>
    obtain ⟨cmds, lost, hfits, hbuf, rfl, rfl⟩ := exists_of_decodeLoop_eq_ok h
    exact .inl ⟨agent, cmds, lost, hread, hfits, hbuf, rfl, rfl⟩
  · next kind agent hread =>
    obtain ⟨rfl, rfl⟩ := Prod.mk.inj (Except.ok.inj h)
    exact .inr ⟨kind, agent, hread, rfl, rfl⟩
  · cases h

/-- What a writable event does: the agent is flushed. -/
theorem handleWritable_cases [Write S]
    (h : handleWritable token client channel = .ok (client', channel')) :
    ∃ result agent, client.stream.flush = (result, agent) ∧ client' = { client with stream := agent } ∧
      channel' = channel ++ if failed result then [.disconnect token] else [] := by
  unfold handleWritable at h
  split at h
  · next agent hflush =>
    obtain ⟨rfl, rfl⟩ := Prod.mk.inj (Except.ok.inj h)
    exact ⟨_, agent, hflush, rfl, (List.append_nil _).symm⟩
  · next kind agent hflush =>
    obtain ⟨rfl, rfl⟩ := Prod.mk.inj (Except.ok.inj h)
    exact ⟨_, agent, hflush, rfl, rfl⟩
  · cases h

/-- An event is handled as a readable one, and then as a writable one. -/
theorem handleClientEvent_cases [ReadToEnd S] [Write S] {event : Groupchat.Event}
    (h : handleClientEvent client event channel = .ok (client', channel')) :
    ∃ read channelRead,
      (if event.readable then handleReadable event.token client channel else .ok (client, channel)) =
        .ok (read, channelRead) ∧
      (if event.writable then handleWritable event.token read channelRead else .ok (read, channelRead)) =
        .ok (client', channel') := by
  unfold handleClientEvent at h
  by_cases hreadable : event.readable = true
  · simp only [if_pos hreadable] at h ⊢
    cases hread : handleReadable event.token client channel with
    | error e => simp [hread, bind, Except.bind] at h
    | ok r =>
      rw [hread] at h
      exact ⟨r.1, r.2, rfl, h⟩
  · simp only [if_neg hreadable] at h ⊢
    exact ⟨client, channel, rfl, h⟩

/-- An event of a client pushes the replies to what it has said, and its own departures. -/
theorem handleClientEvent_pushes [ReadToEnd S] [Write S] {event : Groupchat.Event}
    (h : handleClientEvent client event channel = .ok (client', channel')) :
    ∃ cmds k, channel' = channel ++
        (replies event.token client.name cmds ++ List.replicate k (.disconnect event.token)) ∧
      client'.name = cmds.foldl rename client.name := by
  obtain ⟨read, channelRead, hread, hwrite⟩ := handleClientEvent_cases h
  have hreads : ∃ cmds k, channelRead = channel ++
      (replies event.token client.name cmds ++ List.replicate k (.disconnect event.token)) ∧
      read.name = cmds.foldl rename client.name := by
    split_ifs at hread with hreadable
    · rcases handleReadable_cases hread with
        ⟨agent, cmds, lost, -, -, -, rfl, rfl⟩ | ⟨kind, agent, -, rfl, rfl⟩
      · exact ⟨cmds, 0, by simp, rfl⟩
      · exact ⟨[], 1, rfl, rfl⟩
    · obtain ⟨rfl, rfl⟩ := Prod.mk.inj (Except.ok.inj hread)
      exact ⟨[], 0, by simp [replies], rfl⟩
  obtain ⟨cmds, k, rfl, hname⟩ := hreads
  split_ifs at hwrite with hwritable
  · obtain ⟨result, agent, -, rfl, rfl⟩ := handleWritable_cases hwrite
    refine ⟨cmds, k + if failed result then 1 else 0, ?_, hname⟩
    rw [List.append_assoc, List.append_assoc]
    congr 2
    split_ifs
    · exact (List.replicate_succ' ..).symm
    · exact List.append_nil _
  · obtain ⟨rfl, rfl⟩ := Prod.mk.inj (Except.ok.inj hwrite)
    exact ⟨cmds, k, rfl, hname⟩

end Handling

/-! ## The server as a hub -/

/-- A server command as an order of a hub. -/
def order : ServerCmd S → Broadcast.Order Token String
  | .announcement msg => .all msg
  | .broadcast src msg => .others src msg
  | .connect _ => .join
  | .disconnect token => .leave token

/-- The message about a client that has left. -/
def goodbye (name : String) : String := "----- " ++ name ++ " has left -----"

/-- What happens at the hub. -/
def Event.hub? : Event S → Option (Broadcast.Event Token String String Sender)
  | pushed sender cmd => some (.pushed sender (order cmd))
  | popped cmd => some (.popped (order cmd))
  | joined token _ => some (.joined token)
  | sent sending =>
    match sending.cmd with
    | .message msg => some (.told sending.token msg (failed sending.result))
    | .name _ => none
  | removed token name => some (.left token name)

/-- **The server refines the hub**: the same clients and the same queue. As long as `main` has not ended, a
turn does all that there is to do. -/
structure Refined (s : State S) (h : Broadcast.Hub Token String) : Prop where
  members : h.members = s.server.clients.keys
  joined : ∀ token ∈ h.joined, token.id < s.server.uniqueToken.id
  queue : h.queue = s.server.channel.map order
  todo : s.server.ended = none → h.todo = []

section Refinement

variable {tr : List (Broadcast.Event Token String String Sender)} {h : Broadcast.Hub Token String}

/-- Many orders are queued. -/
theorem exists_run_push (hrun : (Broadcast.hub goodbye).Run Broadcast.Known tr h) (src : Sender)
    (cmds : List (ServerCmd S)) (hknown : ∀ token, .disconnect token ∈ cmds → token ∈ h.joined) :
    (Broadcast.hub goodbye).Run Broadcast.Known
      (tr ++ (cmds.map (Event.pushed (some src))).filterMap Event.hub?)
      { h with queue := h.queue ++ cmds.map order } := by
  induction cmds generalizing tr h with
  | nil => simpa using hrun
  | cons cmd cmds ih =>
    have hpush : Broadcast.Stepped goodbye h (.push src (order cmd)) _ _ := .push src (order cmd)
    have hstep := Broadcast.step_of_stepped hpush
    have hok : Broadcast.Known (ν := String) h (.push src (order cmd)) := by
      cases cmd with
      | disconnect token => exact hknown token List.mem_cons_self
      | _ => trivial
    have hrest := ih (.step hrun hok hstep) fun token hmem => hknown token (List.mem_cons_of_mem _ hmem)
    rw [List.append_assoc, List.append_assoc] at hrest
    exact hrest

/-- The `for` loop over the clients tells them one after the other. -/
theorem exists_run_tell [Write S] {msg : String} {roll : List Token} {clients : Clients S}
    (hrun : (Broadcast.hub goodbye).Run Broadcast.Known tr h) (htodo : h.todo = roll.map (.tell · msg))
    (hmem : ∀ token ∈ roll, token ∈ clients) :
    ∃ h', (Broadcast.hub goodbye).Run Broadcast.Known
        (tr ++ ((deliver (.message msg) roll clients).sendings.flatMap
          (sendingEvents (S := S))).filterMap Event.hub?) h' ∧
      h'.members = h.members ∧ h'.joined = h.joined ∧
      h'.queue = h.queue ++ (deliver (.message msg) roll clients).pushed.map order ∧
      ((∀ sending ∈ (deliver (.message msg) roll clients).sendings, sending.result ≠ panicked) →
        h'.todo = []) := by
  -- along the order of the loop, which changes the agents, but not who is in the map
  induction roll generalizing tr h clients with
  | nil => exact ⟨h, by simpa [deliver] using hrun, rfl, rfl, (List.append_nil _).symm, fun _ => htodo⟩
  | cons token roll ih =>
    obtain ⟨client, hclient⟩ := Finmap.mem_iff.mp (hmem token List.mem_cons_self)
    have hrest : ∀ t ∈ roll, t ∈ clients.replace token
        { client with stream := (encode client.stream (.message msg)).2 } := fun t ht =>
      Finmap.mem_replace.mpr (hmem t (List.mem_cons_of_mem _ ht))
    have htell : Broadcast.Stepped (σ := Sender) goodbye h (.work false) _ _ := .tell htodo
    have hfail : Broadcast.Stepped (σ := Sender) goodbye h (.work true) _ _ := .fail htodo
    have htold := Broadcast.step_of_stepped htell
    have hfailed := Broadcast.step_of_stepped hfail
    have hwork : ∀ fails, Broadcast.Known (ν := String) (σ := Sender) h (.work fails) := fun _ => trivial
    rw [deliver, hclient]
    dsimp only
    cases hresult : (encode client.stream (.message msg)).1 with
    | ok =>
      obtain ⟨h', hrun', hmembers, hjoined, hqueue, htodo'⟩ :=
        ih (.step hrun (hwork false) htold) rfl hrest
      rw [List.append_assoc] at hrun'
      exact ⟨h', hrun', hmembers, hjoined, hqueue, fun hreturns =>
        htodo' fun sending h => hreturns sending (List.mem_cons_of_mem _ h)⟩
    | error e =>
      cases e with
      | error kind =>
        obtain ⟨h', hrun', hmembers, hjoined, hqueue, htodo'⟩ :=
          ih (.step hrun (hwork true) hfailed) rfl hrest
        rw [List.append_assoc] at hrun' hqueue
        exact ⟨h', hrun', hmembers, hjoined, hqueue, fun hreturns =>
          htodo' fun sending h => hreturns sending (List.mem_cons_of_mem _ h)⟩
      | panic =>
        refine ⟨_, .step hrun (hwork false) htold, rfl, rfl, (List.append_nil _).symm, fun hreturns => ?_⟩
        exact absurd rfl (hreturns _ (List.mem_singleton_self _))

/-- A client that connects is put into the map under a new token, or `main` ends. -/
theorem connect_cases (s : Server S) (stream : S) (register : Except ErrorKind Unit) :
    (∃ e, (s.connect stream register).ended = some e ∧
      (s.connect stream register).clients = s.clients ∧
      s.uniqueToken.id ≤ (s.connect stream register).uniqueToken.id) ∨
    (s.connect stream register).ended = s.ended ∧
      (s.connect stream register).clients =
        s.clients.insert s.uniqueToken (Client.new (StreamAgent.new stream)) ∧
      (s.connect stream register).uniqueToken.id = s.uniqueToken.id + 1 := by
  unfold Server.connect
  split
  · next e hnext => exact .inl ⟨e, rfl, rfl, le_rfl⟩
  · next token uniqueToken hnext =>
    obtain ⟨rfl, hsucc⟩ := eq_of_nextToken_eq_ok hnext
    split
    · next kind =>
      refine .inl ⟨_, rfl, rfl, ?_⟩
      show s.uniqueToken.id ≤ uniqueToken.id
      omega
    · exact .inr ⟨rfl, rfl, hsucc⟩

/-- The events of the turn of a `Connect`. -/
theorem turnEvents_connect (s t : Server S) (stream : S) (clients : Clients S) :
    turnEvents s t { cmd := .connect stream, clients } = .popped (.connect stream) ::
      if s.uniqueToken ∈ t.clients then [.joined s.uniqueToken stream] else [] := rfl

theorem not_mem_uniqueToken (s : Server S) : s.uniqueToken ∉ s.clients :=
  fun hmem => lt_irrefl _ (s.fresh _ hmem)

/-- The turn of a message. -/
theorem Refined.send [Write S] {s : State S} {cmd : ServerCmd S} {rest : List (ServerCmd S)} {msg : String}
    {roll : List Token} {a : Broadcast.Action Token String String Sender} (hrefined : Refined s h)
    (hrun : (Broadcast.hub goodbye).Run Broadcast.Known tr h)
    (hmem : ∀ token ∈ roll, token ∈ s.server.clients)
    (hknown : Broadcast.Known h a) (hstep : Broadcast.Stepped goodbye h a [.popped (order cmd)]
      { h with queue := rest.map order, todo := roll.map (.tell · msg) }) :
    ∃ h', (Broadcast.hub goodbye).Run Broadcast.Known (tr ++ (Event.popped cmd ::
        (deliver (.message msg) roll s.server.clients).sendings.flatMap sendingEvents).filterMap
          Event.hub?) h' ∧
      Refined { s with server := (Server.send { s.server with channel := rest } cmd msg roll).1 } h' := by
  have hpop := Broadcast.step_of_stepped hstep
  obtain ⟨h', hrun', hmembers, hjoined, hqueue, htodo⟩ :=
    exists_run_tell (.step hrun hknown hpop) rfl hmem
  rw [List.append_assoc] at hrun'
  refine ⟨h', hrun', ?_⟩
  exact {
    members := by
      rw [hmembers]
      exact hrefined.members.trans (keys_deliver roll s.server.clients).symm
    joined := by
      rw [hjoined]
      exact hrefined.joined
    queue := by
      rw [hqueue]
      exact (List.map_append ..).symm
    todo := fun hended => htodo fun sending hsending hpanicked => by
      have hexists : ∃ sending ∈ (deliver (.message msg) roll s.server.clients).sendings,
          sending.result = panicked := ⟨sending, hsending, hpanicked⟩
      have hsome : (some Failure.panic) = none := (if_pos hexists).symm.trans hended
      cases hsome }

/-- The turn of a client that connects. -/
theorem Refined.connect {s : State S} {stream : S} {rest : List (ServerCmd S)}
    {register : Except ErrorKind Unit} (hrefined : Refined s h)
    (hrun : (Broadcast.hub goodbye).Run Broadcast.Known tr h) (htodo : h.todo = [])
    (hchannel : s.server.channel = .connect stream :: rest) {t : Server S}
    (ht : t = Server.connect { s.server with channel := rest } stream register) :
    ∃ h', (Broadcast.hub goodbye).Run Broadcast.Known (tr ++ (Event.popped (.connect stream) ::
        if s.server.uniqueToken ∈ t.clients then [.joined s.server.uniqueToken stream] else
          []).filterMap Event.hub?) h' ∧ Refined { s with server := t } h' := by
  have hqueue : h.queue = .join :: rest.map order := by rw [hrefined.queue, hchannel]; rfl
  have hrest : t.channel = rest := by rw [ht, Server.channel_connect]
  rcases connect_cases { s.server with channel := rest } stream register with
    ⟨e, hended, hclients, hle⟩ | ⟨hended, hclients, hsucc⟩
  · rw [← ht] at hended hclients hle
    have hpop : Broadcast.Stepped (σ := Sender) goodbye h (.pop [] none "") [.popped .join]
        { h with queue := rest.map order } := .refuse htodo hqueue
    refine ⟨{ h with queue := rest.map order }, ?_, ?_⟩
    · rw [if_neg (by rw [hclients]; exact not_mem_uniqueToken s.server)]
      exact .step hrun (show Broadcast.Known h (.pop [] none "") from trivial)
        (Broadcast.step_of_stepped hpop)
    · exact {
        members := by rw [hclients]; exact hrefined.members
        joined := fun token hmem => (hrefined.joined token hmem).trans_le hle
        queue := by rw [hrest]
        todo := fun hnone => by simp [hended] at hnone }
  · rw [← ht] at hended hclients hsucc
    have hfresh : s.server.uniqueToken ∉ h.joined := fun hmem => lt_irrefl _ (hrefined.joined _ hmem)
    have hpop : Broadcast.Stepped (σ := Sender) goodbye h (.pop [] (some s.server.uniqueToken) "") _ _ :=
      .join htodo hqueue hfresh
    have hmem : s.server.uniqueToken ∈ t.clients := by
      rw [hclients]
      exact Finmap.mem_insert.mpr (.inl rfl)
    refine ⟨{ h with
      members := insert s.server.uniqueToken h.members
      joined := insert s.server.uniqueToken h.joined
      queue := rest.map order }, ?_, ?_⟩
    · rw [if_pos hmem]
      exact .step hrun
        (show Broadcast.Known h (.pop [] (some s.server.uniqueToken) "") from trivial)
        (Broadcast.step_of_stepped hpop)
    · exact {
        members := by
          ext token
          rw [hclients, Finmap.mem_keys, Finmap.mem_insert, Finset.mem_insert, hrefined.members,
            Finmap.mem_keys]
        joined := fun token hjoined => by
          show token.id < t.uniqueToken.id
          rw [hsucc]
          rcases Finset.mem_insert.mp hjoined with rfl | hjoined
          · exact Nat.lt_succ_self _
          · exact (hrefined.joined token hjoined).trans (Nat.lt_succ_self _)
        queue := by rw [hrest]
        todo := fun _ => htodo }

/-- The turn of a client that is to be disconnected. -/
theorem Refined.disconnect {s : State S} {token : Token} {rest : List (ServerCmd S)}
    (hrefined : Refined s h) (hrun : (Broadcast.hub goodbye).Run Broadcast.Known tr h) (htodo : h.todo = [])
    (hchannel : s.server.channel = .disconnect token :: rest) {r : Server S × Turn S}
    (hr : r = Server.disconnect { s.server with channel := rest } token) :
    ∃ h', (Broadcast.hub goodbye).Run Broadcast.Known
      (tr ++ (turnEvents s.server r.1 r.2).filterMap Event.hub?) h' ∧
      Refined { s with server := r.1 } h' := by
  have hqueue : h.queue = .leave token :: rest.map order := by rw [hrefined.queue, hchannel]; rfl
  unfold Server.disconnect at hr
  split at hr
  next hclient =>
    subst hr
    have hmem : token ∉ h.members := by
      rw [hrefined.members, Finmap.mem_keys]
      exact Finmap.lookup_eq_none.mp hclient
    have hpop : Broadcast.Stepped (σ := Sender) goodbye h (.pop [] none "") _ _ := .gone htodo hqueue hmem
    refine ⟨_, .step hrun (show Broadcast.Known h (.pop [] none "") from trivial)
      (Broadcast.step_of_stepped hpop), ?_⟩
    exact {
      members := hrefined.members
      joined := hrefined.joined
      queue := rfl
      todo := fun _ => htodo }
  next client hclient =>
    subst hr
    have hmem : token ∈ h.members := by
      rw [hrefined.members, Finmap.mem_keys]
      exact Finmap.mem_of_lookup_eq_some hclient
    -- the hub takes two steps here: the client leaves, and the announcement is queued
    have hpop : Broadcast.Stepped (σ := Sender) goodbye h
        (.pop [] none client.name) _ _ := .leave htodo hqueue hmem
    have hleft := Machine.Run.step hrun
      (show Broadcast.Known h (.pop [] none client.name) from trivial)
      (Broadcast.step_of_stepped hpop)
    have hwork : Broadcast.Stepped (σ := Sender) goodbye
        { h with
          members := h.members.erase token
          queue := rest.map order
          todo := [.farewell (goodbye client.name)] }
        (.work false) _ _ := .farewell rfl
    have hannounced := Machine.Run.step hleft (show Broadcast.Known _ (.work false) from trivial)
      (Broadcast.step_of_stepped hwork)
    rw [List.append_assoc] at hannounced
    refine ⟨_, hannounced, ?_⟩
    exact {
      members := by
        rw [hrefined.members]
        exact (Finmap.keys_erase ..).symm
      joined := hrefined.joined
      queue := by
        show rest.map order ++ [order (hasLeft client.name : ServerCmd S)] =
          (rest ++ [hasLeft client.name]).map order
        rw [List.map_append, List.map_singleton]
      todo := fun _ => rfl }

/-- **Each step of the server is one of the hub**, or several ones, or none. -/
theorem Refined.stepped [ReadToEnd S] [Write S] {s t : State S} {a : Action S} {out : List (Event S)}
    (hrefined : Refined s h) (hrun : (Broadcast.hub goodbye).Run Broadcast.Known tr h)
    (hended : s.server.ended = none) (hstep : Stepped s a out t) :
    ∃ h', (Broadcast.hub goodbye).Run Broadcast.Known (tr ++ out.filterMap Event.hub?) h' ∧ Refined t h' := by
  -- what neither pushes nor pops anything is no step of the hub
  have hsame : ∀ {t : State S}, t.server.clients = s.server.clients →
      t.server.uniqueToken = s.server.uniqueToken → t.server.channel = s.server.channel →
      out.filterMap Event.hub? = [] →
      ∃ h', (Broadcast.hub goodbye).Run Broadcast.Known (tr ++ out.filterMap Event.hub?) h' ∧
        Refined t h' := by
    intro t hclients htoken hchannel hnone
    refine ⟨h, by rwa [hnone, List.append_nil], ?_⟩
    exact {
      members := by rw [hclients, hrefined.members]
      joined := by rw [htoken]; exact hrefined.joined
      queue := by rw [hchannel, hrefined.queue]
      todo := fun _ => hrefined.todo hended }
  cases hstep with
  | accept stream hworking =>
    have hpush := exists_run_push hrun .listener [ServerCmd.connect stream]
      fun token hmem => by cases List.mem_singleton.mp hmem
    refine ⟨_, hpush, ?_⟩
    exact {
      members := hrefined.members
      joined := hrefined.joined
      queue := by
        rw [hrefined.queue]
        exact (List.map_append ..).symm
      todo := hrefined.todo }
  | missed hworking hclient => exact hsame rfl rfl rfl rfl
  | crashed hworking hclient hhandle => exact hsame rfl rfl rfl rfl
  | work hworking => exact hsame rfl rfl rfl rfl
  | polled hworking hchannel => exact hsame rfl rfl rfl rfl
  | pollFails hworking hchannel => exact hsame rfl rfl rfl rfl
  | @handled event client client' channel hworking hclient hhandle =>
    obtain ⟨cmds, k, rfl, -⟩ := handleClientEvent_pushes hhandle
    rw [List.drop_left]
    have hmember : event.token ∈ h.members := by
      rw [hrefined.members, Finmap.mem_keys]
      exact Finmap.mem_of_lookup_eq_some hclient
    have hknown : ∀ token, ServerCmd.disconnect token ∈
        (replies event.token client.name cmds ++ List.replicate k (.disconnect event.token) :
          List (ServerCmd S)) → token ∈ h.joined := by
      intro token hmem
      rcases List.mem_append.mp hmem with hmem | hmem
      · exact absurd hmem (disconnect_notMem_replies _ _ _ _)
      · obtain rfl := ServerCmd.disconnect.inj (List.eq_of_mem_replicate hmem)
        exact (Broadcast.Roll.of_run hrun).members hmember
    refine ⟨_, exists_run_push hrun (.client event.token) _ hknown, ?_⟩
    exact {
      members := hrefined.members.trans (Finmap.keys_replace ..).symm
      joined := hrefined.joined
      queue := by
        rw [hrefined.queue]
        exact (List.map_append ..).symm
      todo := hrefined.todo }
  | @turn choice cmd rest r hworking hchannel horder hprocess =>
    have htodo := hrefined.todo hended
    have hiterates : h.Iterates choice.order := ⟨horder.1, horder.2.trans hrefined.members.symm⟩
    have hclients : ∀ token ∈ choice.order, token ∈ s.server.clients := fun token hmem => by
      rw [← Finmap.mem_keys, ← horder.2]
      exact List.mem_toFinset.mpr hmem
    have hqueue : h.queue = order cmd :: rest.map order := by rw [hrefined.queue, hchannel]; rfl
    cases cmd with
    | announcement msg =>
      subst hprocess
      exact hrefined.send hrun hclients (show Broadcast.Known h (.pop choice.order none "") from trivial)
        (.all htodo hqueue hiterates)
    | broadcast src msg =>
      subst hprocess
      exact hrefined.send hrun (fun token hmem => hclients token (List.mem_of_mem_filter hmem))
        (show Broadcast.Known h (.pop choice.order none "") from trivial)
        (.others htodo hqueue hiterates)
    | connect stream =>
      subst hprocess
      exact hrefined.connect hrun htodo hchannel rfl
    | disconnect token => exact hrefined.disconnect hrun htodo hchannel hprocess

end Refinement

/-- **The server is a hub**: every run of it is one of the hub. -/
theorem refines_hub [ReadToEnd S] [Write S] {ok : State S → Action S → Prop} {tr : List (Event S)}
    {s : State S} (h : eventLoop.Run ok tr s) :
    ∃ u, (Broadcast.hub goodbye).Run Broadcast.Known (tr.filterMap Event.hub?) u ∧ Refined s u := by
  refine h.refines (R := Refined) Event.hub? ?_ ?_
  · exact {
      members := rfl
      joined := fun token hmem => absurd hmem (Finset.notMem_empty token)
      queue := rfl
      todo := fun _ => rfl }
  · intro tr' s u a t out hrun hrefined _ hstep
    obtain ⟨hended, hstepped⟩ := stepped_of_step hstep
    exact hrefined.stepped hrun hended hstepped

/-! ## What the clients hear -/

/-- The commands that have been encoded for a client. -/
def sentTo (token : Token) (tr : List (Event S)) : List Command :=
  tr.filterMap fun
    | .sent sending => if sending.token = token then some sending.cmd else none
    | _ => none

/-- The messages that a client has to hear: those that have been popped while it has been in the map, apart
from its own broadcasts. -/
def heard (token : Token) (tr : List (Event S)) : List String :=
  (Broadcast.listener token (tr.filterMap Event.hub?)).heard

/-- The announcements and broadcasts that have been popped. -/
def received (tr : List (Event S)) : List String := Broadcast.texts (tr.filterMap Event.hub?)

/-- What is encoded for clients are messages, for tokens that have been given out. -/
structure Sent (tr : List (Event S)) (s : State S) : Prop where
  message : ∀ sending, .sent sending ∈ tr → ∃ msg, sending.cmd = .message msg
  given : ∀ sending, .sent sending ∈ tr → sending.token.id < s.server.uniqueToken.id

section Hearing

variable {tr out : List (Event S)} {s t : State S} {a : Action S}

theorem sentTo_append (token : Token) (tr out : List (Event S)) :
    sentTo token (tr ++ out) = sentTo token tr ++ sentTo token out :=
  List.filterMap_append ..

theorem sent_mem_flatMap {sendings : List Sending} {sending : Sending} :
    .sent sending ∈ sendings.flatMap (sendingEvents (S := S)) ↔ sending ∈ sendings := by
  rw [List.mem_flatMap]
  constructor
  · rintro ⟨sending', hmem, hevent⟩
    rcases List.mem_cons.mp hevent with heq | hevent
    · rwa [Event.sent.inj heq]
    · split_ifs at hevent
      · cases List.mem_singleton.mp hevent
      · cases hevent
  · intro hmem
    exact ⟨sending, hmem, List.mem_cons_self⟩

/-- The calls of `encode` of a `for` loop are for clients of its order. -/
theorem token_of_mem_deliver [Write S] {cmd : Command} {roll : List Token} {clients : Clients S}
    {sending : Sending} (h : sending ∈ (deliver cmd roll clients).sendings) : sending.token ∈ roll := by
  induction roll generalizing clients with
  | nil => cases h
  | cons token roll ih =>
    rw [deliver] at h
    split at h
    · exact List.mem_cons_of_mem _ (ih h)
    · dsimp only at h
      split at h
      · rcases List.mem_cons.mp h with rfl | h
        · exact List.mem_cons_self
        · exact List.mem_cons_of_mem _ (ih h)
      · rcases List.mem_cons.mp h with rfl | h
        · exact List.mem_cons_self
        · exact List.mem_cons_of_mem _ (ih h)
      · rw [List.mem_singleton.mp h]
        exact List.mem_cons_self

/-- The calls of `encode` of a turn. -/
theorem sent_mem_turnEvents [Write S] {choice : Choice} {cmd : ServerCmd S} {rest : List (ServerCmd S)}
    {server : Server S} {sending : Sending} (horder : choice.Iterates server.clients)
    (h : .sent sending ∈ turnEvents server (Server.process { server with channel := rest } choice cmd).1
      (Server.process { server with channel := rest } choice cmd).2) :
    (∃ msg, sending.cmd = .message msg) ∧ sending.token ∈ server.clients := by
  have hroll : ∀ {msg : String} {roll : List Token}, roll.Sublist choice.order →
      sending ∈ (deliver (.message msg) roll server.clients).sendings →
      (∃ msg, sending.cmd = .message msg) ∧ sending.token ∈ server.clients := by
    intro msg roll hsub hmem
    refine ⟨⟨msg, cmd_of_mem_deliver hmem⟩, ?_⟩
    rw [← Finmap.mem_keys, ← horder.2, List.mem_toFinset]
    exact hsub.subset (token_of_mem_deliver hmem)
  cases cmd with
  | announcement msg =>
    rcases List.mem_cons.mp h with h | h
    · cases h
    · exact hroll (List.Sublist.refl _) (sent_mem_flatMap.mp h)
  | broadcast src msg =>
    rcases List.mem_cons.mp h with h | h
    · cases h
    · exact hroll List.filter_sublist (sent_mem_flatMap.mp h)
  | connect stream =>
    rcases List.mem_cons.mp h with h | h
    · cases h
    · split_ifs at h
      · cases List.mem_singleton.mp h
      · cases h
  | disconnect token =>
    simp only [Server.process, Server.disconnect] at h
    split at h <;> simp [turnEvents] at h

/-- The tokens that have been given out stay so. -/
theorem token_le_of_stepped [ReadToEnd S] [Write S] (hstep : Stepped s a out t) :
    s.server.uniqueToken.id ≤ t.server.uniqueToken.id := by
  cases hstep with
  | @turn choice cmd rest r hworking hchannel horder hprocess =>
    subst hprocess
    cases cmd with
    | announcement msg => exact le_rfl
    | broadcast src msg => exact le_rfl
    | connect stream =>
      exact Server.token_le_connect (s := { s.server with channel := rest }) stream choice.register
    | disconnect token =>
      simp only [Server.process, Server.disconnect]
      split <;> exact le_rfl
  | _ => exact le_rfl

theorem Sent.step [ReadToEnd S] [Write S] (hsent : Sent tr s) (hstep : Stepped s a out t) :
    Sent (tr ++ out) t := by
  have hle := token_le_of_stepped hstep
  have hout : ∀ sending, .sent sending ∈ out →
      (∃ msg, sending.cmd = .message msg) ∧ sending.token ∈ s.server.clients := by
    intro sending hmem
    cases hstep with
    | turn hworking hchannel horder hprocess =>
      subst hprocess
      exact sent_mem_turnEvents horder hmem
    | accept stream hworking => cases List.mem_singleton.mp hmem
    | handled hworking hclient hhandle =>
      obtain ⟨cmd, -, heq⟩ := List.mem_map.mp hmem
      cases heq
    | _ => cases hmem
  exact {
    message := fun sending hmem => by
      rcases List.mem_append.mp hmem with hmem | hmem
      · exact hsent.message sending hmem
      · exact (hout sending hmem).1
    given := fun sending hmem => by
      rcases List.mem_append.mp hmem with hmem | hmem
      · exact (hsent.given sending hmem).trans_le hle
      · exact (s.server.fresh _ (hout sending hmem).2).trans_le hle }

theorem Sent.of_run [ReadToEnd S] [Write S] {ok : State S → Action S → Prop}
    (h : eventLoop.Run ok tr s) : Sent tr s := by
  refine h.invariant (P := fun tr s => Sent tr s) ?_ ?_
  · exact { message := fun _ hmem => (nomatch hmem), given := fun _ hmem => (nomatch hmem) }
  · intro tr s a t out hsent _ hstep
    exact hsent.step (stepped_of_step hstep).2

/-- What has been encoded for a client is what the hub has told it. -/
theorem sentTo_eq (hsent : ∀ sending, .sent sending ∈ tr → ∃ msg, sending.cmd = .message msg)
    (token : Token) :
    sentTo token tr = (Broadcast.told token (tr.filterMap Event.hub?)).map .message := by
  rw [Broadcast.told, List.filterMap_filterMap, List.map_filterMap]
  refine List.filterMap_congr fun e hmem => ?_
  cases e with
  | sent sending =>
    obtain ⟨msg, hmsg⟩ := hsent sending hmem
    simp only [Event.hub?, hmsg, Option.bind_some, Broadcast.Event.told?]
    split_ifs <;> rfl
  | _ => rfl

theorem sentTo_eq_heard [ReadToEnd S] [Write S] {ok : State S → Action S → Prop}
    (h : eventLoop.Run ok tr s) (hended : s.server.ended = none) (token : Token) :
    sentTo token tr = (heard token tr).map .message := by
  obtain ⟨u, hrun, hrefined⟩ := refines_hub h
  have hears := (Broadcast.hub_hears hrun token).heard
  rw [hrefined.todo hended] at hears
  rw [sentTo_eq (Sent.of_run h).message]
  exact congrArg (List.map Command.message) ((List.append_nil _).symm.trans hears)

/-- A client names itself and sends a message, of which the socket of another one takes the first bytes. -/
def conversation : List (Action Socket) :=
  [.poll (.ok ()),
    .accept ⟨[.bytes [0, 0, 0, 0, 1, 65], .wouldBlock, .bytes [1, 0, 0, 0, 1, 120], .eof],
      [.accept 100, .accept 100], [], 0⟩,
    .accept ⟨[], [.accept 100, .accept 2, .block], [], 0⟩, .work, .turn ⟨[], .ok ()⟩,
    .turn ⟨[⟨1⟩], .ok ()⟩, .poll (.ok ()), .handle ⟨⟨1⟩, true, false⟩, .work,
    .turn ⟨[⟨2⟩, ⟨1⟩], .ok ()⟩, .poll (.ok ()), .handle ⟨⟨1⟩, true, true⟩, .work,
    .turn ⟨[⟨1⟩, ⟨2⟩], .ok ()⟩]

theorem exists_conversation : ∃ tr s client, eventLoop.Run Fits tr s ∧ s.server.ended = none ∧
    sentTo ⟨2⟩ tr = [.message "----- Welcome, A -----", .message "A: x"] ∧
    s.server.clients.lookup ⟨2⟩ = some client ∧ client.stream.pending = [0, 0, 4, 65, 58, 32, 120] := by
  have hexec : ((eventLoop.guard Fits).exec conversation).map (fun r =>
      decide (r.1.server.ended = none ∧
        sentTo ⟨2⟩ r.2 = [.message "----- Welcome, A -----", .message "A: x"] ∧
        (r.1.server.clients.lookup ⟨2⟩).map (fun client => client.stream.pending) =
          some [0, 0, 4, 65, 58, 32, 120])) = some true := by decide +kernel
  obtain ⟨⟨s, tr⟩, hrun, hend⟩ := Option.map_eq_some_iff.mp hexec
  obtain ⟨hended, hsent, hpending⟩ := of_decide_eq_true hend
  obtain ⟨client, hclient, hpending⟩ := Option.map_eq_some_iff.mp hpending
  exact ⟨tr, s, client, (Machine.run_exec hrun).of_guard, hended, hsent, hclient, hpending⟩

/-- **Each client is sent what it has to hear**: what has been popped while it has been in the map, apart
from its own broadcasts, each message once and in the order of the channel. All clients are sent their
messages in this one order. -/
theorem clients_hear [ReadToEnd S] [Write S] {ok : State S → Action S → Prop}
    (h : eventLoop.Run ok tr s) (hended : s.server.ended = none) (token : Token) :
    sentTo token tr = (heard token tr).map .message ∧
      ((Broadcast.listener token (tr.filterMap Event.hub?)).present = true ↔ token ∈ s.server.clients) ∧
      (heard token tr).Sublist (received tr) := by
  obtain ⟨u, hrun, hrefined⟩ := refines_hub h
  refine ⟨sentTo_eq_heard h hended token, ?_, Broadcast.heard_sublist_texts _ _⟩
  rw [(Broadcast.hub_hears hrun token).present, hrefined.members, Finmap.mem_keys]

theorem clients_hear_two : ∃ (tr : List (Event Socket)) (s : State Socket), eventLoop.Run Fits tr s ∧
    s.server.ended = none ∧
    sentTo ⟨2⟩ tr = [.message "----- Welcome, A -----", .message "A: x"] ∧
    sentTo ⟨2⟩ tr = (heard ⟨2⟩ tr).map .message ∧
      ((Broadcast.listener ⟨2⟩ (tr.filterMap Event.hub?)).present = true ↔ ⟨2⟩ ∈ s.server.clients) ∧
      (heard ⟨2⟩ tr).Sublist (received tr) := by
  obtain ⟨tr, s, -, hrun, hended, hsent, -⟩ := exists_conversation
  exact ⟨tr, s, hrun, hended, hsent, clients_hear hrun hended ⟨2⟩⟩

end Hearing

end EventLoop

end Groupchat
