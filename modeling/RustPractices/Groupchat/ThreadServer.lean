import RustPractices.Broadcast.Hub
import RustPractices.Groupchat.CommandLoop
import RustPractices.Groupchat.ReadFrame

/-!
# The thread server

A thread accepts connections, a thread for each client turns its commands into server commands, and the
main thread works on these. They share a channel, and each client is shared by its thread, which reads from
it and names it, and by the main thread, which writes to it. The main thread pushes a `Disconnect` for each
client that it fails to reach, and an announcement for each client that it removes; a thread pushes a
`Disconnect` when it cannot decode any more.

A thread reads from its stream and writes to the channel in steps of its own, and so does the main thread
with each client of its map. The map is iterated in an order of its own.

## Main definitions

* `Server`, `threadServer`: the server, and the machine of all interleavings of its threads
* `Server.toHub`: the server as a hub
* `Encodes`: what the main thread encodes into a stream
* `Decodes`: what a thread decodes from its stream

## Main results

* `refines_hub`: the server is a hub
* `server_hears`: each client is told what it has to hear, in one order for all clients
* `thread_serves`: each thread pushes what its client has asked for, and its departure
* `members_iff`: the clients of a server without work
-/

open Io Transition

namespace Groupchat.ThreadServer

universe u v

/-- `ThreadId`: a number, as the tokens of the event server are. -/
abbrev ThreadId := Token

/-- A stream reads in one direction and writes in the other. -/
structure TcpStream (R : Type u) (W : Type v) where
  reader : R
  writer : W
  deriving DecidableEq

structure Client (R : Type u) (W : Type v) where
  name : String
  stream : TcpStream R W
  deriving DecidableEq

variable {R : Type u} {W : Type v}

namespace Client

/-- `Client::new`. -/
def new (stream : TcpStream R W) : Client R W := { name := "", stream }

/-- `Client::set_name`. -/
def setName (client : Client R W) (name : String) : Client R W := { client with name }

/-- `Client::send_msg`. -/
def sendMsg [Write W] (client : Client R W) (msg : String) : Outcome Unit × Client R W :=
  let (result, writer) := encode client.stream.writer (.message msg)
  (result, { client with stream := { client.stream with writer } })

/-- The body of the loop of a client's thread: the client after a command, and the server command that is
to be pushed for it. -/
def respond (client : Client R W) (id : ThreadId) :
    Command → Client R W × ServerCmd (TcpStream R W)
  | .name name =>
    let oldName := client.name
    if oldName ≠ name then
      let client := client.setName name
      if oldName = "" then (client, .announcement ("----- Welcome, " ++ name ++ " -----"))
      else
        (client, .announcement ("----- " ++ oldName ++ " changed name to 👉 " ++ name ++ " -----"))
    else (client, .announcement ("----- Welcome again, " ++ name ++ " -----"))
  | .message msg => (client, .broadcast id (client.name ++ ": " ++ msg))

end Client

/-- Where the thread of a client is: in `decode`, about to push a server command or its `Disconnect`, or
at its end. -/
inductive Phase (R : Type u) (W : Type v)
  | decoding
  | sending (cmd : ServerCmd (TcpStream R W))
  | leaving
  | finished
  | panicked
  deriving DecidableEq

/-- The thread of a client, with the client that it shares with the main thread. -/
structure ClientThread (R : Type u) (W : Type v) where
  client : Client R W
  phase : Phase R W := .decoding
  deriving DecidableEq

namespace ClientThread

/-- `client.stream().decode()`, and what follows until the thread pushes something. -/
def decode [Read R] (t : ClientThread R W) (id : ThreadId) : Option (ClientThread R W × List Command) :=
  match t.phase with
  | .decoding =>
    match Groupchat.decode t.client.stream.reader with
    | (.ok cmd, reader) =>
      let (client, serverCmd) :=
        { t.client with stream := { t.client.stream with reader } }.respond id cmd
      some ({ client, phase := .sending serverCmd }, [cmd])
    | (.error e, reader) =>
      let client := { t.client with stream := { t.client.stream with reader } }
      match e with
      | .error _ => some ({ client, phase := .leaving }, [])
      | .panic => some ({ client, phase := .panicked }, [])
  | _ => none

/-- `server_cmd_sx.send(..)`. -/
def send (t : ClientThread R W) (id : ThreadId) :
    Option (ClientThread R W × ServerCmd (TcpStream R W)) :=
  match t.phase with
  | .sending cmd => some ({ t with phase := .decoding }, cmd)
  | .leaving => some ({ t with phase := .finished }, .disconnect id)
  | _ => none

end ClientThread

/-- What the arm of the server command that has been received last still has to do. -/
inductive Job
  | sendMsg (id : ThreadId) (msg : String)
  | announce (msg : String)
  deriving DecidableEq, Repr

/-- **The server**: the threads by their ids, the ids in the map `clients`, the channel, what is left to do
for the last server command, and whether the main thread has panicked. A client in the map is the one that
the thread of this id shares. -/
structure Server (R : Type u) (W : Type v) where
  threads : List (ClientThread R W) := []
  clients : Finset ThreadId := ∅
  channel : List (ServerCmd (TcpStream R W)) := []
  todo : List Job := []
  panicked : Bool := false

/-- Who pushes a server command, apart from the main thread. -/
inductive Sender
  | listener
  | thread (id : ThreadId)
  deriving DecidableEq, Repr

/-- What happens next: a connection is accepted, the thread of a client decodes or pushes, the main thread
receives a server command, or goes on with the last one. `order` goes through the map, and `spawns` says
whether a thread can be spawned. -/
inductive Action (R : Type u) (W : Type v)
  | accept (stream : TcpStream R W)
  | decode (id : ThreadId)
  | send (id : ThreadId)
  | receive (order : List ThreadId) (spawns : Bool)
  | work

/-- What the threads do. -/
inductive Event (R : Type u) (W : Type v)
  | decoded (id : ThreadId) (cmd : Command)
  | pushed (sender : Option Sender) (cmd : ServerCmd (TcpStream R W))
  | popped (cmd : ServerCmd (TcpStream R W))
  | spawned (id : ThreadId) (stream : TcpStream R W)
  | told (id : ThreadId) (msg : String) (result : Outcome Unit)
  | removed (id : ThreadId) (name : String)
  deriving DecidableEq

/-- The announcement for a client of this name that is removed. -/
def hasLeft (name : String) : String := "----- " ++ name ++ " has left -----"

namespace Server

/-- The order goes through the map. -/
def Iterates (s : Server R W) (order : List ThreadId) : Prop :=
  order.Nodup ∧ order.toFinset = s.clients

instance (s : Server R W) (order : List ThreadId) : Decidable (s.Iterates order) :=
  inferInstanceAs (Decidable (_ ∧ _))

/-- The client of an id in the map. -/
def client? (s : Server R W) (id : ThreadId) : Option (Client R W) :=
  if id ∈ s.clients then s.threads[id.id]?.map ClientThread.client else none

/-- A client after the main thread has written to it. -/
def setClient (s : Server R W) (id : ThreadId) (client : Client R W) : Server R W :=
  { s with threads := s.threads.modify id.id fun t => { t with client } }

/-- The dispatch of the main thread, up to the first thing that other threads can see. -/
def dispatch (s : Server R W) (order : List ThreadId) (spawns : Bool) :
    ServerCmd (TcpStream R W) → Option (Server R W × List (Event R W))
  | .announcement msg =>
    if s.Iterates order then some ({ s with todo := order.map (.sendMsg · msg) }, []) else none
  | .broadcast src msg =>
    if s.Iterates order then
      some ({ s with todo := (order.filter (· ≠ src)).map (.sendMsg · msg) }, [])
    else none
  | .connect stream =>
    if spawns then
      let id : ThreadId := ⟨s.threads.length⟩
      some ({ s with
        threads := s.threads ++ [{ client := .new stream }]
        clients := insert id s.clients }, [.spawned id stream])
    -- `thread::spawn` panics
    else some ({ s with panicked := true }, [])
  | .disconnect id =>
    match s.client? id with
    | none => some (s, [])
    | some client =>
      some ({ s with
        clients := s.clients.erase id
        todo := [.announce (hasLeft client.name)] }, [.removed id client.name])

/-- What the main thread does next for the last server command. -/
def work [Write W] (s : Server R W) : Option (Server R W × List (Event R W)) :=
  match s.todo with
  | [] => none
  | .sendMsg id msg :: todo =>
    match s.client? id with
    -- the loop runs over the map, so that this does not happen
    | none => some ({ s with todo }, [])
    | some client =>
      let (result, client) := client.sendMsg msg
      let s := { s.setClient id client with todo }
      match result with
      | .ok () => some (s, [.told id msg result])
      | .error (.error _) =>
        some ({ s with channel := s.channel ++ [.disconnect id] },
          [.told id msg result, .pushed none (.disconnect id)])
      | .error .panic => some ({ s with panicked := true }, [.told id msg result])
  | .announce msg :: todo =>
    some ({ s with channel := s.channel ++ [.announcement msg], todo },
      [.pushed none (.announcement msg)])

/-- **A step of the server**, as long as the main thread has not panicked. -/
def step [Read R] [Write W] (s : Server R W) (a : Action R W) :
    Option (Server R W × List (Event R W)) :=
  if s.panicked then none
  else match a with
    | .accept stream =>
      some ({ s with channel := s.channel ++ [.connect stream] },
        [.pushed (some .listener) (.connect stream)])
    | .decode id =>
      (s.threads[id.id]?.bind (·.decode id)).map fun (t, cmds) =>
        ({ s with threads := s.threads.set id.id t }, cmds.map (.decoded id))
    | .send id =>
      (s.threads[id.id]?.bind (·.send id)).map fun (t, cmd) =>
        ({ s with threads := s.threads.set id.id t, channel := s.channel ++ [cmd] },
          [.pushed (some (.thread id)) cmd])
    | .receive order spawns =>
      match s.todo, s.channel with
      | [], cmd :: rest =>
        (dispatch { s with channel := rest } order spawns cmd).map fun (s, out) =>
          (s, .popped cmd :: out)
      | _, _ => none
    | .work => s.work

end Server

/-- **The thread server** without clients, in all interleavings of its threads. -/
def threadServer [Read R] [Write W] : Machine (Server R W) (Action R W) (Event R W) where
  init := {}
  step := Server.step

/-! ## What a step does -/

/-- The steps, one by one. -/
inductive Stepped [Read R] [Write W] (s : Server R W) :
    Action R W → List (Event R W) → Server R W → Prop
  | accept (stream : TcpStream R W) :
      Stepped s (.accept stream) [.pushed (some .listener) (.connect stream)]
        { s with channel := s.channel ++ [.connect stream] }
  | decode {id : ThreadId} {t t' : ClientThread R W} {cmds : List Command}
      (ht : s.threads[id.id]? = some t) (hdecode : t.decode id = some (t', cmds)) :
      Stepped s (.decode id) (cmds.map (.decoded id)) { s with threads := s.threads.set id.id t' }
  | send {id : ThreadId} {t t' : ClientThread R W} {cmd : ServerCmd (TcpStream R W)}
      (ht : s.threads[id.id]? = some t) (hsend : t.send id = some (t', cmd)) :
      Stepped s (.send id) [.pushed (some (.thread id)) cmd]
        { s with threads := s.threads.set id.id t', channel := s.channel ++ [cmd] }
  | announcement {msg : String} {rest : List (ServerCmd (TcpStream R W))} {order : List ThreadId}
      {spawns : Bool} (htodo : s.todo = []) (hchannel : s.channel = .announcement msg :: rest)
      (horder : s.Iterates order) :
      Stepped s (.receive order spawns) [.popped (.announcement msg)]
        { s with channel := rest, todo := order.map (.sendMsg · msg) }
  | broadcast {src : ThreadId} {msg : String} {rest : List (ServerCmd (TcpStream R W))}
      {order : List ThreadId} {spawns : Bool} (htodo : s.todo = [])
      (hchannel : s.channel = .broadcast src msg :: rest) (horder : s.Iterates order) :
      Stepped s (.receive order spawns) [.popped (.broadcast src msg)]
        { s with channel := rest, todo := (order.filter (· ≠ src)).map (.sendMsg · msg) }
  | connect {stream : TcpStream R W} {rest : List (ServerCmd (TcpStream R W))}
      {order : List ThreadId} (htodo : s.todo = []) (hchannel : s.channel = .connect stream :: rest) :
      Stepped s (.receive order true)
        [.popped (.connect stream), .spawned ⟨s.threads.length⟩ stream]
        { s with
          threads := s.threads ++ [{ client := .new stream }]
          clients := insert ⟨s.threads.length⟩ s.clients
          channel := rest }
  | refuse {stream : TcpStream R W} {rest : List (ServerCmd (TcpStream R W))}
      {order : List ThreadId} (htodo : s.todo = []) (hchannel : s.channel = .connect stream :: rest) :
      Stepped s (.receive order false) [.popped (.connect stream)]
        { s with channel := rest, panicked := true }
  | disconnect {id : ThreadId} {client : Client R W} {rest : List (ServerCmd (TcpStream R W))}
      {order : List ThreadId} {spawns : Bool} (htodo : s.todo = [])
      (hchannel : s.channel = .disconnect id :: rest) (hclient : s.client? id = some client) :
      Stepped s (.receive order spawns) [.popped (.disconnect id), .removed id client.name]
        { s with
          clients := s.clients.erase id
          channel := rest
          todo := [.announce (hasLeft client.name)] }
  | gone {id : ThreadId} {rest : List (ServerCmd (TcpStream R W))} {order : List ThreadId}
      {spawns : Bool} (htodo : s.todo = []) (hchannel : s.channel = .disconnect id :: rest)
      (hclient : s.client? id = none) :
      Stepped s (.receive order spawns) [.popped (.disconnect id)] { s with channel := rest }
  | told {id : ThreadId} {msg : String} {todo : List Job} {client client' : Client R W}
      (htodo : s.todo = .sendMsg id msg :: todo) (hclient : s.client? id = some client)
      (hsend : client.sendMsg msg = (.ok (), client')) :
      Stepped s .work [.told id msg (.ok ())] { s.setClient id client' with todo }
  | failed {id : ThreadId} {msg : String} {todo : List Job} {client client' : Client R W}
      {kind : ErrorKind} (htodo : s.todo = .sendMsg id msg :: todo)
      (hclient : s.client? id = some client) (hsend : client.sendMsg msg = (err kind, client')) :
      Stepped s .work [.told id msg (err kind), .pushed none (.disconnect id)]
        { s.setClient id client' with channel := s.channel ++ [.disconnect id], todo }
  | panicked {id : ThreadId} {msg : String} {todo : List Job} {client client' : Client R W}
      (htodo : s.todo = .sendMsg id msg :: todo) (hclient : s.client? id = some client)
      (hsend : client.sendMsg msg = (Io.panicked, client')) :
      Stepped s .work [.told id msg Io.panicked] { s.setClient id client' with todo, panicked := true }
  | skip {id : ThreadId} {msg : String} {todo : List Job} (htodo : s.todo = .sendMsg id msg :: todo)
      (hclient : s.client? id = none) : Stepped s .work [] { s with todo }
  | announce {msg : String} {todo : List Job} (htodo : s.todo = .announce msg :: todo) :
      Stepped s .work [.pushed none (.announcement msg)]
        { s with channel := s.channel ++ [.announcement msg], todo }

theorem stepped_of_step [Read R] [Write W] {s s' : Server R W} {a : Action R W}
    {out : List (Event R W)} (hstep : s.step a = some (s', out)) : Stepped s a out s' := by
  unfold Server.step at hstep
  split_ifs at hstep
  cases a with
  | accept stream =>
    obtain ⟨rfl, rfl⟩ := Prod.mk.inj (Option.some.inj hstep)
    exact .accept stream
  | decode id =>
    obtain ⟨⟨t', cmds⟩, hbind, heq⟩ := Option.map_eq_some_iff.mp hstep
    obtain ⟨t, ht, hdecode⟩ := Option.bind_eq_some_iff.mp hbind
    obtain ⟨rfl, rfl⟩ := Prod.mk.inj heq
    exact .decode ht hdecode
  | send id =>
    obtain ⟨⟨t', cmd⟩, hbind, heq⟩ := Option.map_eq_some_iff.mp hstep
    obtain ⟨t, ht, hsend⟩ := Option.bind_eq_some_iff.mp hbind
    obtain ⟨rfl, rfl⟩ := Prod.mk.inj heq
    exact .send ht hsend
  | receive order spawns =>
    simp only at hstep
    split at hstep
    next cmd rest htodo hchannel =>
      obtain ⟨⟨s₁, out₁⟩, hdispatch, heq⟩ := Option.map_eq_some_iff.mp hstep
      obtain ⟨rfl, rfl⟩ := Prod.mk.inj heq
      cases cmd with
      | announcement msg =>
        simp only [Server.dispatch] at hdispatch
        split_ifs at hdispatch with horder
        obtain ⟨rfl, rfl⟩ := Prod.mk.inj (Option.some.inj hdispatch)
        exact .announcement htodo hchannel horder
      | broadcast src msg =>
        simp only [Server.dispatch] at hdispatch
        split_ifs at hdispatch with horder
        obtain ⟨rfl, rfl⟩ := Prod.mk.inj (Option.some.inj hdispatch)
        exact .broadcast htodo hchannel horder
      | connect stream =>
        simp only [Server.dispatch] at hdispatch
        split_ifs at hdispatch with hspawns
        · obtain ⟨rfl, rfl⟩ := Prod.mk.inj (Option.some.inj hdispatch)
          subst hspawns
          exact .connect htodo hchannel
        · obtain ⟨rfl, rfl⟩ := Prod.mk.inj (Option.some.inj hdispatch)
          obtain rfl : spawns = false := by simpa using hspawns
          exact .refuse htodo hchannel
      | disconnect id =>
        simp only [Server.dispatch] at hdispatch
        split at hdispatch
        next hclient =>
          obtain ⟨rfl, rfl⟩ := Prod.mk.inj (Option.some.inj hdispatch)
          exact .gone htodo hchannel hclient
        next client hclient =>
          obtain ⟨rfl, rfl⟩ := Prod.mk.inj (Option.some.inj hdispatch)
          exact .disconnect htodo hchannel hclient
    next => cases hstep
  | work =>
    simp only [Server.work] at hstep
    split at hstep
    next => cases hstep
    next id msg todo htodo =>
      split at hstep
      next hclient =>
        obtain ⟨rfl, rfl⟩ := Prod.mk.inj (Option.some.inj hstep)
        exact .skip htodo hclient
      next client hclient =>
        obtain ⟨result, client', hsend⟩ : ∃ result client', client.sendMsg msg = (result, client') :=
          ⟨_, _, rfl⟩
        rw [hsend] at hstep
        split at hstep
        next hresult =>
          subst hresult
          obtain ⟨rfl, rfl⟩ := Prod.mk.inj (Option.some.inj hstep)
          exact .told htodo hclient hsend
        next kind hresult =>
          subst hresult
          obtain ⟨rfl, rfl⟩ := Prod.mk.inj (Option.some.inj hstep)
          exact .failed htodo hclient hsend
        next hresult =>
          subst hresult
          obtain ⟨rfl, rfl⟩ := Prod.mk.inj (Option.some.inj hstep)
          exact .panicked htodo hclient hsend
    next msg todo htodo =>
      obtain ⟨rfl, rfl⟩ := Prod.mk.inj (Option.some.inj hstep)
      exact .announce htodo

/-! ## The server as a hub -/

/-- A server command as an order of a hub. -/
def order : ServerCmd (TcpStream R W) → Broadcast.Order ThreadId String
  | .announcement msg => .all msg
  | .broadcast src msg => .others src msg
  | .connect _ => .join
  | .disconnect id => .leave id

def Job.task : Job → Broadcast.Task ThreadId String
  | sendMsg id msg => .tell id msg
  | announce msg => .farewell msg

/-- What happens at the hub. -/
def Event.hub? : Event R W → Option (Broadcast.Event ThreadId String String Sender)
  | decoded _ _ => none
  | pushed sender cmd => some (.pushed sender (order cmd))
  | popped cmd => some (.popped (order cmd))
  | spawned id _ => some (.joined id)
  | told id msg result => some (.told id msg (failed result))
  | removed id name => some (.left id name)

/-- The ids of the threads. -/
def ids (n : ℕ) : Finset ThreadId := (Finset.range n).image Token.mk

@[simp] theorem mem_ids {n : ℕ} {id : ThreadId} : id ∈ ids n ↔ id.id < n := by
  obtain ⟨i⟩ := id
  simp [ids]

/-- The server as a hub. -/
def Server.toHub (s : Server R W) : Broadcast.Hub ThreadId String where
  members := s.clients
  joined := ids s.threads.length
  queue := s.channel.map order
  todo := s.todo.map Job.task

/-- The clients in the map have threads, the jobs are for clients in the map, and a thread pushes no
`Disconnect` before its end. -/
structure Linked (s : Server R W) : Prop where
  clients : ∀ id ∈ s.clients, id.id < s.threads.length
  jobs : ∀ id msg, .sendMsg id msg ∈ s.todo → id ∈ s.clients
  sending : ∀ t ∈ s.threads, ∀ id, t.phase ≠ .sending (.disconnect id)

section Refinement

variable {s s' : Server R W} {a : Action R W} {out tr : List (Event R W)} {id : ThreadId}
  {t t' : ClientThread R W}

/-- The body of the loop by what it pushes and how it renames the client. -/
theorem respond_eq (client : Client R W) (id : ThreadId) (cmd : Command) :
    client.respond id cmd = ({ client with name := rename client.name cmd }, reply id client.name cmd) := by
  obtain ⟨name, stream⟩ := client
  cases cmd with
  | message msg => rfl
  | name newName =>
    simp only [Client.respond, reply, rename]
    split_ifs with hsame
    · rfl
    · rfl
    · rw [not_not.mp hsame]

/-- What `decode` leaves: a server command to push, or an end. -/
theorem decode_cases [Read R] {cmds : List Command} (h : t.decode id = some (t', cmds)) :
    t.phase = .decoding ∧
      ((∃ cmd reader, Groupchat.decode t.client.stream.reader = (.ok cmd, reader) ∧ cmds = [cmd] ∧
        t' = {
          client := { name := rename t.client.name cmd, stream := { t.client.stream with reader } }
          phase := .sending (reply id t.client.name cmd) }) ∨
      ∃ e reader, Groupchat.decode t.client.stream.reader = (.error e, reader) ∧ cmds = [] ∧
        t' = {
          client := { t.client with stream := { t.client.stream with reader } }
          phase := if e = .panic then .panicked else .leaving }) := by
  unfold ClientThread.decode at h
  split at h
  next hphase =>
    refine ⟨hphase, ?_⟩
    split at h
    next cmd reader hdecode =>
      rw [respond_eq] at h
      obtain ⟨rfl, rfl⟩ := Prod.mk.inj (Option.some.inj h)
      exact .inl ⟨cmd, reader, hdecode, rfl, rfl⟩
    next e reader hdecode =>
      cases e with
      | error kind =>
        obtain ⟨rfl, rfl⟩ := Prod.mk.inj (Option.some.inj h)
        exact .inr ⟨_, reader, hdecode, rfl, rfl⟩
      | panic =>
        obtain ⟨rfl, rfl⟩ := Prod.mk.inj (Option.some.inj h)
        exact .inr ⟨_, reader, hdecode, rfl, rfl⟩
  next => cases h

/-- What `send` pushes: a server command that has been prepared, or the `Disconnect` at the end. -/
theorem send_cases {cmd : ServerCmd (TcpStream R W)} (h : t.send id = some (t', cmd)) :
    (t.phase = .sending cmd ∧ t' = { t with phase := .decoding }) ∨
      t.phase = .leaving ∧ cmd = .disconnect id ∧ t' = { t with phase := .finished } := by
  unfold ClientThread.send at h
  split at h
  next hphase =>
    obtain ⟨rfl, rfl⟩ := Prod.mk.inj (Option.some.inj h)
    exact .inl ⟨hphase, rfl⟩
  next hphase =>
    obtain ⟨rfl, rfl⟩ := Prod.mk.inj (Option.some.inj h)
    exact .inr ⟨hphase, rfl, rfl⟩
  next => cases h

theorem reply_ne_disconnect (name : String) (cmd : Command) (id' : ThreadId) :
    (reply id name cmd : ServerCmd (TcpStream R W)) ≠ .disconnect id' := by
  intro heq
  have hmem := disconnect_notMem_replies (S := TcpStream R W) id id' name [cmd]
  exact hmem (heq ▸ List.mem_singleton_self _)

theorem client?_isSome (hlinked : Linked s) (hmem : id ∈ s.clients) : (s.client? id).isSome := by
  unfold Server.client?
  rw [if_pos hmem, List.getElem?_eq_getElem (hlinked.clients id hmem)]
  rfl

theorem mem_of_client? {client : Client R W} (h : s.client? id = some client) : id ∈ s.clients := by
  unfold Server.client? at h
  split_ifs at h with hmem
  exact hmem

/-- A client in the map is the one of its thread. -/
theorem exists_of_client? {client : Client R W} (h : s.client? id = some client) :
    ∃ t, s.threads[id.id]? = some t ∧ t.client = client := by
  unfold Server.client? at h
  split_ifs at h
  exact Option.map_eq_some_iff.mp h

/-- The threads after the main thread has written to a client are in the same phases. -/
theorem exists_of_mem_modify {i : ℕ} {client : Client R W}
    (h : t ∈ s.threads.modify i fun t => { t with client }) : ∃ t₀ ∈ s.threads, t₀.phase = t.phase := by
  obtain ⟨j, hj⟩ := List.mem_iff_getElem?.mp h
  rw [List.getElem?_modify] at hj
  obtain ⟨t₀, ht₀, heq⟩ := Option.map_eq_some_iff.mp hj
  refine ⟨t₀, List.mem_of_getElem? ht₀, ?_⟩
  rw [← heq]
  split_ifs <;> rfl

/-- **Each step keeps the links.** -/
theorem Linked.step [Read R] [Write W] (hlinked : Linked s) (hstep : s.step a = some (s', out)) :
    Linked s' := by
  have hset : ∀ {i t₀}, (∀ id, t₀.phase ≠ .sending (.disconnect id)) →
      ∀ t ∈ s.threads.set i t₀, ∀ id, t.phase ≠ .sending (.disconnect id) := by
    intro i t₀ hphase t hmem
    rcases List.mem_or_eq_of_mem_set hmem with hmem | rfl
    · exact hlinked.sending t hmem
    · exact hphase
  have hmodify : ∀ {i} {client : Client R W}, ∀ t ∈ s.threads.modify i fun t => { t with client },
      ∀ id, t.phase ≠ .sending (.disconnect id) := by
    intro i client t hmem id
    obtain ⟨t₀, hmem₀, hphase⟩ := exists_of_mem_modify hmem
    rw [← hphase]
    exact hlinked.sending t₀ hmem₀ id
  cases stepped_of_step hstep with
  | accept stream => exact { clients := hlinked.clients, jobs := hlinked.jobs, sending := hlinked.sending }
  | decode ht hdecode =>
    refine {
      clients := by simpa only [List.length_set] using hlinked.clients
      jobs := hlinked.jobs
      sending := hset fun id' => ?_ }
    obtain ⟨-, ⟨cmd, reader, -, -, rfl⟩ | ⟨e, reader, -, -, rfl⟩⟩ := decode_cases hdecode
    · exact fun heq => reply_ne_disconnect _ _ _ (Phase.sending.inj heq)
    · dsimp only
      split_ifs <;> simp
  | send ht hsend =>
    refine {
      clients := by simpa only [List.length_set] using hlinked.clients
      jobs := hlinked.jobs
      sending := hset fun id' => ?_ }
    obtain ⟨-, rfl⟩ | ⟨-, -, rfl⟩ := send_cases hsend
    · simp
    · simp
  | announcement _ _ horder =>
    exact {
      clients := hlinked.clients
      jobs := fun id msg hmem => by
        obtain ⟨id', hin, heq⟩ := List.mem_map.mp hmem
        obtain ⟨rfl, -⟩ := Job.sendMsg.inj heq
        rw [← horder.2, List.mem_toFinset]
        exact hin
      sending := hlinked.sending }
  | broadcast _ _ horder =>
    exact {
      clients := hlinked.clients
      jobs := fun id msg hmem => by
        obtain ⟨id', hin, heq⟩ := List.mem_map.mp hmem
        obtain ⟨rfl, -⟩ := Job.sendMsg.inj heq
        rw [← horder.2, List.mem_toFinset]
        exact List.mem_of_mem_filter hin
      sending := hlinked.sending }
  | connect htodo _ =>
    exact {
      clients := fun id hmem => by
        rw [List.length_append, List.length_singleton]
        rcases Finset.mem_insert.mp hmem with rfl | hmem
        · exact Nat.lt_succ_self _
        · exact (hlinked.clients id hmem).trans (Nat.lt_succ_self _)
      jobs := fun id msg hmem => Finset.mem_insert_of_mem (hlinked.jobs id msg hmem)
      sending := fun t hmem id => by
        rcases List.mem_append.mp hmem with hmem | hmem
        · exact hlinked.sending t hmem id
        · rw [List.mem_singleton.mp hmem]
          simp }
  | refuse _ _ => exact { clients := hlinked.clients, jobs := hlinked.jobs, sending := hlinked.sending }
  | gone _ _ _ => exact { clients := hlinked.clients, jobs := hlinked.jobs, sending := hlinked.sending }
  | disconnect _ _ _ =>
    exact {
      clients := fun id hmem => hlinked.clients id (Finset.mem_of_mem_erase hmem)
      jobs := fun id msg hmem => by cases List.mem_singleton.mp hmem
      sending := hlinked.sending }
  | told htodo _ _ =>
    exact {
      clients := by simpa only [Server.setClient, List.length_modify] using hlinked.clients
      jobs := fun id msg hmem => hlinked.jobs id msg (htodo ▸ List.mem_cons_of_mem _ hmem)
      sending := hmodify }
  | failed htodo _ _ =>
    exact {
      clients := by simpa only [Server.setClient, List.length_modify] using hlinked.clients
      jobs := fun id msg hmem => hlinked.jobs id msg (htodo ▸ List.mem_cons_of_mem _ hmem)
      sending := hmodify }
  | panicked htodo _ _ =>
    exact {
      clients := by simpa only [Server.setClient, List.length_modify] using hlinked.clients
      jobs := fun id msg hmem => hlinked.jobs id msg (htodo ▸ List.mem_cons_of_mem _ hmem)
      sending := hmodify }
  | skip htodo _ =>
    exact {
      clients := hlinked.clients
      jobs := fun id msg hmem => hlinked.jobs id msg (htodo ▸ List.mem_cons_of_mem _ hmem)
      sending := hlinked.sending }
  | announce htodo =>
    exact {
      clients := hlinked.clients
      jobs := fun id msg hmem => hlinked.jobs id msg (htodo ▸ List.mem_cons_of_mem _ hmem)
      sending := hlinked.sending }

theorem ids_succ (n : ℕ) : ids (n + 1) = insert ⟨n⟩ (ids n) := by
  ext id
  obtain ⟨i⟩ := id
  rw [Finset.mem_insert, mem_ids, mem_ids, Token.mk.injEq]
  exact Nat.lt_succ_iff_lt_or_eq.trans or_comm

/-- **Each step of the server is one of the hub**, or none. -/
theorem Linked.stepped [Read R] [Write W] (hlinked : Linked s) (hstep : s.step a = some (s', out)) :
    (out.filterMap Event.hub? = [] ∧ s'.toHub = s.toHub) ∨
      ∃ b, Broadcast.Known s.toHub b ∧
        Broadcast.Stepped hasLeft s.toHub b (out.filterMap Event.hub?) s'.toHub := by
  have hqueue : ∀ {cmd rest}, s.channel = cmd :: rest → s.toHub.queue = order cmd :: rest.map order :=
    fun hchannel => congrArg (List.map order) hchannel
  have htodo : ∀ {todo}, s.todo = todo → s.toHub.todo = todo.map Job.task :=
    fun htodo => congrArg (List.map Job.task) htodo
  cases stepped_of_step hstep with
  | accept stream =>
    refine .inr ⟨.push .listener .join, trivial, ?_⟩
    have hpush : Broadcast.Stepped hasLeft s.toHub (.push Sender.listener .join)
        [.pushed (some Sender.listener) .join] { s.toHub with queue := s.toHub.queue ++ [.join] } := .push _ _
    simpa [Server.toHub, Event.hub?, order] using hpush
  | decode ht hdecode =>
    refine .inl ⟨?_, ?_⟩
    · rw [List.filterMap_map]
      exact List.filterMap_eq_nil_iff.mpr fun _ _ => rfl
    · simp only [Server.toHub, List.length_set]
  | @send id t t' cmd ht hsend =>
    have hpush : Broadcast.Stepped hasLeft s.toHub (.push (Sender.thread id) (order cmd))
        [.pushed (some (Sender.thread id)) (order cmd)]
        { s.toHub with queue := s.toHub.queue ++ [order cmd] } := .push _ _
    refine .inr ⟨_, ?_, by simpa [Server.toHub, Event.hub?] using hpush⟩
    -- a `Disconnect` of a thread is its own
    obtain ⟨hphase, -⟩ | ⟨-, rfl, -⟩ := send_cases hsend
    · cases cmd with
      | disconnect id' => exact absurd hphase (hlinked.sending t (List.mem_of_getElem? ht) id')
      | _ => trivial
    · exact mem_ids.mpr (List.getElem?_eq_some_iff.mp ht).1
  | @announcement msg rest roll spawns hnil hchannel horder =>
    have hpop : Broadcast.Stepped (σ := Sender) hasLeft s.toHub (.pop roll none "") [.popped (.all msg)]
        { s.toHub with queue := rest.map order, todo := roll.map (.tell · msg) } :=
      .all (htodo hnil) (hqueue hchannel) horder
    refine .inr ⟨.pop roll none "", trivial, ?_⟩
    simpa [Server.toHub, Event.hub?, order, Job.task, Function.comp_def] using hpop
  | @broadcast src msg rest roll spawns hnil hchannel horder =>
    have hpop : Broadcast.Stepped (σ := Sender) hasLeft s.toHub (.pop roll none "")
        [.popped (.others src msg)]
        { s.toHub with queue := rest.map order, todo := (roll.filter (· ≠ src)).map (.tell · msg) } :=
      .others (htodo hnil) (hqueue hchannel) horder
    refine .inr ⟨.pop roll none "", trivial, ?_⟩
    simpa [Server.toHub, Event.hub?, order, Job.task, Function.comp_def] using hpop
  | @connect stream rest roll hnil hchannel =>
    have hfresh : (⟨s.threads.length⟩ : ThreadId) ∉ s.toHub.joined := by
      rw [Server.toHub, mem_ids]
      exact lt_irrefl _
    have hpop : Broadcast.Stepped (σ := Sender) hasLeft s.toHub (.pop roll (some ⟨s.threads.length⟩) "")
        [.popped .join, .joined ⟨s.threads.length⟩]
        { s.toHub with
          members := insert ⟨s.threads.length⟩ s.clients
          joined := insert ⟨s.threads.length⟩ (ids s.threads.length)
          queue := rest.map order } :=
      .join (htodo hnil) (hqueue hchannel) hfresh
    refine .inr ⟨.pop roll (some ⟨s.threads.length⟩) "", trivial, ?_⟩
    simpa [Server.toHub, Event.hub?, order, ids_succ] using hpop
  | @refuse stream rest roll hnil hchannel =>
    have hpop : Broadcast.Stepped (σ := Sender) hasLeft s.toHub (.pop roll none "") [.popped .join]
        { s.toHub with queue := rest.map order } := .refuse (htodo hnil) (hqueue hchannel)
    refine .inr ⟨.pop roll none "", trivial, ?_⟩
    simpa [Server.toHub, Event.hub?, order] using hpop
  | @gone id rest roll spawns hnil hchannel hclient =>
    have hnot : id ∉ s.toHub.members := fun hmem => by
      have hsome := client?_isSome hlinked hmem
      rw [hclient] at hsome
      cases hsome
    have hpop : Broadcast.Stepped (σ := Sender) hasLeft s.toHub (.pop roll none "") [.popped (.leave id)]
        { s.toHub with queue := rest.map order } := .gone (htodo hnil) (hqueue hchannel) hnot
    refine .inr ⟨.pop roll none "", trivial, ?_⟩
    simpa [Server.toHub, Event.hub?, order] using hpop
  | @disconnect id client rest roll spawns hnil hchannel hclient =>
    have hpop : Broadcast.Stepped (σ := Sender) hasLeft s.toHub (.pop roll none client.name)
        [.popped (.leave id), .left id client.name]
        { s.toHub with
          members := s.clients.erase id
          queue := rest.map order
          todo := [.farewell (hasLeft client.name)] } :=
      .leave (htodo hnil) (hqueue hchannel) (mem_of_client? hclient)
    refine .inr ⟨.pop roll none client.name, trivial, ?_⟩
    simpa [Server.toHub, Event.hub?, order, Job.task] using hpop
  | @told id msg todo client client' hjobs hclient hsend =>
    have hwork : Broadcast.Stepped (σ := Sender) hasLeft s.toHub (.work false) [.told id msg false]
        { s.toHub with todo := todo.map Job.task } := .tell (htodo hjobs)
    refine .inr ⟨.work false, trivial, ?_⟩
    simpa [Server.toHub, Server.setClient, Event.hub?, failed] using hwork
  | @failed id msg todo client client' kind hjobs hclient hsend =>
    have hwork : Broadcast.Stepped (σ := Sender) hasLeft s.toHub (.work true)
        [.told id msg true, .pushed none (.leave id)]
        { s.toHub with queue := s.toHub.queue ++ [.leave id], todo := todo.map Job.task } :=
      .fail (htodo hjobs)
    refine .inr ⟨.work true, trivial, ?_⟩
    simpa [Server.toHub, Server.setClient, Event.hub?, failed, err, order] using hwork
  | @panicked id msg todo client client' hjobs hclient hsend =>
    have hwork : Broadcast.Stepped (σ := Sender) hasLeft s.toHub (.work false) [.told id msg false]
        { s.toHub with todo := todo.map Job.task } := .tell (htodo hjobs)
    refine .inr ⟨.work false, trivial, ?_⟩
    simpa [Server.toHub, Server.setClient, Event.hub?, failed, Io.panicked] using hwork
  | @skip id msg todo hjobs hclient =>
    have hsome := client?_isSome hlinked (hlinked.jobs id msg (hjobs ▸ List.mem_cons_self))
    rw [hclient] at hsome
    cases hsome
  | @announce msg todo hjobs =>
    have hwork : Broadcast.Stepped (σ := Sender) hasLeft s.toHub (.work false) [.pushed none (.all msg)]
        { s.toHub with queue := s.toHub.queue ++ [.all msg], todo := todo.map Job.task } :=
      .farewell (htodo hjobs)
    refine .inr ⟨.work false, trivial, ?_⟩
    simpa [Server.toHub, Event.hub?, order] using hwork

/-- **The server is a hub**: every run of its threads is one of the hub. -/
theorem refines_hub [Read R] [Write W] {ok : Server R W → Action R W → Prop}
    (h : threadServer.Run ok tr s) :
    Linked s ∧ (Broadcast.hub hasLeft).Run Broadcast.Known (tr.filterMap Event.hub?) s.toHub := by
  have hrefines : ∃ u, (Broadcast.hub hasLeft).Run Broadcast.Known (tr.filterMap Event.hub?) u ∧
      (Linked s ∧ u = s.toHub) := by
    refine h.refines (R := fun s u => Linked s ∧ u = s.toHub) Event.hub? ⟨?_, rfl⟩ ?_
    · exact {
        clients := fun id hmem => absurd hmem (Finset.notMem_empty id)
        jobs := fun id msg hmem => absurd hmem List.not_mem_nil
        sending := fun t hmem => absurd hmem List.not_mem_nil }
    · rintro tr' s _ a s' out hrun ⟨hlinked, rfl⟩ - hstep
      refine ⟨s'.toHub, ?_, hlinked.step hstep, rfl⟩
      rcases hlinked.stepped hstep with ⟨hnone, hsame⟩ | ⟨b, hknown, hstepped⟩
      · rwa [hnone, List.append_nil, hsame]
      · exact .step hrun hknown (Broadcast.step_of_stepped hstepped)
  obtain ⟨_, hrun, hlinked, rfl⟩ := hrefines
  exact ⟨hlinked, hrun⟩

end Refinement

/-! ## What the clients hear -/

/-- The messages of the calls of `send_msg` for a client, whatever the results of the calls. -/
def toldTo (id : ThreadId) (tr : List (Event R W)) : List String :=
  Broadcast.told id (tr.filterMap Event.hub?)

/-- The messages that `send_msg` is still to be called with for a client. -/
def Server.untold (s : Server R W) (id : ThreadId) : List String :=
  s.todo.filterMap fun
    | .sendMsg id' msg => if id' = id then some msg else none
    | .announce _ => none

/-- The announcements and broadcasts that the main thread has received. -/
def received (tr : List (Event R W)) : List String := Broadcast.texts (tr.filterMap Event.hub?)

/-- The calls of `send_msg` for a client, with their results. -/
def calls (id : ThreadId) (tr : List (Event R W)) : List (String × Outcome Unit) :=
  tr.filterMap fun
    | .told id' msg result => if id' = id then some (msg, result) else none
    | _ => none

/-- The messages are encoded into a writer one after the other, with these results. -/
inductive Encodes [Write W] (start : W) : List (String × Outcome Unit) → W → Prop
  | nil : Encodes start [] start
  | snoc {calls : List (String × Outcome Unit)} {writer writer' : W} {msg : String} {result : Outcome Unit}
      (h : Encodes start calls writer) (hencode : encode writer (.message msg) = (result, writer')) :
      Encodes start (calls ++ [(msg, result)]) writer'

/-- The main thread writes to the clients of all threads, and what has not been spawned is not written to. -/
structure Writing [Write W] (tr : List (Event R W)) (s : Server R W) : Prop where
  thread : ∀ i t, s.threads[i]? = some t → ∃ stream, .spawned ⟨i⟩ stream ∈ tr ∧
    Encodes stream.writer (calls ⟨i⟩ tr) t.client.stream.writer
  fresh : ∀ i, s.threads.length ≤ i → calls ⟨i⟩ tr = []

section Hearing

variable {s s' : Server R W} {a : Action R W} {tr out : List (Event R W)} {id : ThreadId}
  {t t' : ClientThread R W}

theorem untold_eq (s : Server R W) (id : ThreadId) :
    s.untold id = Broadcast.pending id s.toHub.todo := by
  show s.todo.filterMap _ = (s.todo.map Job.task).filterMap _
  rw [List.filterMap_map]
  refine congrArg (List.filterMap · s.todo) (funext fun job => ?_)
  cases job <;> rfl

theorem toldTo_eq (id : ThreadId) (tr : List (Event R W)) : toldTo id tr = (calls id tr).map Prod.fst := by
  rw [toldTo, Broadcast.told, List.filterMap_filterMap, calls, List.map_filterMap]
  refine congrArg (List.filterMap · tr) (funext fun e => ?_)
  cases e with
  | told id' msg result =>
    simp only [Event.hub?, Option.bind_some, Broadcast.Event.told?]
    split_ifs <;> rfl
  | _ => rfl

theorem calls_append : calls id (tr ++ out) = calls id tr ++ calls id out :=
  List.filterMap_append ..

/-- A step that writes nothing. -/
theorem Writing.append [Write W] (hwriting : Writing tr s) (hlength : s'.threads.length = s.threads.length)
    (hthreads : ∀ (i : ℕ) (t' : ClientThread R W), s'.threads[i]? = some t' →
      ∃ t : ClientThread R W, s.threads[i]? = some t ∧
        t'.client.stream.writer = t.client.stream.writer)
    (hquiet : ∀ id, calls id out = []) : Writing (tr ++ out) s' where
  thread i t' ht' := by
    obtain ⟨t, ht, hwriter⟩ := hthreads i t' ht'
    obtain ⟨stream, hspawned, hencodes⟩ := hwriting.thread i t ht
    refine ⟨stream, List.mem_append_left _ hspawned, ?_⟩
    rw [calls_append, hquiet, List.append_nil, hwriter]
    exact hencodes
  fresh i hi := by
    rw [calls_append, hquiet, List.append_nil]
    exact hwriting.fresh i (hlength ▸ hi)

/-- A step of one thread, which does not write. -/
theorem Writing.set [Write W] (hwriting : Writing tr s) {i : ℕ} (ht : s.threads[i]? = some t)
    (hthreads : s'.threads = s.threads.set i t')
    (hwriter : t'.client.stream.writer = t.client.stream.writer) (hquiet : ∀ id, calls id out = []) :
    Writing (tr ++ out) s' := by
  refine hwriting.append (hthreads ▸ List.length_set) (fun j t₁ ht₁ => ?_) hquiet
  rw [hthreads] at ht₁
  by_cases heq : j = i
  · subst heq
    rw [List.getElem?_set_self (List.getElem?_eq_some_iff.mp ht).1] at ht₁
    exact ⟨t, ht, Option.some.inj ht₁ ▸ hwriter⟩
  · rw [List.getElem?_set_ne (Ne.symm heq)] at ht₁
    exact ⟨t₁, ht₁, rfl⟩

/-- A call of `send_msg`. -/
theorem Writing.told [Write W] (hwriting : Writing tr s) {client client' : Client R W} {msg : String}
    {result : Outcome Unit} (hclient : s.client? id = some client)
    (hsend : client.sendMsg msg = (result, client'))
    (hthreads : s'.threads = (s.setClient id client').threads)
    (hcalls : ∀ id', calls id' out = if id = id' then [(msg, result)] else []) :
    Writing (tr ++ out) s' where
  thread i t' ht' := by
    rw [hthreads, Server.setClient, List.getElem?_modify] at ht'
    obtain ⟨t, ht, rfl⟩ := Option.map_eq_some_iff.mp ht'
    obtain ⟨stream, hspawned, hencodes⟩ := hwriting.thread i t ht
    refine ⟨stream, List.mem_append_left _ hspawned, ?_⟩
    rw [calls_append, hcalls]
    by_cases hid : id.id = i
    · subst hid
      obtain ⟨t₀, ht₀, rfl⟩ := exists_of_client? hclient
      obtain rfl := Option.some.inj (ht.symm.trans ht₀)
      obtain ⟨rfl, rfl⟩ := Prod.mk.inj hsend
      rw [if_pos rfl, if_pos rfl]
      exact hencodes.snoc rfl
    · rw [if_neg hid, if_neg fun heq => hid (congrArg Token.id heq), List.append_nil]
      exact hencodes
  fresh i hi := by
    obtain ⟨t, ht, -⟩ := exists_of_client? hclient
    have hlt := (List.getElem?_eq_some_iff.mp ht).1
    rw [hthreads, Server.setClient, List.length_modify] at hi
    rw [calls_append, hcalls, if_neg, List.append_nil]
    · exact hwriting.fresh i hi
    · rintro rfl
      exact absurd hlt (Nat.not_lt.mpr hi)

variable [Read R] [Write W]

theorem Writing.step (hwriting : Writing tr s) (hstep : s.step a = some (s', out)) :
    Writing (tr ++ out) s' := by
  have hself : ∀ (i : ℕ) (t : ClientThread R W), s.threads[i]? = some t →
      ∃ t₀ : ClientThread R W, s.threads[i]? = some t₀ ∧
        t.client.stream.writer = t₀.client.stream.writer := fun i t ht => ⟨t, ht, rfl⟩
  have hone : ∀ (id id' : ThreadId) (msg : String) (result : Outcome Unit) (more : List (Event R W)),
      calls id' more = [] →
      calls id' (.told id msg result :: more) = if id = id' then [(msg, result)] else [] := by
    intro id id' msg result more hmore
    unfold calls at hmore ⊢
    split_ifs with heq
    · simp [heq, hmore]
    · simp [heq, hmore]
  cases stepped_of_step hstep with
  | @decode id t t' cmds ht hdecode =>
    refine hwriting.set ht rfl ?_ fun id' => ?_
    · obtain ⟨-, ⟨_, _, -, -, rfl⟩ | ⟨_, _, -, -, rfl⟩⟩ := decode_cases hdecode <;> rfl
    · rw [calls, List.filterMap_map]
      exact List.filterMap_eq_nil_iff.mpr fun _ _ => rfl
  | @send id t t' cmd ht hsend =>
    refine hwriting.set ht rfl ?_ fun _ => rfl
    obtain ⟨-, rfl⟩ | ⟨-, -, rfl⟩ := send_cases hsend <;> rfl
  | told _ hclient hsend => exact hwriting.told hclient hsend rfl fun _ => hone _ _ _ _ _ rfl
  | failed _ hclient hsend => exact hwriting.told hclient hsend rfl fun _ => hone _ _ _ _ _ rfl
  | panicked _ hclient hsend => exact hwriting.told hclient hsend rfl fun _ => hone _ _ _ _ _ rfl
  | @connect stream rest roll hnil hchannel =>
    have hquiet : ∀ id : ThreadId,
        calls id (tr ++ [.popped (.connect stream), .spawned ⟨s.threads.length⟩ stream]) = calls id tr :=
      fun id => calls_append.trans (List.append_nil _)
    exact {
      thread := fun i t ht => by
        rw [hquiet]
        rcases lt_or_ge i s.threads.length with hlt | hge
        · rw [List.getElem?_append_left hlt] at ht
          obtain ⟨stream, hspawned, hencodes⟩ := hwriting.thread i t ht
          exact ⟨stream, List.mem_append_left _ hspawned, hencodes⟩
        · rw [List.getElem?_append_right hge] at ht
          obtain ⟨hi, rfl⟩ := by simpa using List.getElem?_eq_some_iff.mp ht
          obtain rfl : i = s.threads.length := by omega
          rw [hwriting.fresh _ le_rfl]
          exact ⟨stream, by simp, .nil⟩
      fresh := fun i hi => by
        rw [List.length_append, List.length_singleton] at hi
        rw [hquiet]
        exact hwriting.fresh i (Nat.le_of_succ_le hi) }
  | _ => exact hwriting.append rfl hself fun _ => rfl

/-- **Each client is told what it has to hear**: `send_msg` is called for it with what the main thread has
received since the client was in the map, apart from its own broadcasts, with each message once and in the
order of the channel. The calls for all clients are in this one order. The writer of a client is what the
calls for it have made of the one that it has joined with. -/
theorem server_hears (h : threadServer.Run Machine.unguarded tr s) (id : ThreadId) :
    toldTo id tr ++ s.untold id = (Broadcast.listener id (tr.filterMap Event.hub?)).heard ∧
      ((Broadcast.listener id (tr.filterMap Event.hub?)).present = true ↔ id ∈ s.clients) ∧
      (toldTo id tr ++ s.untold id).Sublist (received tr) ∧
      toldTo id tr = (calls id tr).map Prod.fst ∧
      ∀ t, s.threads[id.id]? = some t → ∃ stream, .spawned id stream ∈ tr ∧
        Encodes stream.writer (calls id tr) t.client.stream.writer := by
  obtain ⟨-, hrun⟩ := refines_hub h
  have hears := Broadcast.hub_hears hrun id
  have hheard : toldTo id tr ++ s.untold id = (Broadcast.listener id (tr.filterMap Event.hub?)).heard := by
    rw [untold_eq]
    exact hears.heard
  have hwriting : Writing tr s := by
    refine h.invariant (P := fun tr s => Writing tr s) ?_ ?_
    · exact {
        thread := fun i t ht => by cases ht
        fresh := fun i _ => rfl }
    · intro tr s a s' out hwriting _ hstep
      exact hwriting.step hstep
  refine ⟨hheard, hears.present, ?_, toldTo_eq id tr, fun t ht => hwriting.thread id.id t ht⟩
  rw [hheard]
  exact Broadcast.heard_sublist_texts _ _

end Hearing

/-! ## What the threads push -/

/-- What the thread of a client has decoded. -/
def decodedBy (id : ThreadId) (tr : List (Event R W)) : List Command :=
  tr.filterMap fun
    | .decoded id' cmd => if id' = id then some cmd else none
    | _ => none

/-- What the thread of a client has pushed. -/
def pushedBy (id : ThreadId) (tr : List (Event R W)) : List (ServerCmd (TcpStream R W)) :=
  tr.filterMap fun
    | .pushed (some (.thread id')) cmd => if id' = id then some cmd else none
    | _ => none

/-- Calls of `decode` that return these commands. -/
inductive Decodes [Read R] (start : R) : List Command → R → Prop
  | nil : Decodes start [] start
  | snoc {cmds : List Command} {reader reader' : R} {cmd : Command} :
      Decodes start cmds reader → decode reader = (.ok cmd, reader') →
        Decodes start (cmds ++ [cmd]) reader'

namespace ClientThread

/-- What a thread is still to push. -/
def unsent (t : ClientThread R W) (id : ThreadId) : List (ServerCmd (TcpStream R W)) :=
  match t.phase with
  | .sending cmd => [cmd]
  | .leaving => [.disconnect id]
  | _ => []

/-- What a thread pushes at its end, if it has come to it. -/
def goodbye (t : ClientThread R W) (id : ThreadId) : List (ServerCmd (TcpStream R W)) :=
  match t.phase with
  | .leaving | .finished => [.disconnect id]
  | _ => []

/-- A thread has decoded these commands, and has come to its end when it could not decode any more. -/
def HasRead [Read R] (t : ClientThread R W) (start : R) (cmds : List Command) : Prop :=
  match t.phase with
  | .decoding | .sending _ => Decodes start cmds t.client.stream.reader
  | .leaving | .finished =>
    ∃ reader kind, Decodes start cmds reader ∧
      Groupchat.decode reader = (err kind, t.client.stream.reader)
  | .panicked =>
    ∃ reader, Decodes start cmds reader ∧ Groupchat.decode reader = (Io.panicked, t.client.stream.reader)

end ClientThread

/-- A thread serves its client: it has pushed what the client has asked for by the name it had at the time,
and at its end the departure of the client. -/
structure Serves [Read R] (id : ThreadId) (tr : List (Event R W)) (t : ClientThread R W) : Prop where
  name : t.client.name = (decodedBy id tr).foldl rename ""
  pushes : pushedBy id tr ++ t.unsent id = replies id "" (decodedBy id tr) ++ t.goodbye id
  reads : ∃ stream, .spawned id stream ∈ tr ∧ t.HasRead stream.reader (decodedBy id tr)

/-- All threads serve their clients, and what has not been spawned has done nothing. -/
structure Serving [Read R] (tr : List (Event R W)) (s : Server R W) : Prop where
  thread : ∀ i t, s.threads[i]? = some t → Serves ⟨i⟩ tr t
  fresh : ∀ i, s.threads.length ≤ i → decodedBy ⟨i⟩ tr = [] ∧ pushedBy ⟨i⟩ tr = []

section Serving

variable [Read R] [Write W] {s s' : Server R W} {a : Action R W} {tr out : List (Event R W)}
  {id : ThreadId} {t t' : ClientThread R W}

omit [Read R] [Write W] in
theorem decodedBy_append : decodedBy id (tr ++ out) = decodedBy id tr ++ decodedBy id out :=
  List.filterMap_append ..

omit [Read R] [Write W] in
theorem pushedBy_append : pushedBy id (tr ++ out) = pushedBy id tr ++ pushedBy id out :=
  List.filterMap_append ..

omit [Write W] in
/-- A step of others. -/
theorem Serves.append (hserves : Serves id tr t) (hdecoded : decodedBy id out = [])
    (hpushed : pushedBy id out = []) (hname : t'.client.name = t.client.name)
    (hphase : t'.phase = t.phase) (hreader : t'.client.stream.reader = t.client.stream.reader) :
    Serves id (tr ++ out) t' where
  name := by rw [decodedBy_append, hdecoded, List.append_nil, hname, hserves.name]
  pushes := by
    rw [decodedBy_append, hdecoded, pushedBy_append, hpushed, List.append_nil, List.append_nil,
      ClientThread.unsent, ClientThread.goodbye, hphase]
    exact hserves.pushes
  reads := by
    obtain ⟨stream, hmem, hread⟩ := hserves.reads
    refine ⟨stream, List.mem_append_left _ hmem, ?_⟩
    rw [decodedBy_append, hdecoded, List.append_nil, ClientThread.HasRead, hphase, hreader]
    exact hread

omit [Read R] [Write W] in
theorem decodedBy_map_decoded (id id' : ThreadId) (cmds : List Command) :
    decodedBy id (cmds.map (.decoded id') : List (Event R W)) = if id' = id then cmds else [] := by
  show (cmds.map _).filterMap _ = _
  rw [List.filterMap_map]
  split_ifs with heq
  · subst heq
    exact (List.filterMap_congr fun cmd _ => if_pos rfl).trans List.filterMap_some
  · exact List.filterMap_eq_nil_iff.mpr fun cmd _ => if_neg heq

omit [Read R] [Write W] in
theorem pushedBy_map_decoded (id id' : ThreadId) (cmds : List Command) :
    pushedBy id (cmds.map (.decoded id') : List (Event R W)) = [] := by
  show (cmds.map _).filterMap _ = _
  rw [List.filterMap_map]
  exact List.filterMap_eq_nil_iff.mpr fun cmd _ => rfl

omit [Write W] in
/-- A step in which a thread decodes. -/
theorem Serves.decode {cmds : List Command} (hserves : Serves id tr t)
    (hdecode : t.decode id = some (t', cmds)) : Serves id (tr ++ cmds.map (.decoded id)) t' := by
  obtain ⟨stream, hmem, hread⟩ := hserves.reads
  have hpushes := hserves.pushes
  obtain ⟨hphase, hcases⟩ := decode_cases hdecode
  have hdecodes : Decodes stream.reader (decodedBy id tr) t.client.stream.reader := by
    rwa [ClientThread.HasRead, hphase] at hread
  have hdone : pushedBy id tr = replies id "" (decodedBy id tr) := by
    simpa [ClientThread.unsent, ClientThread.goodbye, hphase] using hpushes
  have hdecoded : decodedBy id (tr ++ cmds.map (.decoded id)) = decodedBy id tr ++ cmds := by
    rw [decodedBy_append, decodedBy_map_decoded, if_pos rfl]
  have hpushed : pushedBy id (tr ++ cmds.map (.decoded id)) = pushedBy id tr := by
    rw [pushedBy_append, pushedBy_map_decoded, List.append_nil]
  have hspawned := List.mem_append_left (cmds.map (.decoded id)) hmem
  rcases hcases with ⟨cmd, reader, hresult, rfl, rfl⟩ | ⟨e, reader, hresult, rfl, rfl⟩
  · exact {
      name := by rw [hdecoded, List.foldl_append, ← hserves.name]; rfl
      pushes := by
        rw [hpushed, hdecoded, hdone, replies_append, ← hserves.name]
        exact (List.append_nil _).symm
      reads := ⟨stream, hspawned, hdecoded ▸ hdecodes.snoc hresult⟩ }
  · rw [List.append_nil] at hdecoded
    cases e with
    | error kind =>
      exact {
        name := by rw [hdecoded]; exact hserves.name
        pushes := by
          rw [hpushed, hdecoded, hdone]
          rfl
        reads := ⟨stream, hspawned, _, kind, hdecoded ▸ hdecodes, hresult⟩ }
    | panic =>
      exact {
        name := by rw [hdecoded]; exact hserves.name
        pushes := by
          rw [hpushed, hdecoded, hdone]
          rfl
        reads := ⟨stream, hspawned, _, hdecoded ▸ hdecodes, hresult⟩ }

omit [Write W] in
/-- A step in which a thread pushes. -/
theorem Serves.send {cmd : ServerCmd (TcpStream R W)} (hserves : Serves id tr t)
    (hsend : t.send id = some (t', cmd)) :
    Serves id (tr ++ [.pushed (some (.thread id)) cmd]) t' := by
  obtain ⟨stream, hmem, hread⟩ := hserves.reads
  have hpushes := hserves.pushes
  have hdecoded : decodedBy id (tr ++ [.pushed (some (.thread id)) cmd]) = decodedBy id tr := by
    rw [decodedBy_append]
    exact List.append_nil _
  have hpushed : pushedBy id (tr ++ [.pushed (some (.thread id)) cmd]) = pushedBy id tr ++ [cmd] := by
    rw [pushedBy_append]
    exact congrArg (pushedBy id tr ++ ·) (List.filterMap_cons_some (if_pos rfl))
  have hspawned := List.mem_append_left [.pushed (some (.thread id)) cmd] hmem
  obtain ⟨hphase, rfl⟩ | ⟨hphase, rfl, rfl⟩ := send_cases hsend
  · exact {
      name := by rw [hdecoded]; exact hserves.name
      pushes := by
        simp only [ClientThread.unsent, ClientThread.goodbye, hphase] at hpushes
        rw [hpushed, hdecoded, hpushes]
        exact List.append_nil _
      reads := ⟨stream, hspawned, by
        rw [ClientThread.HasRead, hphase] at hread
        rw [hdecoded]
        exact hread⟩ }
  · exact {
      name := by rw [hdecoded]; exact hserves.name
      pushes := by
        simp only [ClientThread.unsent, ClientThread.goodbye, hphase] at hpushes
        rw [hpushed, hdecoded, hpushes]
        exact List.append_nil _
      reads := ⟨stream, hspawned, by
        rw [ClientThread.HasRead, hphase] at hread
        rw [hdecoded]
        exact hread⟩ }

omit [Write W] in
/-- A step in which no thread takes part: the threads are as before, apart from what is written to their
clients. -/
theorem Serving.append (hserving : Serving tr s) (hlength : s'.threads.length = s.threads.length)
    (hthreads : ∀ (i : ℕ) (t' : ClientThread R W), s'.threads[i]? = some t' →
      ∃ t : ClientThread R W, s.threads[i]? = some t ∧
      t'.client.name = t.client.name ∧ t'.phase = t.phase ∧
        t'.client.stream.reader = t.client.stream.reader)
    (hquiet : ∀ id, decodedBy id out = [] ∧ pushedBy id out = []) : Serving (tr ++ out) s' where
  thread i t' ht' := by
    obtain ⟨t, ht, hname, hphase, hreader⟩ := hthreads i t' ht'
    exact (hserving.thread i t ht).append (hquiet _).1 (hquiet _).2 hname hphase hreader
  fresh i hi := by
    rw [decodedBy_append, pushedBy_append, (hquiet _).1, (hquiet _).2, List.append_nil, List.append_nil]
    exact hserving.fresh i (hlength ▸ hi)

omit [Write W] in
/-- A step of one thread. -/
theorem Serving.set {i : ℕ} (hserving : Serving tr s) (ht : s.threads[i]? = some t)
    (hserves : Serves ⟨i⟩ (tr ++ out) t') (hthreads : s'.threads = s.threads.set i t')
    (hquiet : ∀ id : ThreadId, id ≠ ⟨i⟩ → decodedBy id out = [] ∧ pushedBy id out = []) :
    Serving (tr ++ out) s' where
  thread j t₀ ht₀ := by
    rw [hthreads] at ht₀
    by_cases heq : j = i
    · subst heq
      rw [List.getElem?_set_self (List.getElem?_eq_some_iff.mp ht).1] at ht₀
      exact Option.some.inj ht₀ ▸ hserves
    · rw [List.getElem?_set_ne (Ne.symm heq)] at ht₀
      have hother := hquiet ⟨j⟩ fun h => heq (congrArg Token.id h)
      exact (hserving.thread j t₀ ht₀).append hother.1 hother.2 rfl rfl rfl
  fresh j hj := by
    rw [hthreads, List.length_set] at hj
    have hlt := (List.getElem?_eq_some_iff.mp ht).1
    have hother := hquiet ⟨j⟩ fun h => absurd (congrArg Token.id h) (Nat.ne_of_gt (hlt.trans_le hj))
    rw [decodedBy_append, pushedBy_append, hother.1, hother.2, List.append_nil, List.append_nil]
    exact hserving.fresh j hj

omit [Read R] in
/-- A client that has been written to is the same one, apart from its writer. -/
theorem exists_thread_of_setClient {client client' : Client R W} {msg : String} {result : Outcome Unit}
    (hclient : s.client? id = some client) (hsend : client.sendMsg msg = (result, client')) (i : ℕ)
    (t' : ClientThread R W) (ht' : (s.setClient id client').threads[i]? = some t') :
    ∃ t : ClientThread R W, s.threads[i]? = some t ∧ t'.client.name = t.client.name ∧
      t'.phase = t.phase ∧
      t'.client.stream.reader = t.client.stream.reader := by
  rw [Server.setClient, List.getElem?_modify] at ht'
  obtain ⟨t, ht, heq⟩ := Option.map_eq_some_iff.mp ht'
  refine ⟨t, ht, ?_⟩
  subst heq
  split_ifs with hid
  · subst hid
    obtain ⟨t₀, ht₀, rfl⟩ := exists_of_client? hclient
    obtain rfl := Option.some.inj (ht.symm.trans ht₀)
    obtain ⟨-, rfl⟩ := Prod.mk.inj hsend
    exact ⟨rfl, rfl, rfl⟩
  · exact ⟨rfl, rfl, rfl⟩

/-- **Each step is served.** -/
theorem Serving.step (hserving : Serving tr s) (hstep : s.step a = some (s', out)) :
    Serving (tr ++ out) s' := by
  have hself : ∀ (i : ℕ) (t : ClientThread R W), s.threads[i]? = some t →
      ∃ t₀ : ClientThread R W, s.threads[i]? = some t₀ ∧
      t.client.name = t₀.client.name ∧ t.phase = t₀.phase ∧
        t.client.stream.reader = t₀.client.stream.reader :=
    fun i t ht => ⟨t, ht, rfl, rfl, rfl⟩
  cases stepped_of_step hstep with
  | accept stream => exact hserving.append rfl hself fun _ => ⟨rfl, rfl⟩
  | @decode id t t' cmds ht hdecode =>
    refine hserving.set ht ((hserving.thread _ t ht).decode hdecode) rfl fun id' hne => ⟨?_, ?_⟩
    · rw [decodedBy_map_decoded, if_neg (Ne.symm hne)]
    · exact pushedBy_map_decoded _ _ _
  | @send id t t' cmd ht hsend =>
    refine hserving.set ht ((hserving.thread _ t ht).send hsend) rfl fun id' hne => ⟨rfl, ?_⟩
    exact List.filterMap_cons_none (if_neg (Ne.symm hne))
  | announcement _ _ _ => exact hserving.append rfl hself fun _ => ⟨rfl, rfl⟩
  | broadcast _ _ _ => exact hserving.append rfl hself fun _ => ⟨rfl, rfl⟩
  | refuse _ _ => exact hserving.append rfl hself fun _ => ⟨rfl, rfl⟩
  | gone _ _ _ => exact hserving.append rfl hself fun _ => ⟨rfl, rfl⟩
  | disconnect _ _ _ => exact hserving.append rfl hself fun _ => ⟨rfl, rfl⟩
  | skip _ _ => exact hserving.append rfl hself fun _ => ⟨rfl, rfl⟩
  | announce _ => exact hserving.append rfl hself fun _ => ⟨rfl, rfl⟩
  | told _ hclient hsend =>
    exact hserving.append (List.length_modify ..) (exists_thread_of_setClient hclient hsend)
      fun _ => ⟨rfl, rfl⟩
  | failed _ hclient hsend =>
    exact hserving.append (List.length_modify ..) (exists_thread_of_setClient hclient hsend)
      fun _ => ⟨rfl, rfl⟩
  | panicked _ hclient hsend =>
    exact hserving.append (List.length_modify ..) (exists_thread_of_setClient hclient hsend)
      fun _ => ⟨rfl, rfl⟩
  | @connect stream rest roll hnil hchannel =>
    have hquiet : ∀ id : ThreadId,
        decodedBy id (tr ++ [.popped (.connect stream), .spawned ⟨s.threads.length⟩ stream]) =
          decodedBy id tr ∧
        pushedBy id (tr ++ [.popped (.connect stream), .spawned ⟨s.threads.length⟩ stream]) =
          pushedBy id tr := fun id => by
      rw [decodedBy_append, pushedBy_append]
      exact ⟨List.append_nil _, List.append_nil _⟩
    exact {
      thread := fun i t ht => by
        rcases Nat.lt_trichotomy i s.threads.length with hlt | rfl | hgt
        · rw [List.getElem?_append_left hlt] at ht
          exact (hserving.thread i t ht).append rfl rfl rfl rfl rfl
        · rw [List.getElem?_concat_length] at ht
          obtain rfl := Option.some.inj ht
          obtain ⟨hdecoded, hpushed⟩ := hserving.fresh _ le_rfl
          rw [← (hquiet _).1] at hdecoded
          rw [← (hquiet _).2] at hpushed
          exact {
            name := by
              rw [hdecoded]
              rfl
            pushes := by
              rw [hdecoded, hpushed]
              rfl
            reads := by
              refine ⟨stream, by simp, ?_⟩
              rw [hdecoded]
              exact .nil }
        · have hlt := (List.getElem?_eq_some_iff.mp ht).1
          rw [List.length_append, List.length_singleton] at hlt
          omega
      fresh := fun i hi => by
        rw [List.length_append, List.length_singleton] at hi
        rw [(hquiet _).1, (hquiet _).2]
        exact hserving.fresh i (Nat.le_of_succ_le hi) }

/-- The threads serve their clients along every run. -/
theorem Serving.of_run (h : threadServer.Run Machine.unguarded tr s) : Serving tr s := by
  refine h.invariant (P := fun tr s => Serving tr s) ?_ ?_
  · exact {
      thread := fun i t ht => by cases ht
      fresh := fun i _ => ⟨rfl, rfl⟩ }
  · intro tr s a s' out hserving _ hstep
    exact hserving.step hstep

/-- **Each thread serves its client**, in every run: the server commands that it has pushed are those for
the commands that it has decoded from its stream, in their order, and then its `Disconnect`, if it has come
to its end. -/
theorem thread_serves (h : threadServer.Run Machine.unguarded tr s) {i : ℕ} {t : ClientThread R W}
    (ht : s.threads[i]? = some t) : Serves ⟨i⟩ tr t :=
  (Serving.of_run h).thread i t ht

end Serving

section Frames

variable {start reader : Source} {cmds decoded : List Command}

/-- What is decoded of the frames of some commands are the first of these commands. -/
theorem Decodes.of_frames (hfits : ∀ cmd ∈ cmds, cmd.Fits) (hfailure : start.failure = none)
    (hbytes : start.bytes = frames cmds) (h : Decodes start decoded reader) :
    ∃ rest, cmds = decoded ++ rest ∧ reader.failure = none ∧ reader.bytes = frames rest := by
  induction h with
  | nil => exact ⟨cmds, rfl, hfailure, hbytes⟩
  | @snoc decoded reader reader' cmd _ hdecode ih =>
    obtain ⟨rest, rfl, hnone, hrest⟩ := ih
    obtain ⟨hresult, hleft, hnone'⟩ := decode_source hnone
    rw [hdecode, hrest] at hresult hleft
    cases rest with
    | nil => simp [err] at hresult
    | cons c rest =>
      rw [frames_cons, parse_frame_append (hfits c (by simp))] at hresult hleft
      obtain rfl := Except.ok.inj hresult
      rw [hdecode] at hnone'
      exact ⟨rest, List.append_cons .., hnone', hleft⟩

/-- A call of `decode` fails behind the frames only, and does not panic. -/
theorem rest_eq_nil_of_decode {rest : List Command} {e : Failure} {reader' : Source}
    (hfits : ∀ cmd ∈ rest, cmd.Fits) (hfailure : reader.failure = none)
    (hbytes : reader.bytes = frames rest) (h : decode reader = (.error e, reader')) :
    rest = [] ∧ e ≠ .panic := by
  obtain ⟨hresult, -, -⟩ := decode_source hfailure
  rw [h, hbytes] at hresult
  cases rest with
  | nil =>
    refine ⟨rfl, ?_⟩
    rintro rfl
    simp [err] at hresult
  | cons c rest =>
    rw [frames_cons, parse_frame_append (hfits c (by simp))] at hresult
    cases hresult

/-- **The thread of a client whose stream holds the frames of some commands**, in whatever pieces they come,
decodes the first of them, does not panic, and has pushed what all of them ask for at its end. -/
theorem thread_serves_frames [Write W] {s : Server Source W} {tr : List (Event Source W)}
    (h : threadServer.Run Machine.unguarded tr s) {i : ℕ} {t : ClientThread Source W}
    (ht : s.threads[i]? = some t) (hfits : ∀ cmd ∈ cmds, cmd.Fits)
    (hframes : ∀ stream, .spawned ⟨i⟩ stream ∈ tr →
      stream.reader.failure = none ∧ stream.reader.bytes = frames cmds) :
    t.phase ≠ .panicked ∧ decodedBy ⟨i⟩ tr <+: cmds ∧
      (t.phase = .finished → pushedBy ⟨i⟩ tr = replies ⟨i⟩ "" cmds ++ [.disconnect ⟨i⟩]) := by
  have hserves := thread_serves h ht
  obtain ⟨stream, hspawned, hread⟩ := hserves.reads
  obtain ⟨hfailure, hbytes⟩ := hframes stream hspawned
  have hpushes := hserves.pushes
  unfold ClientThread.HasRead at hread
  cases hphase : t.phase with
  | decoding | sending _ =>
    rw [hphase] at hread
    obtain ⟨rest, hcmds, -, -⟩ := hread.of_frames hfits hfailure hbytes
    exact ⟨by simp, ⟨rest, hcmds.symm⟩, by simp⟩
  | leaving | finished =>
    rw [hphase] at hread
    obtain ⟨reader, kind, hdecodes, hend⟩ := hread
    obtain ⟨rest, hcmds, hnone, hrest⟩ := hdecodes.of_frames hfits hfailure hbytes
    have hfits' : ∀ cmd ∈ rest, cmd.Fits := fun cmd hmem =>
      hfits cmd (hcmds ▸ List.mem_append_right _ hmem)
    obtain ⟨rfl, -⟩ := rest_eq_nil_of_decode hfits' hnone hrest hend
    rw [List.append_nil] at hcmds
    subst hcmds
    refine ⟨by simp, List.prefix_refl _, fun hfinished => ?_⟩
    simpa [ClientThread.unsent, ClientThread.goodbye, hphase, hfinished] using hpushes
  | panicked =>
    rw [hphase] at hread
    obtain ⟨reader, hdecodes, hend⟩ := hread
    obtain ⟨rest, hcmds, hnone, hrest⟩ := hdecodes.of_frames hfits hfailure hbytes
    have hfits' : ∀ cmd ∈ rest, cmd.Fits := fun cmd hmem =>
      hfits cmd (hcmds ▸ List.mem_append_right _ hmem)
    exact absurd rfl (rest_eq_nil_of_decode hfits' hnone hrest hend).2

end Frames

/-! ## Who leaves -/

/-- The clients that have been removed from the map, with their names. -/
def removals (tr : List (Event R W)) : List (ThreadId × String) :=
  Broadcast.departures (tr.filterMap Event.hub?)

/-- The announcements that the main thread itself has pushed. -/
def announced (tr : List (Event R W)) : List String := Broadcast.announced (tr.filterMap Event.hub?)

/-- The announcements that the main thread is still to push. -/
def Server.unannounced (s : Server R W) : List String :=
  s.todo.filterMap fun
    | .sendMsg _ _ => none
    | .announce msg => some msg

section Leaving

variable [Read R] [Write W] {s s' : Server R W} {a : Action R W} {tr out : List (Event R W)}
  {id : ThreadId} {t : ClientThread R W}

omit [Read R] [Write W] in
theorem unannounced_eq (s : Server R W) : s.unannounced = Broadcast.unannounced s.toHub.todo := by
  show _ = (s.todo.map Job.task).filterMap _
  rw [List.filterMap_map]
  refine congrArg (List.filterMap · s.todo) (funext fun job => ?_)
  cases job <;> rfl

/-- **Each client is removed once**, and the main thread announces this once, by the name that the client
had when it was removed. Those that have been removed are those that have a thread and are not in the
map. -/
theorem departures_announced (h : threadServer.Run Machine.unguarded tr s) :
    ((removals tr).map Prod.fst).Nodup ∧
      announced tr ++ s.unannounced = (removals tr).map (fun r => hasLeft r.2) ∧
      ∀ id, id ∈ (removals tr).map Prod.fst ↔ id.id < s.threads.length ∧ id ∉ s.clients := by
  obtain ⟨-, hrun⟩ := refines_hub h
  have hroll := Broadcast.Roll.of_run hrun
  refine ⟨hroll.nodup, ?_, fun id => ?_⟩
  · rw [unannounced_eq]
    exact hroll.farewells
  · rw [removals, hroll.left]
    exact and_congr_left' mem_ids

/-- The listener pushes connections, and the main thread pushes a `Disconnect` for each client that it has
failed to reach. -/
theorem disconnect_pushed_iff (h : threadServer.Run Machine.unguarded tr s) (id : ThreadId) :
    .pushed (some .listener) (.disconnect id) ∉ tr ∧
      (.pushed none (.disconnect id) ∈ tr ↔ ∃ msg kind, .told id msg (err kind) ∈ tr) := by
  refine h.invariant (P := fun tr _ => .pushed (some .listener) (.disconnect id) ∉ tr ∧
      (.pushed none (.disconnect id) ∈ tr ↔ ∃ msg kind, .told id msg (err kind) ∈ tr)) ?_ ?_
  · simp
  · rintro tr s a s' out ⟨hlistener, hmain⟩ - hstep
    simp only [List.mem_append, not_or, exists_or, hmain]
    refine ⟨⟨hlistener, ?_⟩, or_congr_right ?_⟩
    · cases stepped_of_step hstep <;> simp
    · cases stepped_of_step hstep <;> simp [err, Io.panicked]

omit [Read R] [Write W] in
theorem mem_pushedBy {cmd : ServerCmd (TcpStream R W)} :
    cmd ∈ pushedBy id tr ↔ .pushed (some (.thread id)) cmd ∈ tr := by
  rw [pushedBy, List.mem_filterMap]
  constructor
  · rintro ⟨e, hmem, he⟩
    split at he
    · split_ifs at he with heq
      obtain rfl := Option.some.inj he
      exact heq ▸ hmem
    · cases he
  · intro hmem
    exact ⟨_, hmem, if_pos rfl⟩

/-- A thread pushes the `Disconnect` of its client, when it has come to its end. -/
theorem disconnect_pushed_by_thread_iff (h : threadServer.Run Machine.unguarded tr s) (id' : ThreadId) :
    .pushed (some (.thread id')) (.disconnect id) ∈ tr ↔
      id' = id ∧ ∃ t, s.threads[id.id]? = some t ∧ t.phase = .finished := by
  have hserving := Serving.of_run h
  have hnone : .disconnect id ∉ (replies id' "" (decodedBy id' tr) : List (ServerCmd (TcpStream R W))) :=
    disconnect_notMem_replies id' id "" _
  rw [← mem_pushedBy]
  cases ht : s.threads[id'.id]? with
  | none =>
    rw [(hserving.fresh id'.id (List.getElem?_eq_none_iff.mp ht)).2]
    refine iff_of_false List.not_mem_nil ?_
    rintro ⟨rfl, t, hsome, -⟩
    rw [ht] at hsome
    cases hsome
  | some t =>
    have hpushes := (hserving.thread _ t ht).pushes
    constructor
    · intro hmem
      have hall : .disconnect id ∈ replies id' "" (decodedBy id' tr) ++ t.goodbye id' :=
        hpushes ▸ List.mem_append_left _ hmem
      have hbye := (List.mem_append.mp hall).resolve_left hnone
      cases hphase : t.phase with
      | finished =>
        rw [ClientThread.goodbye, hphase] at hbye
        obtain rfl := ServerCmd.disconnect.inj (List.mem_singleton.mp hbye)
        exact ⟨rfl, t, ht, hphase⟩
      | leaving =>
        simp only [ClientThread.unsent, ClientThread.goodbye, hphase] at hpushes
        rw [List.append_cancel_right hpushes] at hmem
        exact absurd hmem hnone
      | decoding | sending _ | panicked =>
        rw [ClientThread.goodbye, hphase] at hbye
        exact absurd hbye List.not_mem_nil
    · rintro ⟨rfl, t', ht', hphase⟩
      obtain rfl := Option.some.inj (ht.symm.trans ht')
      simp only [ClientThread.unsent, ClientThread.goodbye, hphase, List.append_nil] at hpushes
      rw [hpushes]
      exact List.mem_append_right _ (List.mem_singleton_self _)

omit [Read R] [Write W] in
theorem leave_mem_pushes : .leave id ∈ Broadcast.pushes (tr.filterMap Event.hub?) ↔
    ∃ sender, .pushed sender (.disconnect id) ∈ tr := by
  simp only [Broadcast.pushes, List.filterMap_filterMap, List.mem_filterMap]
  constructor
  · rintro ⟨e, hmem, he⟩
    cases e with
    | pushed sender cmd =>
      cases cmd with
      | disconnect id' =>
        obtain rfl := Broadcast.Order.leave.inj (Option.some.inj he)
        exact ⟨sender, hmem⟩
      | _ => cases he
    | _ => cases he
  · rintro ⟨sender, hmem⟩
    exact ⟨_, hmem, rfl⟩

/-- **The clients of a server without work** are those whose threads have not come to their ends, and that
the main thread has always reached. A client whose thread has panicked stays. -/
theorem members_iff (h : threadServer.Run Machine.unguarded tr s) (hchannel : s.channel = []) :
    id ∈ s.clients ↔ ∃ t, s.threads[id.id]? = some t ∧ t.phase ≠ .finished ∧
      ∀ msg kind, .told id msg (err kind) ∉ tr := by
  obtain ⟨-, hrun⟩ := refines_hub h
  have hpops : Broadcast.pops (tr.filterMap Event.hub?) = Broadcast.pushes (tr.filterMap Event.hub?) := by
    rw [Broadcast.hub_fifo hrun, Server.toHub, hchannel]
    exact (List.append_nil _).symm
  have hmembers : id ∈ s.clients ↔ id ∈ s.toHub.joined ∧
      .leave id ∉ Broadcast.pops (tr.filterMap Event.hub?) := Broadcast.mem_members_iff hrun
  rw [hpops, leave_mem_pushes] at hmembers
  obtain ⟨hlistener, hmain⟩ := disconnect_pushed_iff h id
  refine hmembers.trans ?_
  show id ∈ ids s.threads.length ∧ _ ↔ _
  rw [mem_ids]
  constructor
  · rintro ⟨hlt, hnone⟩
    refine ⟨s.threads[id.id], List.getElem?_eq_getElem hlt, fun hphase => hnone ⟨some (.thread id), ?_⟩,
      fun msg kind htold => hnone ⟨none, hmain.mpr ⟨msg, kind, htold⟩⟩⟩
    exact (disconnect_pushed_by_thread_iff h id).mpr
      ⟨rfl, _, List.getElem?_eq_getElem hlt, hphase⟩
  · rintro ⟨t, ht, hphase, htold⟩
    refine ⟨(List.getElem?_eq_some_iff.mp ht).1, ?_⟩
    rintro ⟨_ | _ | id', hpushed⟩
    · obtain ⟨msg, kind, hfailed⟩ := hmain.mp hpushed
      exact htold msg kind hfailed
    · exact hlistener hpushed
    · obtain ⟨rfl, t', ht', hfinished⟩ := (disconnect_pushed_by_thread_iff h id').mp hpushed
      rw [ht] at ht'
      exact hphase (Option.some.inj ht' ▸ hfinished)

end Leaving

/-! ## Two clients -/

/-- The streams that threads have been spawned for. -/
def streams (tr : List (Event R W)) : List (ThreadId × TcpStream R W) :=
  tr.filterMap fun
    | .spawned id stream => some (id, stream)
    | _ => none

/-- A client gives its name, sends a message and closes its connection. The thread of another one panics
on an unknown tag. -/
theorem exists_served : ∃ tr s, (threadServer (R := Source) (W := Peer)).Run Machine.unguarded tr s ∧
    (s.channel = [] ∧ s.clients = {⟨1⟩} ∧ s.threads.map ClientThread.phase = [.finished, .panicked]) ∧
    (removals tr = [(⟨0⟩, "A")] ∧
      toldTo ⟨1⟩ tr = ["----- Welcome, A -----", "A: x", "----- A has left -----"]) ∧
    streams tr = [(⟨0⟩, ⟨⟨[.piece 0 [0, 0, 0, 1], .piece 65 [1, 0, 0, 0, 1, 120]], none⟩, .there⟩),
      (⟨1⟩, ⟨⟨[.piece 7 [0, 0, 0, 0]], none⟩, .there⟩)] := by
  have hexec : ((threadServer (R := Source) (W := Peer)).exec [
      .accept ⟨⟨[.piece 0 [0, 0, 0, 1], .piece 65 [1, 0, 0, 0, 1, 120]], none⟩, .there⟩,
      .accept ⟨⟨[.piece 7 [0, 0, 0, 0]], none⟩, .there⟩, .receive [] true, .decode ⟨0⟩,
      .receive [] true, .send ⟨0⟩, .decode ⟨1⟩, .decode ⟨0⟩, .receive [⟨1⟩, ⟨0⟩] true, .work,
      .send ⟨0⟩, .work, .decode ⟨0⟩, .receive [⟨0⟩, ⟨1⟩] true, .send ⟨0⟩, .work, .receive [] true,
      .work, .receive [⟨1⟩] true, .work]).map (fun r =>
        (decide (r.1.channel = [] ∧ r.1.clients = {⟨1⟩} ∧
            r.1.threads.map ClientThread.phase = [.finished, .panicked]),
          decide (removals r.2 = [(⟨0⟩, "A")] ∧
            toldTo ⟨1⟩ r.2 = ["----- Welcome, A -----", "A: x", "----- A has left -----"]),
          decide (streams r.2 =
            [(⟨0⟩, ⟨⟨[.piece 0 [0, 0, 0, 1], .piece 65 [1, 0, 0, 0, 1, 120]], none⟩, .there⟩),
              (⟨1⟩, ⟨⟨[.piece 7 [0, 0, 0, 0]], none⟩, .there⟩)]))) = some (true, true, true) := by
    decide +kernel
  obtain ⟨⟨s, tr⟩, hexec, hend⟩ := Option.map_eq_some_iff.mp hexec
  have hrun := Machine.run_exec hexec
  simp only [Prod.mk.injEq, decide_eq_true_eq] at hend
  exact ⟨tr, s, hrun, hend⟩

/-- The client that stays has heard the other one come and go. -/
theorem server_hears_two : ∃ tr s,
    (threadServer (R := Source) (W := Peer)).Run Machine.unguarded tr s ∧
      toldTo ⟨1⟩ tr = ["----- Welcome, A -----", "A: x", "----- A has left -----"] ∧
      toldTo ⟨1⟩ tr ++ s.untold ⟨1⟩ = (Broadcast.listener ⟨1⟩ (tr.filterMap Event.hub?)).heard ∧
      ∃ t stream, s.threads[1]? = some t ∧ .spawned ⟨1⟩ stream ∈ tr ∧
        Encodes stream.writer (calls ⟨1⟩ tr) t.client.stream.writer := by
  obtain ⟨tr, s, hrun, ⟨-, -, hphases⟩, ⟨-, htold⟩, -⟩ := exists_served
  obtain ⟨hheard, -, -, -, hwritten⟩ := server_hears hrun ⟨1⟩
  have hphase := congrArg (·[1]?) hphases
  rw [List.getElem?_map] at hphase
  obtain ⟨t, ht, -⟩ := Option.map_eq_some_iff.mp hphase
  obtain ⟨stream, hspawned, hencodes⟩ := hwritten t ht
  exact ⟨tr, s, hrun, htold, hheard, t, stream, ht, hspawned, hencodes⟩

/-- The thread of the client that has left has served it. -/
theorem thread_serves_two : ∃ tr s t,
    (threadServer (R := Source) (W := Peer)).Run Machine.unguarded tr s ∧ s.threads[0]? = some t ∧
      t.phase = .finished ∧ Serves ⟨0⟩ tr t := by
  obtain ⟨tr, s, hrun, ⟨-, -, hphases⟩, -, -⟩ := exists_served
  have hphase := congrArg (·[0]?) hphases
  rw [List.getElem?_map] at hphase
  obtain ⟨t, ht, hfinished⟩ := Option.map_eq_some_iff.mp hphase
  exact ⟨tr, s, t, hrun, ht, hfinished, thread_serves hrun ht⟩

/-- It has pushed its name, its message and its departure. -/
theorem thread_serves_frames_two : ∃ tr s,
    (threadServer (R := Source) (W := Peer)).Run Machine.unguarded tr s ∧
      pushedBy ⟨0⟩ tr = [.announcement "----- Welcome, A -----", .broadcast ⟨0⟩ "A: x",
        .disconnect ⟨0⟩] := by
  obtain ⟨tr, s, hrun, ⟨-, -, hphases⟩, -, hstreams⟩ := exists_served
  have hphase := congrArg (·[0]?) hphases
  rw [List.getElem?_map] at hphase
  obtain ⟨t, ht, hfinished⟩ := Option.map_eq_some_iff.mp hphase
  have hframes : ∀ stream, .spawned ⟨0⟩ stream ∈ tr → stream.reader.failure = none ∧
      stream.reader.bytes = frames [.name "A", .message "x"] := by
    intro stream hmem
    have hin : (⟨0⟩, stream) ∈ streams tr := List.mem_filterMap.mpr ⟨_, hmem, rfl⟩
    rw [hstreams] at hin
    obtain rfl : stream =
        ⟨⟨[.piece 0 [0, 0, 0, 1], .piece 65 [1, 0, 0, 0, 1, 120]], none⟩, .there⟩ := by
      simpa using hin
    exact ⟨rfl, by decide +kernel⟩
  have hpushed := (thread_serves_frames hrun ht (by decide) hframes).2.2 hfinished
  exact ⟨tr, s, hrun, hpushed⟩

/-- One client has been removed, and the main thread has said so. -/
theorem departures_announced_two : ∃ tr s,
    (threadServer (R := Source) (W := Peer)).Run Machine.unguarded tr s ∧
      announced tr ++ s.unannounced = ["----- A has left -----"] := by
  obtain ⟨tr, s, hrun, -, ⟨hremovals, -⟩, -⟩ := exists_served
  have hannounced := (departures_announced hrun).2.1
  rw [hremovals] at hannounced
  exact ⟨tr, s, hrun, hannounced⟩

/-- The client whose thread has panicked is still there. -/
theorem members_iff_two : ∃ tr s,
    (threadServer (R := Source) (W := Peer)).Run Machine.unguarded tr s ∧
      ∃ t, s.threads[1]? = some t ∧ t.phase = .panicked ∧
        ∀ msg kind, .told ⟨1⟩ msg (err kind) ∉ tr := by
  obtain ⟨tr, s, hrun, ⟨hchannel, hclients, hphases⟩, -, -⟩ := exists_served
  have hphase := congrArg (·[1]?) hphases
  rw [List.getElem?_map] at hphase
  have hmem : (⟨1⟩ : ThreadId) ∈ s.clients := hclients ▸ Finset.mem_singleton_self _
  obtain ⟨t, ht, -, hreached⟩ := (members_iff hrun hchannel).mp hmem
  rw [ht] at hphase
  exact ⟨tr, s, hrun, t, ht, Option.some.inj hphase, hreached⟩

end Groupchat.ThreadServer
