import RustPractices.Broadcast.Hub
import RustPractices.Groupchat.AsyncSession
import RustPractices.Groupchat.AsyncWriting

/-!
# The broker of the asynchronous server

The accept loop and the reader tasks push server commands to an unbounded channel, and the broker works on
these, one after the other. For a connection it splits an agent in two halves, spawns a task that reads
from the one, and only then puts the client, which writes to the other, into its map: the task may have
pushed commands of its client before. A message is encoded and then flushed by as many polls as it takes,
and everything else goes on between them.

The broker pushes a `Disconnect` for each client that it fails to reach. A reader task pushes one at every
poll after its stream has failed or closed, so that there are more and more of them.

## Main definitions

* `Broker`, `broker`: the broker with the reader tasks, and the machine of all their interleavings
* `Broker.toHub`: the broker as a hub

## Main results

* `refines_hub`: the broker is a hub
* `broker_hears`: each client is told what it has to hear, in one order for all clients
* `broker_announces`: each client leaves once, however many times it is to be disconnected
-/

open Io Transition

namespace Groupchat.AsyncServer

universe u v

/-- A stream reads in one direction and writes in the other. -/
structure TcpStream (R : Type u) (W : Type v) where
  reader : R
  writer : W

variable {R : Type u} {W : Type v}

instance [AsyncRead R] : AsyncRead (TcpStream R W) where
  pollRead s n :=
    let (result, reader) := AsyncRead.pollRead s.reader n
    (result, { s with reader })

instance [AsyncWrite W] : AsyncWrite (TcpStream R W) where
  pollWrite s buf :=
    let (result, writer) := AsyncWrite.pollWrite s.writer buf
    (result, { s with writer })
  pollFlush s :=
    let (result, writer) := AsyncWrite.pollFlush s.writer
    (result, { s with writer })

/-- `ServerCmd`, with the connections that the accept loop pushes. -/
inductive BrokerCmd (R : Type u) (W : Type v)
  | connect (stream : TcpStream R W)
  | other (cmd : ServerCmd)

/-- A client: its name, and the agent that its stream and the stream of its task are the halves of. -/
structure Client (R : Type u) (W : Type v) where
  name : String
  stream : AsyncStreamAgent (TcpStream R W)

/-- `Client::new`. -/
def Client.new (stream : AsyncStreamAgent (TcpStream R W)) : Client R W := { name := "", stream }

/-- Where a reader task is: in `next`, or about to push a server command. -/
inductive Phase
  | polling
  | sending (cmd : ServerCmd)
  | finished
  | panicked
  deriving DecidableEq, Repr

/-- A reader task, with the client that it shares with the broker. -/
structure ReaderTask (R : Type u) (W : Type v) where
  client : Client R W
  phase : Phase := .polling

namespace ReaderTask

/-- A poll of the stream by `next`, and what follows until the task pushes something. The lock between the
halves is held for the poll only. -/
def poll [AsyncRead R] (t : ReaderTask R W) (id : TaskId) :
    Option (ReaderTask R W × Poll (Option (Outcome Command))) :=
  match t.phase with
  | .polling =>
    let (result, stream) := t.client.stream.pollNext
    let client := { t.client with stream }
    match result with
    | .pending => some ({ client }, result)
    | .ready none => some ({ client, phase := .finished }, result)
    | .ready (some (.ok cmd)) =>
      let (name, serverCmd) := respond id client.name cmd
      some ({ client := { client with name }, phase := .sending serverCmd }, result)
    -- the loop goes on, and polls a stream that has failed
    | .ready (some (.error (.error _))) => some ({ client, phase := .sending (.disconnect id) }, result)
    | .ready (some (.error .panic)) => some ({ client, phase := .panicked }, result)
  | _ => none

/-- `server_cmd_sx.send(..)`. -/
def send (t : ReaderTask R W) : Option (ReaderTask R W × ServerCmd) :=
  match t.phase with
  | .sending cmd => some ({ t with phase := .polling }, cmd)
  | _ => none

end ReaderTask

/-- What the broker has still to do for the last server command: put a client into the map, encode a message
for a client, flush the message that has been encoded, or push an announcement. -/
inductive Job
  | insert (id : TaskId)
  | sendMsg (id : TaskId) (msg : String)
  | flush (id : TaskId) (msg : String)
  | announce (msg : String)
  deriving DecidableEq, Repr

/-- **The broker**, with the reader tasks by their ids: the ids in the map `clients`, the channel, what is
left to do for the last server command, and whether the broker has panicked. -/
structure Broker (R : Type u) (W : Type v) where
  tasks : List (ReaderTask R W) := []
  clients : Finset TaskId := ∅
  channel : List (BrokerCmd R W) := []
  todo : List Job := []
  panicked : Bool := false

/-- Who pushes a server command, apart from the broker. -/
inductive Sender
  | listener
  | task (id : TaskId)
  deriving DecidableEq, Repr

/-- What happens next: a connection is accepted, a reader task polls its stream or pushes, the broker
receives a server command, or goes on with the last one. `order` goes through the map, and `fuel` is for
the calls of `poll_write` in a `poll_flush`. -/
inductive Action (R : Type u) (W : Type v)
  | accept (stream : TcpStream R W)
  | poll (id : TaskId)
  | send (id : TaskId)
  | receive (order : List TaskId)
  | work (fuel : ℕ)

/-- What the broker and the tasks do. -/
inductive Event (R : Type u) (W : Type v)
  | polled (id : TaskId) (result : Poll (Option (Outcome Command)))
  | pushed (sender : Option Sender) (cmd : BrokerCmd R W)
  | popped (cmd : BrokerCmd R W)
  | spawned (id : TaskId) (stream : TcpStream R W)
  | inserted (id : TaskId)
  | encoded (id : TaskId) (msg : String)
  | told (id : TaskId) (msg : String) (result : Outcome Unit)
  | removed (id : TaskId) (name : String)

/-- The announcement for a client of this name that is removed. -/
def hasLeft (name : String) : String := "----- " ++ name ++ " has left -----"

namespace Broker

/-- The order goes through the map. -/
def Iterates (s : Broker R W) (order : List TaskId) : Prop :=
  order.Nodup ∧ order.toFinset = s.clients

instance (s : Broker R W) (order : List TaskId) : Decidable (s.Iterates order) :=
  inferInstanceAs (Decidable (_ ∧ _))

/-- The client of an id in the map. -/
def client? (s : Broker R W) (id : TaskId) : Option (Client R W) :=
  if id ∈ s.clients then s.tasks[id.id]?.map ReaderTask.client else none

/-- A client after the broker has called its sink. -/
def setStream (s : Broker R W) (id : TaskId) (stream : AsyncStreamAgent (TcpStream R W)) : Broker R W :=
  { s with tasks := s.tasks.modify id.id fun t => { t with client := { t.client with stream } } }

/-- What follows when `send_msg` has come to its end. -/
def sent (s : Broker R W) (id : TaskId) (msg : String) (result : Outcome Unit) :
    Broker R W × List (Event R W) :=
  match result with
  | .ok () => (s, [.told id msg result])
  | .error (.error _) =>
    ({ s with channel := s.channel ++ [.other (.disconnect id)] },
      [.told id msg result, .pushed none (.other (.disconnect id))])
  | .error .panic => ({ s with panicked := true }, [.told id msg result])

/-- The dispatch of the broker, up to the first thing that others can see. -/
def dispatch (s : Broker R W) (order : List TaskId) :
    BrokerCmd R W → Option (Broker R W × List (Event R W))
  | .other (.announcement msg) =>
    if s.Iterates order then some ({ s with todo := order.map (.sendMsg · msg) }, []) else none
  | .other (.broadcast src msg) =>
    if s.Iterates order then
      some ({ s with todo := (order.filter (· ≠ src)).map (.sendMsg · msg) }, [])
    else none
  | .connect stream =>
    let id : TaskId := ⟨s.tasks.length⟩
    let client := Client.new (AsyncStreamAgent.new stream)
    -- the task runs from here on, before its client is in the map
    some ({ s with tasks := s.tasks ++ [{ client }], todo := [.insert id] }, [.spawned id stream])
  | .other (.disconnect id) =>
    match s.client? id with
    -- a further `Disconnect`
    | none => some (s, [])
    | some client =>
      some ({ s with
        clients := s.clients.erase id
        todo := [.announce (hasLeft client.name)] }, [.removed id client.name])

/-- What the broker does next for the last server command. A `poll_flush` that has not returned is no
step. -/
def work [AsyncWrite W] (s : Broker R W) (fuel : ℕ) : Option (Broker R W × List (Event R W)) :=
  match s.todo with
  | [] => none
  | .insert id :: todo => some ({ s with clients := insert id s.clients, todo }, [.inserted id])
  | .sendMsg id msg :: todo =>
    s.tasks[id.id]?.map fun t =>
      -- `send` encodes the message, and then polls until the flush has returned
      match t.client.stream.startSend (.message msg) with
      | (.ok (), stream) => ({ s.setStream id stream with todo := .flush id msg :: todo }, [.encoded id msg])
      | (result, stream) => { s.setStream id stream with todo }.sent id msg result
  | .flush id msg :: todo =>
    s.tasks[id.id]?.bind fun t =>
      (t.client.stream.pollFlush fuel).map fun r =>
        match r with
        | (.pending, stream) => (s.setStream id stream, [])
        | (.ready result, stream) => { s.setStream id stream with todo }.sent id msg result
  | .announce msg :: todo =>
    some ({ s with channel := s.channel ++ [.other (.announcement msg)], todo },
      [.pushed none (.other (.announcement msg))])

/-- **A step of the broker or of a task**, as long as the broker has not panicked. -/
def step [AsyncRead R] [AsyncWrite W] (s : Broker R W) (a : Action R W) :
    Option (Broker R W × List (Event R W)) :=
  if s.panicked then none
  else match a with
    | .accept stream =>
      some ({ s with channel := s.channel ++ [.connect stream] },
        [.pushed (some .listener) (.connect stream)])
    | .poll id =>
      (s.tasks[id.id]?.bind (·.poll id)).map fun (t, result) =>
        ({ s with tasks := s.tasks.set id.id t }, [.polled id result])
    | .send id =>
      (s.tasks[id.id]?.bind (·.send)).map fun (t, cmd) =>
        ({ s with tasks := s.tasks.set id.id t, channel := s.channel ++ [.other cmd] },
          [.pushed (some (.task id)) (.other cmd)])
    | .receive order =>
      match s.todo, s.channel with
      | [], cmd :: rest =>
        (dispatch { s with channel := rest } order cmd).map fun (s, out) => (s, .popped cmd :: out)
      | _, _ => none
    | .work fuel => s.work fuel

end Broker

/-- **The broker** without clients, in all interleavings with the accept loop and the reader tasks. -/
def broker [AsyncRead R] [AsyncWrite W] : Machine (Broker R W) (Action R W) (Event R W) where
  init := {}
  step := Broker.step

/-! ## What a step does -/

/-- The steps, one by one. -/
inductive Stepped [AsyncRead R] [AsyncWrite W] (s : Broker R W) :
    Action R W → List (Event R W) → Broker R W → Prop
  | accept (stream : TcpStream R W) :
      Stepped s (.accept stream) [.pushed (some .listener) (.connect stream)]
        { s with channel := s.channel ++ [.connect stream] }
  | poll {id : TaskId} {t t' : ReaderTask R W} {result : Poll (Option (Outcome Command))}
      (ht : s.tasks[id.id]? = some t) (hpoll : t.poll id = some (t', result)) :
      Stepped s (.poll id) [.polled id result] { s with tasks := s.tasks.set id.id t' }
  | send {id : TaskId} {t : ReaderTask R W} {cmd : ServerCmd}
      (ht : s.tasks[id.id]? = some t) (hphase : t.phase = .sending cmd) :
      Stepped s (.send id) [.pushed (some (.task id)) (.other cmd)]
        { s with
          tasks := s.tasks.set id.id { t with phase := .polling }
          channel := s.channel ++ [.other cmd] }
  | announcement {msg : String} {rest : List (BrokerCmd R W)} {order : List TaskId}
      (htodo : s.todo = []) (hchannel : s.channel = .other (.announcement msg) :: rest)
      (horder : s.Iterates order) :
      Stepped s (.receive order) [.popped (.other (.announcement msg))]
        { s with channel := rest, todo := order.map (.sendMsg · msg) }
  | broadcast {src : TaskId} {msg : String} {rest : List (BrokerCmd R W)} {order : List TaskId}
      (htodo : s.todo = []) (hchannel : s.channel = .other (.broadcast src msg) :: rest)
      (horder : s.Iterates order) :
      Stepped s (.receive order) [.popped (.other (.broadcast src msg))]
        { s with channel := rest, todo := (order.filter (· ≠ src)).map (.sendMsg · msg) }
  | connect {stream : TcpStream R W} {rest : List (BrokerCmd R W)} {order : List TaskId}
      (htodo : s.todo = []) (hchannel : s.channel = .connect stream :: rest) :
      Stepped s (.receive order) [.popped (.connect stream), .spawned ⟨s.tasks.length⟩ stream]
        { s with
          tasks := s.tasks ++ [{ client := .new (.new stream) }]
          channel := rest
          todo := [.insert ⟨s.tasks.length⟩] }
  | disconnect {id : TaskId} {client : Client R W} {rest : List (BrokerCmd R W)}
      {order : List TaskId} (htodo : s.todo = [])
      (hchannel : s.channel = .other (.disconnect id) :: rest) (hclient : s.client? id = some client) :
      Stepped s (.receive order) [.popped (.other (.disconnect id)), .removed id client.name]
        { s with
          clients := s.clients.erase id
          channel := rest
          todo := [.announce (hasLeft client.name)] }
  | gone {id : TaskId} {rest : List (BrokerCmd R W)} {order : List TaskId} (htodo : s.todo = [])
      (hchannel : s.channel = .other (.disconnect id) :: rest) (hclient : s.client? id = none) :
      Stepped s (.receive order) [.popped (.other (.disconnect id))] { s with channel := rest }
  | insert {id : TaskId} {todo : List Job} {fuel : ℕ} (htodo : s.todo = .insert id :: todo) :
      Stepped s (.work fuel) [.inserted id] { s with clients := insert id s.clients, todo }
  | encode {id : TaskId} {msg : String} {todo : List Job} {fuel : ℕ} {t : ReaderTask R W}
      (htodo : s.todo = .sendMsg id msg :: todo) (ht : s.tasks[id.id]? = some t) :
      Stepped s (.work fuel) [.encoded id msg]
        { s.setStream id (t.client.stream.startSend (.message msg)).2 with
          todo := .flush id msg :: todo }
  | pending {id : TaskId} {msg : String} {todo : List Job} {fuel : ℕ} {t : ReaderTask R W}
      {stream : AsyncStreamAgent (TcpStream R W)} (htodo : s.todo = .flush id msg :: todo)
      (ht : s.tasks[id.id]? = some t)
      (hflush : t.client.stream.pollFlush fuel = some (.pending, stream)) :
      Stepped s (.work fuel) [] (s.setStream id stream)
  | told {id : TaskId} {msg : String} {todo : List Job} {fuel : ℕ} {t : ReaderTask R W}
      {stream : AsyncStreamAgent (TcpStream R W)} (htodo : s.todo = .flush id msg :: todo)
      (ht : s.tasks[id.id]? = some t)
      (hflush : t.client.stream.pollFlush fuel = some (.ready (.ok ()), stream)) :
      Stepped s (.work fuel) [.told id msg (.ok ())] { s.setStream id stream with todo }
  | failed {id : TaskId} {msg : String} {todo : List Job} {fuel : ℕ} {t : ReaderTask R W}
      {stream : AsyncStreamAgent (TcpStream R W)} {kind : ErrorKind}
      (htodo : s.todo = .flush id msg :: todo) (ht : s.tasks[id.id]? = some t)
      (hflush : t.client.stream.pollFlush fuel = some (.ready (err kind), stream)) :
      Stepped s (.work fuel) [.told id msg (err kind), .pushed none (.other (.disconnect id))]
        { s.setStream id stream with channel := s.channel ++ [.other (.disconnect id)], todo }
  | panicked {id : TaskId} {msg : String} {todo : List Job} {fuel : ℕ} {t : ReaderTask R W}
      {stream : AsyncStreamAgent (TcpStream R W)} (htodo : s.todo = .flush id msg :: todo)
      (ht : s.tasks[id.id]? = some t)
      (hflush : t.client.stream.pollFlush fuel = some (.ready Io.panicked, stream)) :
      Stepped s (.work fuel) [.told id msg Io.panicked]
        { s.setStream id stream with todo, panicked := true }
  | announce {msg : String} {todo : List Job} {fuel : ℕ} (htodo : s.todo = .announce msg :: todo) :
      Stepped s (.work fuel) [.pushed none (.other (.announcement msg))]
        { s with channel := s.channel ++ [.other (.announcement msg)], todo }

theorem send_cases {t t' : ReaderTask R W} {cmd : ServerCmd} (h : t.send = some (t', cmd)) :
    t.phase = .sending cmd ∧ t' = { t with phase := .polling } := by
  unfold ReaderTask.send at h
  split at h
  next hphase =>
    obtain ⟨rfl, rfl⟩ := Prod.mk.inj (Option.some.inj h)
    exact ⟨hphase, rfl⟩
  next => cases h

theorem stepped_of_work [AsyncRead R] [AsyncWrite W] {s s' : Broker R W} {fuel : ℕ}
    {out : List (Event R W)} (hwork : s.work fuel = some (s', out)) :
    Stepped s (.work fuel) out s' := by
  unfold Broker.work at hwork
  split at hwork
  next => cases hwork
  next id todo htodo =>
    obtain ⟨rfl, rfl⟩ := Prod.mk.inj (Option.some.inj hwork)
    exact .insert htodo
  next id msg todo htodo =>
    obtain ⟨t, ht, heq⟩ := Option.map_eq_some_iff.mp hwork
    have hencode : Stepped s (.work fuel) _ _ := .encode htodo ht
    rw [AsyncStreamAgent.startSend_eq] at heq hencode
    obtain ⟨rfl, rfl⟩ := Prod.mk.inj heq
    exact hencode
  next id msg todo htodo =>
    obtain ⟨t, ht, hmap⟩ := Option.bind_eq_some_iff.mp hwork
    obtain ⟨⟨result, stream⟩, hflush, heq⟩ := Option.map_eq_some_iff.mp hmap
    cases result with
    | pending =>
      obtain ⟨rfl, rfl⟩ := Prod.mk.inj heq
      exact .pending htodo ht hflush
    | ready result =>
      cases result with
      | ok =>
        obtain ⟨rfl, rfl⟩ := Prod.mk.inj heq
        exact .told htodo ht hflush
      | error e =>
        cases e with
        | error kind =>
          obtain ⟨rfl, rfl⟩ := Prod.mk.inj heq
          exact .failed htodo ht hflush
        | panic =>
          obtain ⟨rfl, rfl⟩ := Prod.mk.inj heq
          exact .panicked htodo ht hflush
  next msg todo htodo =>
    obtain ⟨rfl, rfl⟩ := Prod.mk.inj (Option.some.inj hwork)
    exact .announce htodo

theorem stepped_of_step [AsyncRead R] [AsyncWrite W] {s s' : Broker R W} {a : Action R W}
    {out : List (Event R W)} (hstep : s.step a = some (s', out)) : Stepped s a out s' := by
  unfold Broker.step at hstep
  split_ifs at hstep
  cases a with
  | accept stream =>
    obtain ⟨rfl, rfl⟩ := Prod.mk.inj (Option.some.inj hstep)
    exact .accept stream
  | poll id =>
    obtain ⟨⟨t', result⟩, hbind, heq⟩ := Option.map_eq_some_iff.mp hstep
    obtain ⟨t, ht, hpoll⟩ := Option.bind_eq_some_iff.mp hbind
    obtain ⟨rfl, rfl⟩ := Prod.mk.inj heq
    exact .poll ht hpoll
  | send id =>
    obtain ⟨⟨t', cmd⟩, hbind, heq⟩ := Option.map_eq_some_iff.mp hstep
    obtain ⟨t, ht, hsend⟩ := Option.bind_eq_some_iff.mp hbind
    obtain ⟨rfl, rfl⟩ := Prod.mk.inj heq
    obtain ⟨hphase, rfl⟩ := send_cases hsend
    exact .send ht hphase
  | receive order =>
    simp only at hstep
    split at hstep
    next cmd rest htodo hchannel =>
      obtain ⟨⟨s₁, out₁⟩, hdispatch, heq⟩ := Option.map_eq_some_iff.mp hstep
      obtain ⟨rfl, rfl⟩ := Prod.mk.inj heq
      unfold Broker.dispatch at hdispatch
      split at hdispatch
      next msg =>
        split_ifs at hdispatch with horder
        obtain ⟨rfl, rfl⟩ := Prod.mk.inj (Option.some.inj hdispatch)
        exact .announcement htodo hchannel horder
      next src msg =>
        split_ifs at hdispatch with horder
        obtain ⟨rfl, rfl⟩ := Prod.mk.inj (Option.some.inj hdispatch)
        exact .broadcast htodo hchannel horder
      next stream =>
        obtain ⟨rfl, rfl⟩ := Prod.mk.inj (Option.some.inj hdispatch)
        exact .connect htodo hchannel
      next id =>
        split at hdispatch
        next hclient =>
          obtain ⟨rfl, rfl⟩ := Prod.mk.inj (Option.some.inj hdispatch)
          exact .gone htodo hchannel hclient
        next client hclient =>
          obtain ⟨rfl, rfl⟩ := Prod.mk.inj (Option.some.inj hdispatch)
          exact .disconnect htodo hchannel hclient
    next => cases hstep
  | work fuel => exact stepped_of_work hstep

/-! ## The broker as a hub -/

/-- A server command as an order of a hub. -/
def order : BrokerCmd R W → Broadcast.Order TaskId String
  | .connect _ => .join
  | .other (.announcement msg) => .all msg
  | .other (.broadcast src msg) => .others src msg
  | .other (.disconnect id) => .leave id

/-- A job as a task of a hub. A client that is to be put into the map is a member of the hub already. -/
def Job.task? : Job → Option (Broadcast.Task TaskId String)
  | insert _ => none
  | sendMsg id msg | flush id msg => some (.tell id msg)
  | announce msg => some (.farewell msg)

/-- The client that is to be put into the map. -/
def Job.insert? : Job → Option TaskId
  | insert id => some id
  | _ => none

/-- What happens at the hub. A client joins when its task is spawned. -/
def Event.hub? : Event R W → Option (Broadcast.Event TaskId String String Sender)
  | polled _ _ | inserted _ | encoded _ _ => none
  | pushed sender cmd => some (.pushed sender (order cmd))
  | popped cmd => some (.popped (order cmd))
  | spawned id _ => some (.joined id)
  | told id msg result => some (.told id msg (failed result))
  | removed id name => some (.left id name)

/-- The ids of the tasks. -/
def ids (n : ℕ) : Finset TaskId := (Finset.range n).image TaskId.mk

@[simp] theorem mem_ids {n : ℕ} {id : TaskId} : id ∈ ids n ↔ id.id < n := by
  obtain ⟨i⟩ := id
  simp [ids]

theorem ids_succ (n : ℕ) : ids (n + 1) = insert ⟨n⟩ (ids n) := by
  ext id
  obtain ⟨i⟩ := id
  rw [Finset.mem_insert, mem_ids, mem_ids, TaskId.mk.injEq]
  exact Nat.lt_succ_iff_lt_or_eq.trans or_comm

/-- The jobs as tasks of a hub. -/
def hubTasks (todo : List Job) : List (Broadcast.Task TaskId String) := todo.filterMap Job.task?

/-- The clients that are to be put into the map. -/
def inserting (todo : List Job) : Finset TaskId := (todo.filterMap Job.insert?).toFinset

section Jobs

variable {id : TaskId} {msg : String} {todo : List Job}

@[simp] theorem hubTasks_nil : hubTasks [] = [] := rfl

@[simp] theorem hubTasks_insert : hubTasks (.insert id :: todo) = hubTasks todo := rfl

@[simp] theorem hubTasks_sendMsg : hubTasks (.sendMsg id msg :: todo) = .tell id msg :: hubTasks todo := rfl

@[simp] theorem hubTasks_flush : hubTasks (.flush id msg :: todo) = .tell id msg :: hubTasks todo := rfl

@[simp] theorem hubTasks_announce : hubTasks (.announce msg :: todo) = .farewell msg :: hubTasks todo := rfl

@[simp] theorem hubTasks_map (order : List TaskId) (msg : String) :
    hubTasks (order.map (.sendMsg · msg)) = order.map (.tell · msg) := by
  induction order with
  | nil => rfl
  | cons id order ih => rw [List.map_cons, hubTasks_sendMsg, ih, List.map_cons]

@[simp] theorem inserting_nil : inserting [] = ∅ := rfl

@[simp] theorem inserting_insert : inserting (.insert id :: todo) = insert id (inserting todo) := by
  simp [inserting, Job.insert?]

@[simp] theorem inserting_sendMsg : inserting (.sendMsg id msg :: todo) = inserting todo := rfl

@[simp] theorem inserting_flush : inserting (.flush id msg :: todo) = inserting todo := rfl

@[simp] theorem inserting_announce : inserting (.announce msg :: todo) = inserting todo := rfl

@[simp] theorem inserting_map (order : List TaskId) (msg : String) :
    inserting (order.map (.sendMsg · msg)) = ∅ := by
  induction order with
  | nil => rfl
  | cons id order ih => rw [List.map_cons, inserting_sendMsg, ih]

theorem mem_inserting : id ∈ inserting todo ↔ .insert id ∈ todo := by
  rw [inserting, List.mem_toFinset, List.mem_filterMap]
  constructor
  · rintro ⟨job, hmem, hjob⟩
    cases job with
    | insert id' => exact Option.some.inj hjob ▸ hmem
    | _ => cases hjob
  · exact fun hmem => ⟨_, hmem, rfl⟩

end Jobs

/-- The broker as a hub. -/
def Broker.toHub (s : Broker R W) : Broadcast.Hub TaskId String where
  members := s.clients ∪ inserting s.todo
  joined := ids s.tasks.length
  queue := s.channel.map order
  todo := hubTasks s.todo

/-- The clients in the map have tasks, and a task pushes its own `Disconnect` only. -/
structure Linked (s : Broker R W) : Prop where
  clients : ∀ id ∈ s.clients, id.id < s.tasks.length
  inserting : ∀ id, .insert id ∈ s.todo → id.id < s.tasks.length
  sending : ∀ (i : ℕ) (t : ReaderTask R W), s.tasks[i]? = some t →
    ∀ id, t.phase = .sending (.disconnect id) → id = ⟨i⟩

section Refinement

variable {s s' : Broker R W} {a : Action R W} {out tr : List (Event R W)} {id : TaskId}
  {t t' : ReaderTask R W}

/-- How a poll of a task ends: with nothing, with a command, with an error, or with a panic. -/
theorem poll_cases [AsyncRead R] {result : Poll (Option (Outcome Command))}
    (h : t.poll id = some (t', result)) :
    t.phase = .polling ∧ ∃ stream, t.client.stream.pollNext = (result, stream) ∧
      ((result = .pending ∧ t' = { client := { t.client with stream } }) ∨
      (result = .ready none ∧ t' = { client := { t.client with stream }, phase := .finished }) ∨
      (∃ cmd, result = .ready (some (.ok cmd)) ∧ t' = {
        client := { name := (respond id t.client.name cmd).1, stream }
        phase := .sending (respond id t.client.name cmd).2 }) ∨
      (∃ kind, result = .ready (some (err kind)) ∧
        t' = { client := { t.client with stream }, phase := .sending (.disconnect id) }) ∨
      (result = .ready (some Io.panicked) ∧
        t' = { client := { t.client with stream }, phase := .panicked })) := by
  unfold ReaderTask.poll at h
  split at h
  next hphase =>
    refine ⟨hphase, t.client.stream.pollNext.2, ?_⟩
    cases hresult : t.client.stream.pollNext with
    | mk result₀ stream =>
    rw [hresult] at h
    cases result₀ with
    | pending =>
      obtain ⟨rfl, rfl⟩ := Prod.mk.inj (Option.some.inj h)
      exact ⟨rfl, .inl ⟨rfl, rfl⟩⟩
    | ready next =>
      cases next with
      | none =>
        obtain ⟨rfl, rfl⟩ := Prod.mk.inj (Option.some.inj h)
        exact ⟨rfl, .inr (.inl ⟨rfl, rfl⟩)⟩
      | some cmdRes =>
        cases cmdRes with
        | ok cmd =>
          obtain ⟨rfl, rfl⟩ := Prod.mk.inj (Option.some.inj h)
          exact ⟨rfl, .inr (.inr (.inl ⟨cmd, rfl, rfl⟩))⟩
        | error e =>
          cases e with
          | error kind =>
            obtain ⟨rfl, rfl⟩ := Prod.mk.inj (Option.some.inj h)
            exact ⟨rfl, .inr (.inr (.inr (.inl ⟨kind, rfl, rfl⟩)))⟩
          | panic =>
            obtain ⟨rfl, rfl⟩ := Prod.mk.inj (Option.some.inj h)
            exact ⟨rfl, .inr (.inr (.inr (.inr ⟨rfl, rfl⟩)))⟩
  next => cases h

/-- A poll prepares no `Disconnect` but the one of its task. -/
theorem eq_of_poll_disconnect [AsyncRead R] {result : Poll (Option (Outcome Command))} {id' : TaskId}
    (h : t.poll id = some (t', result)) (hphase : t'.phase = .sending (.disconnect id')) : id' = id := by
  obtain ⟨-, stream, -, ⟨-, rfl⟩ | ⟨-, rfl⟩ | ⟨cmd, -, rfl⟩ | ⟨kind, -, rfl⟩ | ⟨-, rfl⟩⟩ := poll_cases h
  · cases hphase
  · cases hphase
  · cases cmd with
    | name name =>
      simp only [respond] at hphase
      split_ifs at hphase <;> cases hphase
    | message msg => cases hphase
  · cases hphase
    rfl
  · cases hphase

theorem mem_of_client? {client : Client R W} (h : s.client? id = some client) : id ∈ s.clients := by
  unfold Broker.client? at h
  split_ifs at h with hmem
  exact hmem

theorem notMem_of_client? (hlinked : Linked s) (h : s.client? id = none) : id ∉ s.clients := by
  intro hmem
  unfold Broker.client? at h
  rw [if_pos hmem, List.getElem?_eq_getElem (hlinked.clients id hmem)] at h
  cases h

/-- A sink that the broker has called belongs to the same task, in the same phase. -/
theorem exists_of_setStream {stream : AsyncStreamAgent (TcpStream R W)} {i : ℕ}
    (h : (s.setStream id stream).tasks[i]? = some t') :
    ∃ t, s.tasks[i]? = some t ∧ t'.phase = t.phase ∧ t'.client.name = t.client.name ∧
      (t'.client.stream = t.client.stream ∨ ⟨i⟩ = id ∧ t'.client.stream = stream) := by
  rw [Broker.setStream, List.getElem?_modify] at h
  obtain ⟨t, ht, rfl⟩ := Option.map_eq_some_iff.mp h
  refine ⟨t, ht, ?_⟩
  split_ifs with hid
  · subst hid
    exact ⟨rfl, rfl, .inr ⟨rfl, rfl⟩⟩
  · exact ⟨rfl, rfl, .inl rfl⟩

theorem eq_of_getElem?_concat {i : ℕ} {t₀ : ReaderTask R W} (h : (s.tasks ++ [t₀])[i]? = some t) :
    s.tasks[i]? = some t ∨ i = s.tasks.length ∧ t = t₀ := by
  rcases Nat.lt_trichotomy i s.tasks.length with hlt | rfl | hgt
  · rw [List.getElem?_append_left hlt] at h
    exact .inl h
  · rw [List.getElem?_concat_length] at h
    exact .inr ⟨rfl, (Option.some.inj h).symm⟩
  · have hlt := (List.getElem?_eq_some_iff.mp h).1
    rw [List.length_append, List.length_singleton] at hlt
    omega

/-- A task that has done something. -/
theorem exists_of_set {i j : ℕ} {t₀ : ReaderTask R W} (ht : s.tasks[i]? = some t)
    (h : (s.tasks.set i t₀)[j]? = some t') : j = i ∧ t' = t₀ ∨ j ≠ i ∧ s.tasks[j]? = some t' := by
  by_cases heq : j = i
  · subst heq
    rw [List.getElem?_set_self (List.getElem?_eq_some_iff.mp ht).1] at h
    exact .inl ⟨rfl, (Option.some.inj h).symm⟩
  · rw [List.getElem?_set_ne (Ne.symm heq)] at h
    exact .inr ⟨heq, h⟩

/-- A step that leaves the tasks alone and puts no client into the map. -/
theorem Linked.same (hlinked : Linked s) (htasks : s'.tasks = s.tasks) (hclients : s'.clients ⊆ s.clients)
    (hinsert : ∀ id, .insert id ∈ s'.todo → .insert id ∈ s.todo) : Linked s' where
  clients id hmem := htasks ▸ hlinked.clients id (hclients hmem)
  inserting id hmem := htasks ▸ hlinked.inserting id (hinsert id hmem)
  sending i t ht := hlinked.sending i t (htasks ▸ ht)

/-- A step of one task, which prepares no `Disconnect` but its own. -/
theorem Linked.set (hlinked : Linked s) {i : ℕ} (ht : s.tasks[i]? = some t)
    (htasks : s'.tasks = s.tasks.set i t') (hclients : s'.clients = s.clients) (htodo : s'.todo = s.todo)
    (hphase : ∀ id, t'.phase = .sending (.disconnect id) → id = ⟨i⟩) : Linked s' where
  clients id hmem := by
    rw [htasks, List.length_set]
    exact hlinked.clients id (hclients ▸ hmem)
  inserting id hmem := by
    rw [htasks, List.length_set]
    exact hlinked.inserting id (htodo ▸ hmem)
  sending j t₁ ht₁ := by
    rw [htasks] at ht₁
    obtain ⟨rfl, rfl⟩ | ⟨-, hold⟩ := exists_of_set ht ht₁
    · exact hphase
    · exact hlinked.sending j t₁ hold

/-- A step that writes to one client. -/
theorem Linked.setStream (hlinked : Linked s) {stream : AsyncStreamAgent (TcpStream R W)}
    (htasks : s'.tasks = (s.setStream id stream).tasks) (hclients : s'.clients = s.clients)
    (hinsert : ∀ id, .insert id ∈ s'.todo → .insert id ∈ s.todo) : Linked s' where
  clients id' hmem := by
    rw [htasks, Broker.setStream, List.length_modify]
    exact hlinked.clients id' (hclients ▸ hmem)
  inserting id' hmem := by
    rw [htasks, Broker.setStream, List.length_modify]
    exact hlinked.inserting id' (hinsert id' hmem)
  sending i t' ht' := by
    rw [htasks] at ht'
    obtain ⟨t, ht, hphase, -, -⟩ := exists_of_setStream ht'
    rw [hphase]
    exact hlinked.sending i t ht

/-- A task is spawned, and its client is to be put into the map. -/
theorem Linked.spawn (hlinked : Linked s) {stream : TcpStream R W}
    (htasks : s'.tasks = s.tasks ++ [{ client := .new (.new stream) }]) (hclients : s'.clients = s.clients)
    (htodo : s'.todo = [.insert ⟨s.tasks.length⟩]) : Linked s' where
  clients id hmem := by
    rw [htasks, List.length_append, List.length_singleton]
    exact (hlinked.clients id (hclients ▸ hmem)).trans (Nat.lt_succ_self _)
  inserting id hmem := by
    rw [htasks, List.length_append, List.length_singleton]
    rw [htodo] at hmem
    obtain rfl := Job.insert.inj (List.mem_singleton.mp hmem)
    exact Nat.lt_succ_self _
  sending i t ht := by
    rw [htasks] at ht
    rcases eq_of_getElem?_concat ht with hold | ⟨-, rfl⟩
    · exact hlinked.sending i t hold
    · exact fun id h => by cases h

theorem insert_notMem_map (order : List TaskId) (msg : String) :
    ∀ id, Job.insert id ∉ order.map (Job.sendMsg · msg) := by
  intro id hmem
  obtain ⟨_, -, heq⟩ := List.mem_map.mp hmem
  cases heq

/-- **Each step keeps the links.** -/
theorem Linked.step [AsyncRead R] [AsyncWrite W] (hlinked : Linked s) (hstep : Stepped s a out s') :
    Linked s' := by
  have hrest : ∀ {job : Job} {todo : List Job}, s.todo = job :: todo →
      ∀ id, .insert id ∈ todo → .insert id ∈ s.todo := fun htodo id hmem =>
    htodo ▸ List.mem_cons_of_mem _ hmem
  cases hstep with
  | accept stream => exact hlinked.same rfl subset_rfl fun _ hmem => hmem
  | poll ht hpoll => exact hlinked.set ht rfl rfl rfl fun _ => eq_of_poll_disconnect hpoll
  | send ht hphase => exact hlinked.set ht rfl rfl rfl fun _ h => by cases h
  | announcement _ _ _ | broadcast _ _ _ =>
    exact hlinked.same rfl subset_rfl fun id hmem => absurd hmem (insert_notMem_map _ _ id)
  | connect _ _ => exact hlinked.spawn rfl rfl rfl
  | disconnect _ _ _ => exact hlinked.same rfl (Finset.erase_subset _ _) (by simp)
  | gone _ _ _ => exact hlinked.same rfl subset_rfl fun _ hmem => hmem
  | insert htodo =>
    exact {
      clients := fun id hmem => by
        rcases Finset.mem_insert.mp hmem with rfl | hmem
        · exact hlinked.inserting id (htodo ▸ List.mem_cons_self)
        · exact hlinked.clients id hmem
      inserting := fun id hmem => hlinked.inserting id (hrest htodo id hmem)
      sending := hlinked.sending }
  | encode htodo _ =>
    refine hlinked.setStream rfl rfl fun id hmem => hrest htodo id ?_
    exact (List.mem_cons.mp hmem).resolve_left (by simp)
  | pending _ _ _ => exact hlinked.setStream rfl rfl fun _ hmem => hmem
  | told htodo _ _ | failed htodo _ _ | panicked htodo _ _ =>
    exact hlinked.setStream rfl rfl (hrest htodo)
  | announce htodo => exact hlinked.same rfl subset_rfl (hrest htodo)

/-- **Each step of the broker is one of the hub**, or none. -/
theorem Linked.stepped [AsyncRead R] [AsyncWrite W] (hlinked : Linked s) (hstep : Stepped s a out s') :
    (out.filterMap Event.hub? = [] ∧ s'.toHub = s.toHub) ∨
      ∃ b, Broadcast.Known s.toHub b ∧
        Broadcast.Stepped hasLeft s.toHub b (out.filterMap Event.hub?) s'.toHub := by
  have hqueue : ∀ {cmd rest}, s.channel = cmd :: rest → s.toHub.queue = order cmd :: rest.map order :=
    fun hchannel => congrArg (List.map order) hchannel
  have htask : ∀ {todo}, s.todo = todo → s.toHub.todo = hubTasks todo :=
    fun htodo => congrArg hubTasks htodo
  -- between two server commands, the members are the clients in the map
  have hmembers : s.todo = [] → s.toHub.members = s.clients := fun hnil => by simp [Broker.toHub, hnil]
  cases hstep with
  | accept stream =>
    have hpush : Broadcast.Stepped hasLeft s.toHub (.push Sender.listener .join)
        [.pushed (some Sender.listener) .join] { s.toHub with queue := s.toHub.queue ++ [.join] } := .push _ _
    refine .inr ⟨.push .listener .join, trivial, ?_⟩
    simpa [Broker.toHub, Event.hub?, order] using hpush
  | poll ht hpoll =>
    refine .inl ⟨rfl, ?_⟩
    simp only [Broker.toHub, List.length_set]
  | @send id t cmd ht hphase =>
    have hpush : Broadcast.Stepped hasLeft s.toHub
        (.push (Sender.task id) (order (.other cmd : BrokerCmd R W)))
        [.pushed (some (Sender.task id)) (order (.other cmd : BrokerCmd R W))]
        { s.toHub with queue := s.toHub.queue ++ [order (.other cmd : BrokerCmd R W)] } := .push _ _
    refine .inr ⟨_, ?_, by simpa [Broker.toHub, Event.hub?] using hpush⟩
    cases cmd with
    | disconnect id' =>
      rw [hlinked.sending _ _ ht _ hphase]
      exact mem_ids.mpr (List.getElem?_eq_some_iff.mp ht).1
    | _ => trivial
  | @announcement msg rest roll hnil hchannel horder =>
    have hiter : s.toHub.Iterates roll := ⟨horder.1, horder.2.trans (hmembers hnil).symm⟩
    have hpop : Broadcast.Stepped (σ := Sender) hasLeft s.toHub (.pop roll none "") [.popped (.all msg)]
        { s.toHub with queue := rest.map order, todo := roll.map (.tell · msg) } :=
      .all (htask hnil) (hqueue hchannel) hiter
    refine .inr ⟨.pop roll none "", trivial, ?_⟩
    simpa [Broker.toHub, Event.hub?, order, hnil] using hpop
  | @broadcast src msg rest roll hnil hchannel horder =>
    have hiter : s.toHub.Iterates roll := ⟨horder.1, horder.2.trans (hmembers hnil).symm⟩
    have hpop : Broadcast.Stepped (σ := Sender) hasLeft s.toHub (.pop roll none "")
        [.popped (.others src msg)]
        { s.toHub with queue := rest.map order, todo := (roll.filter (· ≠ src)).map (.tell · msg) } :=
      .others (htask hnil) (hqueue hchannel) hiter
    refine .inr ⟨.pop roll none "", trivial, ?_⟩
    simpa [Broker.toHub, Event.hub?, order, hnil] using hpop
  | @connect stream rest roll hnil hchannel =>
    -- the client joins the hub before it is in the map
    have hfresh : (⟨s.tasks.length⟩ : TaskId) ∉ s.toHub.joined := by
      rw [Broker.toHub, mem_ids]
      exact lt_irrefl _
    have hpop : Broadcast.Stepped (σ := Sender) hasLeft s.toHub (.pop roll (some ⟨s.tasks.length⟩) "")
        [.popped .join, .joined ⟨s.tasks.length⟩]
        { s.toHub with
          members := insert ⟨s.tasks.length⟩ s.toHub.members
          joined := insert ⟨s.tasks.length⟩ s.toHub.joined
          queue := rest.map order } :=
      .join (htask hnil) (hqueue hchannel) hfresh
    refine .inr ⟨.pop roll (some ⟨s.tasks.length⟩) "", trivial, ?_⟩
    simpa [Broker.toHub, Event.hub?, order, ids_succ, hnil, Finset.union_insert] using hpop
  | @gone id rest roll hnil hchannel hclient =>
    have hnot : id ∉ s.toHub.members := by
      rw [hmembers hnil]
      exact notMem_of_client? hlinked hclient
    have hpop : Broadcast.Stepped (σ := Sender) hasLeft s.toHub (.pop roll none "") [.popped (.leave id)]
        { s.toHub with queue := rest.map order } := .gone (htask hnil) (hqueue hchannel) hnot
    refine .inr ⟨.pop roll none "", trivial, ?_⟩
    simpa [Broker.toHub, Event.hub?, order] using hpop
  | @disconnect id client rest roll hnil hchannel hclient =>
    have hmem : id ∈ s.toHub.members := by
      rw [hmembers hnil]
      exact mem_of_client? hclient
    have hpop : Broadcast.Stepped (σ := Sender) hasLeft s.toHub (.pop roll none client.name)
        [.popped (.leave id), .left id client.name]
        { s.toHub with
          members := s.toHub.members.erase id
          queue := rest.map order
          todo := [.farewell (hasLeft client.name)] } :=
      .leave (htask hnil) (hqueue hchannel) hmem
    refine .inr ⟨.pop roll none client.name, trivial, ?_⟩
    simpa [Broker.toHub, Event.hub?, order, hnil] using hpop
  -- of what follows, the hub sees what is told and pushed only
  | insert hjobs =>
    refine .inl ⟨rfl, ?_⟩
    simp [Broker.toHub, hjobs, Finset.insert_union, Finset.union_insert]
  | encode hjobs ht =>
    refine .inl ⟨rfl, ?_⟩
    simp [Broker.toHub, Broker.setStream, hjobs]
  | pending hjobs ht hflush =>
    refine .inl ⟨rfl, ?_⟩
    simp [Broker.toHub, Broker.setStream]
  | @told id msg todo fuel t stream hjobs ht hflush =>
    have hwork : Broadcast.Stepped (σ := Sender) hasLeft s.toHub (.work false) [.told id msg false]
        { s.toHub with todo := hubTasks todo } := .tell (htask hjobs)
    refine .inr ⟨.work false, trivial, ?_⟩
    simpa [Broker.toHub, Broker.setStream, Event.hub?, failed, hjobs] using hwork
  | @failed id msg todo fuel t stream kind hjobs ht hflush =>
    have hwork : Broadcast.Stepped (σ := Sender) hasLeft s.toHub (.work true)
        [.told id msg true, .pushed none (.leave id)]
        { s.toHub with queue := s.toHub.queue ++ [.leave id], todo := hubTasks todo } :=
      .fail (htask hjobs)
    refine .inr ⟨.work true, trivial, ?_⟩
    simpa [Broker.toHub, Broker.setStream, Event.hub?, failed, err, order, hjobs] using hwork
  | @panicked id msg todo fuel t stream hjobs ht hflush =>
    have hwork : Broadcast.Stepped (σ := Sender) hasLeft s.toHub (.work false) [.told id msg false]
        { s.toHub with todo := hubTasks todo } := .tell (htask hjobs)
    refine .inr ⟨.work false, trivial, ?_⟩
    simpa [Broker.toHub, Broker.setStream, Event.hub?, failed, Io.panicked, hjobs] using hwork
  | @announce msg todo fuel hjobs =>
    have hwork : Broadcast.Stepped (σ := Sender) hasLeft s.toHub (.work false) [.pushed none (.all msg)]
        { s.toHub with queue := s.toHub.queue ++ [.all msg], todo := hubTasks todo } :=
      .farewell (htask hjobs)
    refine .inr ⟨.work false, trivial, ?_⟩
    simpa [Broker.toHub, Event.hub?, order, hjobs] using hwork

/-- **The broker is a hub**: every run of it with its tasks is one of the hub. -/
theorem refines_hub [AsyncRead R] [AsyncWrite W] {ok : Broker R W → Action R W → Prop}
    (h : broker.Run ok tr s) :
    Linked s ∧ (Broadcast.hub hasLeft).Run Broadcast.Known (tr.filterMap Event.hub?) s.toHub := by
  have hrefines : ∃ u, (Broadcast.hub hasLeft).Run Broadcast.Known (tr.filterMap Event.hub?) u ∧
      (Linked s ∧ u = s.toHub) := by
    refine h.refines (R := fun s u => Linked s ∧ u = s.toHub) Event.hub? ⟨?_, rfl⟩ ?_
    · exact {
        clients := fun id hmem => absurd hmem (Finset.notMem_empty id)
        inserting := fun id hmem => absurd hmem List.not_mem_nil
        sending := fun i t ht => by cases ht }
    · rintro tr' s _ a s' out hrun ⟨hlinked, rfl⟩ - hstep
      have hstepped := stepped_of_step hstep
      refine ⟨s'.toHub, ?_, hlinked.step hstepped, rfl⟩
      rcases hlinked.stepped hstepped with ⟨hnone, hsame⟩ | ⟨b, hknown, hhub⟩
      · rwa [hnone, List.append_nil, hsame]
      · exact .step hrun hknown (Broadcast.step_of_stepped hhub)
  obtain ⟨_, hrun, hlinked, rfl⟩ := hrefines
  exact ⟨hlinked, hrun⟩

end Refinement

/-! ## What the clients hear -/

/-- What the broker has told a client. -/
def toldTo (id : TaskId) (tr : List (Event R W)) : List String :=
  Broadcast.told id (tr.filterMap Event.hub?)

/-- What the broker is still to tell a client. -/
def Broker.untold (s : Broker R W) (id : TaskId) : List String :=
  s.todo.filterMap fun
    | .sendMsg id' msg | .flush id' msg => if id' = id then some msg else none
    | _ => none

/-- The announcements and broadcasts that the broker has received. -/
def received (tr : List (Event R W)) : List String := Broadcast.texts (tr.filterMap Event.hub?)

section Hearing

variable {s : Broker R W} {tr : List (Event R W)}

theorem untold_eq (s : Broker R W) (id : TaskId) :
    s.untold id = Broadcast.pending id s.toHub.todo := by
  show s.todo.filterMap _ = (s.todo.filterMap Job.task?).filterMap _
  rw [List.filterMap_filterMap]
  refine congrArg (List.filterMap · s.todo) (funext fun job => ?_)
  cases job <;> rfl

/-- What a client has been told, and is still to be told, is what it has to hear. -/
theorem toldTo_untold [AsyncRead R] [AsyncWrite W] {ok : Broker R W → Action R W → Prop}
    (h : broker.Run ok tr s) (id : TaskId) :
    toldTo id tr ++ s.untold id = (Broadcast.listener id (tr.filterMap Event.hub?)).heard := by
  obtain ⟨-, hrun⟩ := refines_hub h
  rw [untold_eq]
  exact (Broadcast.hub_hears hrun id).heard

/-- **Each client is told what it has to hear**: what the broker has received since it has spawned the task
of the client, apart from the client's own broadcasts, each message once and in the order of the channel.
All clients are told in this one order. Between two server commands, those present are those in the map. -/
theorem broker_hears [AsyncRead R] [AsyncWrite W] (h : broker.Run Machine.unguarded tr s) (id : TaskId) :
    toldTo id tr ++ s.untold id = (Broadcast.listener id (tr.filterMap Event.hub?)).heard ∧
      ((Broadcast.listener id (tr.filterMap Event.hub?)).present = true ↔
        id ∈ s.clients ∨ .insert id ∈ s.todo) ∧
      (toldTo id tr ++ s.untold id).Sublist (received tr) := by
  obtain ⟨-, hrun⟩ := refines_hub h
  have hheard := toldTo_untold h id
  refine ⟨hheard, ?_, ?_⟩
  · rw [(Broadcast.hub_hears hrun id).present]
    simp [Broker.toHub, mem_inserting]
  · rw [hheard]
    exact Broadcast.heard_sublist_texts _ _

end Hearing

/-! ## Who leaves -/

/-- The clients that have been removed from the map, with their names. -/
def removals (tr : List (Event R W)) : List (TaskId × String) :=
  Broadcast.departures (tr.filterMap Event.hub?)

/-- The announcements that the broker itself has pushed. -/
def announced (tr : List (Event R W)) : List String := Broadcast.announced (tr.filterMap Event.hub?)

/-- The announcements that the broker is still to push. -/
def Broker.unannounced (s : Broker R W) : List String :=
  s.todo.filterMap fun
    | .announce msg => some msg
    | _ => none

section Leaving

variable {s : Broker R W} {tr : List (Event R W)} {id : TaskId}

theorem unannounced_eq (s : Broker R W) : s.unannounced = Broadcast.unannounced s.toHub.todo := by
  show _ = (s.todo.filterMap Job.task?).filterMap _
  rw [List.filterMap_filterMap]
  refine congrArg (List.filterMap · s.todo) (funext fun job => ?_)
  cases job <;> rfl

theorem leave_mem_pops : .leave id ∈ Broadcast.pops (tr.filterMap Event.hub?) ↔
    .popped (.other (.disconnect id)) ∈ tr := by
  rw [Broadcast.pops, List.filterMap_filterMap, List.mem_filterMap]
  constructor
  · rintro ⟨e, hmem, he⟩
    cases e with
    | popped cmd =>
      cases cmd with
      | connect stream => cases he
      | other cmd =>
        cases cmd with
        | disconnect id' =>
          obtain rfl := Broadcast.Order.leave.inj (Option.some.inj he)
          exact hmem
        | _ => cases he
    | _ => cases he
  · exact fun hmem => ⟨_, hmem, rfl⟩

/-- **Each client leaves once**, however many times its task and the broker ask for it: the broker announces
each removal once, by the name that the client had then, and those that have been removed are those with a
task that a `Disconnect` has been received for. -/
theorem broker_announces [AsyncRead R] [AsyncWrite W] (h : broker.Run Machine.unguarded tr s) :
    ((removals tr).map Prod.fst).Nodup ∧
      announced tr ++ s.unannounced = (removals tr).map (fun r => hasLeft r.2) ∧
      ∀ id, id ∈ (removals tr).map Prod.fst ↔
        id.id < s.tasks.length ∧ .popped (.other (.disconnect id)) ∈ tr := by
  obtain ⟨-, hrun⟩ := refines_hub h
  have hroll := Broadcast.Roll.of_run hrun
  refine ⟨hroll.nodup, ?_, fun id => ?_⟩
  · rw [unannounced_eq]
    exact hroll.farewells
  · have hmembers : id ∈ s.toHub.members ↔ id ∈ s.toHub.joined ∧
        .leave id ∉ Broadcast.pops (tr.filterMap Event.hub?) := Broadcast.mem_members_iff hrun
    rw [leave_mem_pops] at hmembers
    rw [removals, hroll.left, hmembers]
    show id ∈ ids _ ∧ ¬ (id ∈ ids _ ∧ _) ↔ _
    rw [mem_ids]
    tauto

end Leaving

/-! ## Two clients -/

/-- A client gives its name before it is in the map, sends a message and closes its connection. Its task
has pushed a second `Disconnect` before the broker receives the first one. -/
theorem exists_conversed : ∃ tr s, (broker (R := Source) (W := Outlet)).Run Machine.unguarded tr s ∧
    (s.channel.length = 0 ∧ s.clients = {⟨1⟩} ∧ s.tasks.length = 2) ∧ removals tr = [(⟨0⟩, "A")] ∧
      toldTo ⟨1⟩ tr = ["----- Welcome, A -----", "A: x", "----- A has left -----"] := by
  have hexec : ((broker (R := Source) (W := Outlet)).exec [
      .accept ⟨⟨[.piece 0 [0, 0, 0, 1, 65], .piece 1 [0, 0, 0, 1, 120]], none⟩,
        ⟨.const (.ready 100), .const (.ready (.ok ())), []⟩⟩,
      .accept ⟨⟨[], none⟩, ⟨.const (.ready 100), .const (.ready (.ok ())), []⟩⟩,
      .receive [], .poll ⟨0⟩, .send ⟨0⟩, .work 0, .receive [], .work 0, .receive [⟨1⟩, ⟨0⟩], .work 0,
      .work 1, .poll ⟨0⟩, .work 0, .work 1, .send ⟨0⟩, .receive [⟨0⟩, ⟨1⟩], .work 0, .poll ⟨0⟩, .work 1,
      .send ⟨0⟩, .poll ⟨0⟩, .send ⟨0⟩, .receive [], .work 0, .receive [], .receive [⟨1⟩], .work 0,
      .work 1]).map (fun r =>
        (decide (r.1.channel.length = 0 ∧ r.1.clients = {⟨1⟩} ∧ r.1.tasks.length = 2),
          decide (removals r.2 = [(⟨0⟩, "A")]),
          decide (toldTo ⟨1⟩ r.2 = ["----- Welcome, A -----", "A: x", "----- A has left -----"]))) =
      some (true, true, true) := by
    decide +kernel
  obtain ⟨⟨s, tr⟩, hexec, hend⟩ := Option.map_eq_some_iff.mp hexec
  have hrun := Machine.run_exec hexec
  simp only [Prod.mk.injEq, decide_eq_true_eq] at hend
  exact ⟨tr, s, hrun, hend⟩

/-- The client that stays has heard the other one come and go. -/
theorem broker_hears_two : ∃ tr s, (broker (R := Source) (W := Outlet)).Run Machine.unguarded tr s ∧
    toldTo ⟨1⟩ tr = ["----- Welcome, A -----", "A: x", "----- A has left -----"] ∧
    toldTo ⟨1⟩ tr ++ s.untold ⟨1⟩ = (Broadcast.listener ⟨1⟩ (tr.filterMap Event.hub?)).heard := by
  obtain ⟨tr, s, hrun, -, -, htold⟩ := exists_conversed
  exact ⟨tr, s, hrun, htold, (broker_hears hrun ⟨1⟩).1⟩

/-- The client that has left has left once. -/
theorem broker_announces_two : ∃ tr s, (broker (R := Source) (W := Outlet)).Run Machine.unguarded tr s ∧
    removals tr = [(⟨0⟩, "A")] ∧ announced tr ++ s.unannounced = ["----- A has left -----"] := by
  obtain ⟨tr, s, hrun, -, hremovals, -⟩ := exists_conversed
  obtain ⟨-, hannounced, -⟩ := broker_announces hrun
  rw [hremovals] at hannounced
  exact ⟨tr, s, hrun, hremovals, hannounced⟩

end Groupchat.AsyncServer
