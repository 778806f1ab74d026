import RustPractices.Groupchat.EventServer
import RustPractices.Transition.Machine
import Mathlib.Data.Finmap

/-!
# The event server's command loop

The server works on its channel of commands until the channel is empty. It sends announcements and
broadcasts to the clients in its map, and pushes a `Disconnect` for each client that it fails to
reach; for a client that it removes it pushes an announcement. The loop thus feeds its own channel,
with several commands for the same client.

The map is iterated in an order of its own, and the operating system may refuse to register a new
client, which ends `main`.

## Main definitions

* `Server`: what `main` keeps; its clients have tokens that `next_token` has given out
* `Server.step`: one turn of the loop
* `Server.potential`: a bound for the turns to come
* `commandLoop`: the loop, as a machine from any server

## Main results

* `Server.potential_lt_of_step`: each turn has its price
* `commandLoop_orderly`: the loop ends, announces each departure once, and reaches every client once
-/

open Io Transition

namespace Groupchat

universe u

variable {S : Type u}

/-- The clients by their tokens. -/
abbrev Clients (S : Type u) := Finmap fun _ : Token => Client S

/-- **The event server** in its command loop. Every client has a token that has been given out; `ended`
says how `main` has ended. -/
structure Server (S : Type u) where
  clients : Clients S
  channel : List (ServerCmd S)
  uniqueToken : Token
  ended : Option Failure := none
  fresh : ∀ token ∈ clients, token.id < uniqueToken.id

/-- What the loop does not decide itself: the order in which the map is iterated, and whether a new
client can be registered. -/
structure Choice where
  order : List Token
  register : Except ErrorKind Unit := .ok ()

/-- The order goes through the map. -/
def Choice.Iterates (choice : Choice) (clients : Clients S) : Prop :=
  choice.order.Nodup ∧ choice.order.toFinset = clients.keys

instance (choice : Choice) (clients : Clients S) : Decidable (choice.Iterates clients) :=
  inferInstanceAs (Decidable (_ ∧ _))

/-- A list that goes through the map is as long as the map. -/
theorem Choice.Iterates.length_order {choice : Choice} {clients : Clients S}
    (h : choice.Iterates clients) : choice.order.length = clients.keys.card := by
  rw [← h.2, List.toFinset_card_of_nodup h.1]

/-- A call of `encode` for a client. -/
structure Sending where
  token : Token
  cmd : Command
  result : Outcome Unit
  deriving DecidableEq

/-- A turn of the loop: the command that is popped, the clients at that time, the calls of `encode`, the
commands that are pushed, and the client that is removed with its name. -/
structure Turn (S : Type u) where
  cmd : ServerCmd S
  clients : Clients S
  sendings : List Sending := []
  pushed : List (ServerCmd S) := []
  left : Option (Token × String) := none

/-- The clients after a `for` loop over them, with its calls of `encode` and what it has pushed. -/
structure Delivery (S : Type u) where
  clients : Clients S
  sendings : List Sending := []
  pushed : List (ServerCmd S) := []

/-- The body of a `for` loop, for the clients in this order: a client whose `encode` fails is to be
disconnected. -/
def deliver [Write S] (cmd : Command) : List Token → Clients S → Delivery S
  | [], clients => { clients }
  | token :: order, clients =>
    match clients.lookup token with
    -- the loop runs over the map itself, so that this does not happen
    | none => deliver cmd order clients
    | some client =>
      let (result, stream) := encode client.stream cmd
      let clients := clients.replace token { client with stream }
      match result with
      | .ok () =>
        let d := deliver cmd order clients
        { d with sendings := { token, cmd, result } :: d.sendings }
      | .error (.error _) =>
        let d := deliver cmd order clients
        { d with
          sendings := { token, cmd, result } :: d.sendings
          pushed := .disconnect token :: d.pushed }
      -- the clients after this one are not sent anything
      | .error .panic => { clients, sendings := [{ token, cmd, result }] }

/-- `next_token`: the token, and the one after it. -/
def nextToken (tokenCur : Token) : Outcome (Token × Token) :=
  if tokenCur.id + 1 < 2 ^ 64 then .ok (tokenCur, ⟨tokenCur.id + 1⟩) else panicked

/-- The announcement for a client of this name that is removed. -/
def hasLeft (name : String) : ServerCmd S := .announcement ("----- " ++ name ++ " has left -----")

/-! ## What a `for` loop over the clients does -/

section Deliver

variable [Write S] {cmd : Command}

@[simp] theorem keys_deliver (order : List Token) (clients : Clients S) :
    (deliver cmd order clients).clients.keys = clients.keys := by
  induction order generalizing clients with
  | nil => rfl
  | cons token order ih =>
    rw [deliver]
    cases clients.lookup token with
    | none => exact ih clients
    | some client =>
      dsimp only
      split
      · exact (ih _).trans (Finmap.keys_replace ..)
      · exact (ih _).trans (Finmap.keys_replace ..)
      · exact Finmap.keys_replace ..

/-- What is pushed are disconnects, at most one for a client of the order. -/
theorem exists_pushed_deliver (order : List Token) (clients : Clients S) :
    ∃ failed : List Token, failed.Sublist order ∧
      (deliver cmd order clients).pushed = failed.map ServerCmd.disconnect := by
  induction order generalizing clients with
  | nil => exact ⟨[], .slnil, rfl⟩
  | cons token order ih =>
    rw [deliver]
    cases clients.lookup token with
    | none =>
      obtain ⟨failed, hsub, hpushed⟩ := ih clients
      exact ⟨failed, hsub.cons token, hpushed⟩
    | some client =>
      dsimp only
      split
      · obtain ⟨failed, hsub, hpushed⟩ := ih _
        exact ⟨failed, hsub.cons token, hpushed⟩
      · obtain ⟨failed, hsub, hpushed⟩ := ih _
        exact ⟨token :: failed, hsub.cons_cons token, by rw [hpushed, List.map_cons]⟩
      · exact ⟨[], List.nil_sublist _, rfl⟩

theorem cmd_of_mem_deliver {order : List Token} {clients : Clients S} {sending : Sending}
    (h : sending ∈ (deliver cmd order clients).sendings) : sending.cmd = cmd := by
  induction order generalizing clients with
  | nil => simp [deliver] at h
  | cons token order ih =>
    rw [deliver] at h
    cases hclient : clients.lookup token with
    | none =>
      rw [hclient] at h
      exact ih h
    | some client =>
      rw [hclient] at h
      dsimp only at h
      split at h
      · rcases List.mem_cons.mp h with rfl | h
        · rfl
        · exact ih h
      · rcases List.mem_cons.mp h with rfl | h
        · rfl
        · exact ih h
      · obtain rfl := List.mem_singleton.mp h
        rfl

/-- Where no `encode` panics, each client of the order is sent the command once. -/
theorem map_token_deliver {order : List Token} {clients : Clients S}
    (hmem : ∀ token ∈ order, token ∈ clients)
    (hreturns : ∀ sending ∈ (deliver cmd order clients).sendings, sending.result ≠ panicked) :
    (deliver cmd order clients).sendings.map Sending.token = order := by
  induction order generalizing clients with
  | nil => rfl
  | cons token order ih =>
    obtain ⟨client, hclient⟩ := Finmap.mem_iff.mp (hmem token List.mem_cons_self)
    rw [deliver, hclient] at hreturns ⊢
    dsimp only at hreturns ⊢
    have hrest : ∀ t ∈ order, t ∈ clients.replace token
        { client with stream := (encode client.stream cmd).2 } := fun t ht =>
      Finmap.mem_replace.mpr (hmem t (List.mem_cons_of_mem _ ht))
    -- the loop ends early only when `encode` panics
    cases hresult : (encode client.stream cmd).1 with
    | ok =>
      rw [hresult] at hreturns
      refine congrArg (token :: ·) (ih hrest fun sending h => hreturns sending ?_)
      exact List.mem_cons_of_mem _ h
    | error e =>
      rw [hresult] at hreturns
      cases e with
      | error kind =>
        refine congrArg (token :: ·) (ih hrest fun sending h => hreturns sending ?_)
        exact List.mem_cons_of_mem _ h
      | panic => exact (hreturns _ (List.mem_singleton.mpr rfl) rfl).elim

end Deliver

theorem eq_of_nextToken_eq_ok {tokenCur token next : Token}
    (h : nextToken tokenCur = .ok (token, next)) : token = tokenCur ∧ next.id = tokenCur.id + 1 := by
  unfold nextToken at h
  split_ifs at h
  · obtain ⟨rfl, rfl⟩ := Prod.mk.inj (Except.ok.inj h)
    exact ⟨rfl, rfl⟩
  · simp [panicked] at h

/-! ## The loop -/

namespace Server

/-- The turn of a message that is sent to the clients in this order. -/
def send [Write S] (s : Server S) (cmd : ServerCmd S) (msg : String) (order : List Token) :
    Server S × Turn S :=
  let d := deliver (.message msg) order s.clients
  ({ s with
      clients := d.clients
      channel := s.channel ++ d.pushed
      ended := if ∃ sending ∈ d.sendings, sending.result = panicked then some .panic else none
      fresh := fun token h => s.fresh token (by
        rwa [← Finmap.mem_keys, keys_deliver, Finmap.mem_keys] at h) },
    { cmd, clients := s.clients, sendings := d.sendings, pushed := d.pushed })

/-- The arm `Connect`. The token is gone also when the client cannot be registered. -/
def connect (s : Server S) (stream : S) (register : Except ErrorKind Unit) : Server S :=
  match hnext : nextToken s.uniqueToken with
  -- the addition overflows
  | .error e => { s with ended := some e }
  | .ok (token, uniqueToken) =>
    match register with
    -- `?` ends `main`
    | .error kind =>
      { s with
        uniqueToken
        ended := some (.error kind)
        fresh := fun t h => by
          have hlt := s.fresh t h
          have hsucc := (eq_of_nextToken_eq_ok hnext).2
          omega }
    | .ok () =>
      { s with
        clients := s.clients.insert token (Client.new (StreamAgent.new stream))
        uniqueToken
        fresh := fun t h => by
          obtain ⟨rfl, hsucc⟩ := eq_of_nextToken_eq_ok hnext
          rcases Finmap.mem_insert.mp h with rfl | h
          · omega
          · have hlt := s.fresh t h
            omega }

/-- The arm `Disconnect`. -/
def disconnect (s : Server S) (token : Token) : Server S × Turn S :=
  match s.clients.lookup token with
  -- an earlier `Disconnect` has removed it
  | none => (s, { cmd := .disconnect token, clients := s.clients })
  | some client =>
    ({ s with
        clients := s.clients.erase token
        channel := s.channel ++ [hasLeft client.name]
        fresh := fun t h => s.fresh t (Finmap.mem_erase.mp h).2 },
      { cmd := .disconnect token
        clients := s.clients
        pushed := [hasLeft client.name]
        left := some (token, client.name) })

/-- The body of the loop, for a command that has been popped. -/
def process [Write S] (s : Server S) (choice : Choice) : ServerCmd S → Server S × Turn S
  | .announcement msg => s.send (.announcement msg) msg choice.order
  | .broadcast src msg => s.send (.broadcast src msg) msg (choice.order.filter (· ≠ src))
  | .connect stream =>
    (s.connect stream choice.register, { cmd := .connect stream, clients := s.clients })
  | .disconnect token => s.disconnect token

/-- **A turn of the loop**, as long as `main` has not ended and the channel is not empty. -/
def step [Write S] (s : Server S) (choice : Choice) : Option (Server S × List (Turn S)) :=
  if s.ended = none ∧ choice.Iterates s.clients then
    match s.channel with
    | [] => none
    | cmd :: rest =>
      let (t, turn) := process { s with channel := rest } choice cmd
      some (t, [turn])
  else none

end Server

/-- **The command loop** of a server. -/
def commandLoop [Write S] (s₀ : Server S) : Machine (Server S) Choice (Turn S) where
  init := s₀
  step := Server.step

/-! ## The price of a turn -/

namespace ServerCmd

/-- The command is a message for clients. -/
def isText : ServerCmd S → Bool
  | announcement _ | broadcast _ _ => true
  | _ => false

def isConnect : ServerCmd S → Bool
  | connect _ => true
  | _ => false

def isDisconnect : ServerCmd S → Bool
  | disconnect _ => true
  | _ => false

end ServerCmd

section Disconnects

variable (failed : List Token)

@[simp] theorem filter_isText_map_disconnect :
    (failed.map (ServerCmd.disconnect (S := S))).filter ServerCmd.isText = [] := by
  simp [List.filter_eq_nil_iff, ServerCmd.isText]

@[simp] theorem countP_isText_map_disconnect :
    (failed.map (ServerCmd.disconnect (S := S))).countP ServerCmd.isText = 0 := by
  simp [List.countP_eq_zero, ServerCmd.isText]

@[simp] theorem countP_isConnect_map_disconnect :
    (failed.map (ServerCmd.disconnect (S := S))).countP ServerCmd.isConnect = 0 := by
  simp [List.countP_eq_zero, ServerCmd.isConnect]

@[simp] theorem countP_isDisconnect_map_disconnect :
    (failed.map (ServerCmd.disconnect (S := S))).countP ServerCmd.isDisconnect = failed.length := by
  simp [List.countP_map, Function.comp_def, ServerCmd.isDisconnect]

end Disconnects

namespace Server

/-- The clients, with those about to connect. -/
def population (s : Server S) : ℕ := s.clients.keys.card + s.channel.countP ServerCmd.isConnect

/-- **A bound for the turns to come.** A client is to be disconnected once for each message, and is
announced to have left at most once. -/
def potential (s : Server S) : ℕ :=
  (s.channel.countP ServerCmd.isText + s.population) * (s.population + 1) +
    s.channel.countP ServerCmd.isDisconnect + s.channel.countP ServerCmd.isConnect

/-- What is left of the measure when the population does not grow. -/
theorem potential_le_of_population_le {A D K N N' : ℕ} (h : N' ≤ N) :
    (A + N') * (N' + 1) + D + K ≤ (A + N) * (N + 1) + D + K := by
  gcongr

section Price

variable {s : Server S} {cmd : ServerCmd S} {rest : List (ServerCmd S)}

/-- A message is paid for, with the disconnects that it causes. -/
theorem potential_send_lt [Write S] {msg : String} {order : List Token} (hcmd : cmd.isText)
    (hchannel : s.channel = cmd :: rest) (horder : order.length ≤ s.clients.keys.card) :
    (send { s with channel := rest } cmd msg order).1.potential < s.potential := by
  obtain ⟨failed, hsub, hpushed⟩ := @exists_pushed_deliver S _ (.message msg) order s.clients
  have hfailed : failed.length ≤ s.clients.keys.card := hsub.length_le.trans horder
  have hconnect : cmd.isConnect = false := by
    cases cmd <;> simp_all [ServerCmd.isText, ServerCmd.isConnect]
  have hdisconnect : cmd.isDisconnect = false := by
    cases cmd <;> simp_all [ServerCmd.isText, ServerCmd.isDisconnect]
  simp only [potential, population, send, keys_deliver, hpushed, hchannel, List.countP_append,
    List.countP_cons, hcmd, hconnect, hdisconnect, countP_isText_map_disconnect,
    countP_isConnect_map_disconnect, countP_isDisconnect_map_disconnect]
  simp only [Bool.false_eq_true, if_false, if_true, add_zero]
  -- one message less outweighs a disconnect for each client
  nlinarith

theorem channel_connect (stream : S) (register : Except ErrorKind Unit) :
    (s.connect stream register).channel = s.channel := by
  unfold connect
  split
  · rfl
  · split <;> rfl

theorem keys_connect_subset (stream : S) (register : Except ErrorKind Unit) :
    (s.connect stream register).clients.keys ⊆ insert s.uniqueToken s.clients.keys := by
  unfold connect
  split
  · exact Finset.subset_insert _ _
  · next token uniqueToken hnext =>
    obtain ⟨rfl, -⟩ := eq_of_nextToken_eq_ok hnext
    split
    · exact Finset.subset_insert _ _
    · intro t ht
      rcases Finmap.mem_insert.mp (Finmap.mem_keys.mp ht) with rfl | ht
      · exact Finset.mem_insert_self _ _
      · exact Finset.mem_insert_of_mem (Finmap.mem_keys.mpr ht)

theorem keys_subset_connect (stream : S) (register : Except ErrorKind Unit) :
    s.clients.keys ⊆ (s.connect stream register).clients.keys := by
  unfold connect
  split
  · exact subset_refl _
  · split
    · exact subset_refl _
    · intro t ht
      exact Finmap.mem_keys.mpr (Finmap.mem_insert.mpr (.inr (Finmap.mem_keys.mp ht)))

theorem token_le_connect (stream : S) (register : Except ErrorKind Unit) :
    s.uniqueToken.id ≤ (s.connect stream register).uniqueToken.id := by
  unfold connect
  split
  · exact le_refl _
  · next token uniqueToken hnext =>
    have hsucc := (eq_of_nextToken_eq_ok hnext).2
    split
    · change _ ≤ uniqueToken.id
      omega
    · change _ ≤ uniqueToken.id
      omega

/-- A connection is paid for, with the client that it adds. -/
theorem potential_connect_lt {stream : S} (register : Except ErrorKind Unit)
    (hchannel : s.channel = .connect stream :: rest) :
    (connect { s with channel := rest } stream register).potential < s.potential := by
  set t := connect { s with channel := rest } stream register with ht
  have hkeys : t.clients.keys.card ≤ s.clients.keys.card + 1 :=
    (Finset.card_le_card (keys_connect_subset stream register)).trans (Finset.card_insert_le _ _)
  have hrest : t.channel = rest := channel_connect stream register
  have hpop : t.population ≤ s.population := by
    simp only [population, hrest, hchannel, List.countP_cons, ServerCmd.isConnect]
    simp only [if_true]
    omega
  have hle := potential_le_of_population_le (A := rest.countP ServerCmd.isText)
    (D := rest.countP ServerCmd.isDisconnect) (K := rest.countP ServerCmd.isConnect) hpop
  simp only [potential, hrest, hchannel, List.countP_cons, ServerCmd.isText, ServerCmd.isConnect,
    ServerCmd.isDisconnect]
  simp only [Bool.false_eq_true, if_false, if_true, add_zero]
  linarith

/-- A disconnect is paid for, with the announcement that the client has left. -/
theorem potential_disconnect_lt {token : Token} (hchannel : s.channel = .disconnect token :: rest) :
    (disconnect { s with channel := rest } token).1.potential < s.potential := by
  unfold disconnect
  cases hclient : s.clients.lookup token with
  | none =>
    simp only [potential, population, hchannel, List.countP_cons, ServerCmd.isText,
      ServerCmd.isConnect, ServerCmd.isDisconnect]
    simp only [Bool.false_eq_true, if_false, if_true, add_zero]
    linarith
  | some client =>
    have hmem : token ∈ s.clients.keys := Finmap.mem_keys.mpr (Finmap.mem_of_lookup_eq_some hclient)
    have hcard := Finset.card_erase_add_one hmem
    simp only [potential, population, hchannel, Finmap.keys_erase, hasLeft, List.countP_append,
      List.countP_cons, List.countP_nil, ServerCmd.isText, ServerCmd.isConnect,
      ServerCmd.isDisconnect, ← hcard]
    simp only [Bool.false_eq_true, if_false, if_true, add_zero, zero_add]
    nlinarith

end Price

/-- What a step is: the turn of the first command. -/
theorem step_cases [Write S] {s t : Server S} {choice : Choice} {out : List (Turn S)}
    (h : s.step choice = some (t, out)) :
    ∃ cmd rest, s.channel = cmd :: rest ∧ choice.Iterates s.clients ∧
      t = (process { s with channel := rest } choice cmd).1 ∧
      out = [(process { s with channel := rest } choice cmd).2] := by
  unfold step at h
  split_ifs at h with hok
  split at h
  · simp at h
  · next cmd rest hchannel =>
    obtain ⟨rfl, rfl⟩ := Prod.mk.inj (Option.some.inj h)
    exact ⟨cmd, rest, hchannel, hok.2, rfl, rfl⟩

/-- **Each turn has its price.** -/
theorem potential_lt_of_step [Write S] {s t : Server S} {choice : Choice} {out : List (Turn S)}
    (h : s.step choice = some (t, out)) : out.length + t.potential ≤ s.potential := by
  obtain ⟨cmd, rest, hchannel, hiter, rfl, rfl⟩ := step_cases h
  rw [List.length_singleton, Nat.add_comm, Nat.succ_le_iff]
  have horder := hiter.length_order.le
  cases cmd with
  | announcement msg => exact potential_send_lt rfl hchannel horder
  | broadcast src msg =>
    exact potential_send_lt rfl hchannel ((List.length_filter_le _ _).trans horder)
  | connect stream => exact potential_connect_lt choice.register hchannel
  | disconnect token => exact potential_disconnect_lt hchannel

/-- Nothing but the end of `main` and an empty channel stops the loop. -/
theorem exists_step [Write S] {s : Server S} (hended : s.ended = none) (hchannel : s.channel ≠ [])
    {choice : Choice} (hiter : choice.Iterates s.clients) :
    ∃ t turn, s.step choice = some (t, [turn]) := by
  obtain ⟨cmd, rest, hcons⟩ := List.exists_cons_of_ne_nil hchannel
  have hstep : s.step choice = some ((process { s with channel := rest } choice cmd).1,
      [(process { s with channel := rest } choice cmd).2]) := by
    rw [step, if_pos ⟨hended, hiter⟩, hcons]
  exact ⟨_, _, hstep⟩

theorem exists_iterates (clients : Clients S) : ∃ choice : Choice, choice.Iterates clients :=
  ⟨{ order := clients.keys.toList }, Finset.nodup_toList _, Finset.toList_toFinset _⟩

end Server

/-! ## What a turn does -/

namespace Turn

/-- The clients that the command is for. -/
def recipients (turn : Turn S) : Finset Token :=
  match turn.cmd with
  | .announcement _ => turn.clients.keys
  | .broadcast src _ => turn.clients.keys.erase src
  | _ => ∅

/-- The message of the command. -/
def text (turn : Turn S) : String :=
  match turn.cmd with
  | .announcement msg | .broadcast _ msg => msg
  | _ => ""

/-- The client that the command removes, if it is still there, with its name. -/
def leaver (turn : Turn S) : Option (Token × String) :=
  match turn.cmd with
  | .disconnect token => (turn.clients.lookup token).map fun client => (token, client.name)
  | _ => none

/-- **The turn is proper**: unless an `encode` panics, the message is encoded once for each client that
the command is for; a `Disconnect` removes its client if it is still there; and the turn announces
the client that it removes, and nothing else. -/
structure Proper (turn : Turn S) : Prop where
  reaches : (∀ sending ∈ turn.sendings, sending.result ≠ panicked) →
    (turn.sendings.map Sending.token).Nodup ∧
      (turn.sendings.map Sending.token).toFinset = turn.recipients
  sends : ∀ sending ∈ turn.sendings, sending.cmd = .message turn.text
  leaves : turn.left = turn.leaver
  announces : turn.pushed.filter ServerCmd.isText = turn.left.toList.map fun x => hasLeft x.2

end Turn

namespace Server

/-- **What a turn does** to the server: it pops its command and pushes, and the clients change by
those that connect, whose tokens are new, and the one that is removed. -/
structure Turned (s : Server S) (turn : Turn S) (t : Server S) : Prop where
  popped : ∃ rest, s.channel = turn.cmd :: rest ∧ t.channel = rest ++ turn.pushed
  clients : turn.clients = s.clients
  proper : turn.Proper
  token_le : s.uniqueToken.id ≤ t.uniqueToken.id
  stays : ∀ token ∈ s.clients, token ∉ t.clients ↔ ∃ name, turn.leaver = some (token, name)
  enters : ∀ token ∈ t.clients, token ∈ s.clients ∨ s.uniqueToken.id ≤ token.id

section Turned

variable {s : Server S} {cmd : ServerCmd S} {rest : List (ServerCmd S)}

/-- Sending a message changes no token, whatever the answers of the clients. -/
theorem turned_send [Write S] {msg : String} {order : List Token} {r : Server S × Turn S}
    (hr : r = send { s with channel := rest } cmd msg order) (horder : order.Nodup)
    (hmem : ∀ token ∈ order, token ∈ s.clients) (hchannel : s.channel = cmd :: rest)
    (hrecipients : r.2.recipients = order.toFinset) (htext : r.2.text = msg)
    (hleaver : r.2.leaver = none) : Turned s r.2 r.1 := by
  subst hr
  have hclients : ∀ token, token ∈ (send { s with channel := rest } cmd msg order).1.clients ↔
      token ∈ s.clients := by
    intro token
    rw [← Finmap.mem_keys, ← Finmap.mem_keys]
    exact iff_of_eq (congrArg (token ∈ ·) (keys_deliver order s.clients))
  obtain ⟨failed, -, hpushed⟩ := @exists_pushed_deliver S _ (.message msg) order s.clients
  refine ⟨⟨rest, hchannel, rfl⟩, rfl, ⟨?_, ?_, hleaver.symm, ?_⟩, le_refl _, ?_, ?_⟩
  · intro hreturns
    rw [hrecipients]
    have htokens := map_token_deliver hmem hreturns
    exact ⟨htokens.symm ▸ horder, congrArg List.toFinset htokens⟩
  · intro sending h
    rw [htext]
    exact cmd_of_mem_deliver h
  · apply (congrArg (List.filter ServerCmd.isText) hpushed).trans
    exact filter_isText_map_disconnect failed
  · intro token h
    rw [hclients, hleaver]
    simp [h]
  · intro token h
    exact .inl ((hclients token).mp h)

theorem turned_connect {stream : S} (register : Except ErrorKind Unit)
    (hchannel : s.channel = .connect stream :: rest) :
    Turned s { cmd := .connect stream, clients := s.clients }
      (connect { s with channel := rest } stream register) := by
  have hnew := @keys_connect_subset S { s with channel := rest } stream register
  have hold := @keys_subset_connect S { s with channel := rest } stream register
  refine ⟨⟨rest, hchannel, ?_⟩, rfl, ⟨?_, ?_, rfl, rfl⟩, ?_, ?_, ?_⟩
  · rw [channel_connect, List.append_nil]
  · exact fun _ => ⟨List.nodup_nil, rfl⟩
  · intro sending h
    cases h
  · exact @token_le_connect S { s with channel := rest } stream register
  · intro token h
    have hstays := Finmap.mem_keys.mp (hold (Finmap.mem_keys.mpr h))
    simp [hstays, Turn.leaver]
  · intro token h
    rcases Finset.mem_insert.mp (hnew (Finmap.mem_keys.mpr h)) with rfl | h
    · exact .inr (le_refl _)
    · exact .inl (Finmap.mem_keys.mp h)

theorem turned_disconnect {token : Token} (hchannel : s.channel = .disconnect token :: rest) :
    Turned s (disconnect { s with channel := rest } token).2
      (disconnect { s with channel := rest } token).1 := by
  unfold disconnect
  cases hclient : s.clients.lookup token with
  | none =>
    have hleaver : (⟨.disconnect token, s.clients, [], [], none⟩ : Turn S).leaver = none := by
      simp only [Turn.leaver, hclient, Option.map_none]
    refine ⟨⟨rest, hchannel, (List.append_nil rest).symm⟩, rfl, ⟨?_, ?_, hleaver.symm, rfl⟩,
      le_refl _, ?_, fun _ h => .inl h⟩
    · exact fun _ => ⟨List.nodup_nil, rfl⟩
    · intro sending h
      cases h
    · intro t h
      rw [hleaver]
      simp [h]
  | some client =>
    have hleaver : (⟨.disconnect token, s.clients, [], [hasLeft client.name],
        some (token, client.name)⟩ : Turn S).leaver = some (token, client.name) := by
      simp only [Turn.leaver, hclient, Option.map_some]
    refine ⟨⟨rest, hchannel, rfl⟩, rfl, ⟨?_, ?_, hleaver.symm, rfl⟩, le_refl _, ?_, ?_⟩
    · exact fun _ => ⟨List.nodup_nil, rfl⟩
    · intro sending h
      cases h
    · intro t h
      rw [hleaver, Finmap.mem_erase]
      constructor
      · intro hnot
        obtain rfl : t = token := by
          by_contra hne
          exact hnot ⟨hne, h⟩
        exact ⟨client.name, rfl⟩
      · rintro ⟨name, heq⟩ ⟨hne, -⟩
        exact hne (Prod.mk.inj (Option.some.inj heq)).1.symm
    · intro t h
      exact .inl (Finmap.mem_erase.mp h).2

end Turned

/-- Every step of the loop is a turn. -/
theorem turned_of_step [Write S] {s t : Server S} {choice : Choice} {out : List (Turn S)}
    (h : s.step choice = some (t, out)) : ∃ turn, out = [turn] ∧ Turned s turn t := by
  obtain ⟨cmd, rest, hchannel, ⟨hnodup, horder⟩, rfl, rfl⟩ := step_cases h
  have hmem : ∀ token ∈ choice.order, token ∈ s.clients := by
    intro token htoken
    rw [← Finmap.mem_keys, ← horder]
    exact List.mem_toFinset.mpr htoken
  refine ⟨_, rfl, ?_⟩
  cases cmd with
  | announcement msg => exact turned_send rfl hnodup hmem hchannel horder.symm rfl rfl
  | broadcast src msg =>
    refine turned_send rfl (hnodup.filter _) ?_ hchannel ?_ rfl rfl
    · intro token htoken
      exact hmem token (List.mem_of_mem_filter htoken)
    · ext token
      simp only [Turn.recipients, process, send, Finset.mem_erase, ← horder, List.mem_toFinset,
        List.mem_filter, decide_eq_true_eq]
      exact And.comm
  | connect stream => exact turned_connect choice.register hchannel
  | disconnect token => exact turned_disconnect hchannel

end Server

/-! ## The runs of the loop -/

/-- The clients that the turns have removed, with their names. -/
def departures (turns : List (Turn S)) : List (Token × String) := turns.filterMap Turn.left

/-- **The loop has been orderly** since the server `s₀`: there is a bound for its turns, and nothing but
the end of `main` and an empty channel stops it; the commands are popped in the order in which they
are pushed; the messages that it pushes announce the clients that it removes, one for each; no client
is removed twice; and every turn is proper. -/
structure Orderly [Write S] (s₀ : Server S) (turns : List (Turn S)) (s : Server S) : Prop where
  ends : turns.length + s.potential ≤ s₀.potential
  goes_on : s.ended = none → s.channel ≠ [] →
    (∃ choice : Choice, choice.Iterates s.clients) ∧
      ∀ choice : Choice, choice.Iterates s.clients →
        ∃ t turn, s.step choice = some (t, [turn]) ∧ turn.clients = s.clients
  in_order : turns.map Turn.cmd ++ s.channel = s₀.channel ++ turns.flatMap Turn.pushed
  announced : (turns.flatMap Turn.pushed).filter ServerCmd.isText =
    (departures turns).map fun x => hasLeft x.2
  once : ((departures turns).map Prod.fst).Nodup
  gone : ∀ token ∈ s₀.clients, token ∉ s.clients ↔ token ∈ (departures turns).map Prod.fst
  proper : ∀ turn ∈ turns, turn.Proper

/-- What one turn adds to the departures. -/
theorem departures_concat {turns : List (Turn S)} {turn : Turn S} (h : turn.Proper) :
    departures (turns ++ [turn]) = departures turns ++ turn.leaver.toList := by
  rw [departures, List.filterMap_append, ← h.leaves, List.filterMap_cons]
  cases turn.left <;> rfl

/-- Proper turns push announcements for what they remove. -/
theorem announced_of_proper {turns : List (Turn S)} (h : ∀ turn ∈ turns, turn.Proper) :
    (turns.flatMap Turn.pushed).filter ServerCmd.isText =
      (departures turns).map fun x => hasLeft x.2 := by
  induction turns with
  | nil => rfl
  | cons turn turns ih =>
    have hturn := (h turn List.mem_cons_self).announces
    have hturns := ih fun turn' hmem => h turn' (List.mem_cons_of_mem _ hmem)
    rw [List.flatMap_cons, List.filter_append, hturn, hturns, departures, departures,
      List.filterMap_cons]
    cases turn.left <;> rfl

/-- The clients that have left are gone for good. -/
structure Departed (s₀ : Server S) (turns : List (Turn S)) (s : Server S) : Prop where
  token_le : s₀.uniqueToken.id ≤ s.uniqueToken.id
  left_lt : ∀ token ∈ (departures turns).map Prod.fst, token.id < s.uniqueToken.id
  left_notMem : ∀ token ∈ (departures turns).map Prod.fst, token ∉ s.clients
  once : ((departures turns).map Prod.fst).Nodup
  gone : ∀ token ∈ s₀.clients, token ∉ s.clients ↔ token ∈ (departures turns).map Prod.fst

theorem Departed.turned {s₀ s t : Server S} {turns : List (Turn S)} {turn : Turn S}
    (h : Departed s₀ turns s) (hturn : s.Turned turn t) : Departed s₀ (turns ++ [turn]) t := by
  have hdep : (departures (turns ++ [turn])).map Prod.fst =
      (departures turns).map Prod.fst ++ turn.leaver.toList.map Prod.fst := by
    rw [departures_concat hturn.proper, List.map_append]
  have hleaver : ∀ token name, turn.leaver = some (token, name) → token ∈ s.clients := by
    intro token name hleave
    unfold Turn.leaver at hleave
    split at hleave
    · obtain ⟨client, hclient, heq⟩ := Option.map_eq_some_iff.mp hleave
      obtain ⟨rfl, rfl⟩ := Prod.mk.inj heq
      rw [hturn.clients] at hclient
      exact Finmap.mem_of_lookup_eq_some hclient
    · simp at hleave
  have hmem : ∀ token, token ∈ (departures (turns ++ [turn])).map Prod.fst ↔
      token ∈ (departures turns).map Prod.fst ∨ ∃ name, turn.leaver = some (token, name) := by
    intro token
    rw [hdep, List.mem_append]
    apply or_congr_right
    simp
  -- a client that has left does not enter again
  have hnot : ∀ token, token ∈ (departures turns).map Prod.fst → token ∉ t.clients := by
    intro token hleft hin
    rcases hturn.enters token hin with hin | hle
    · exact h.left_notMem token hleft hin
    · exact absurd (h.left_lt token hleft) (by omega)
  refine ⟨h.token_le.trans hturn.token_le, ?_, ?_, ?_, ?_⟩
  · intro token hleft
    refine Nat.lt_of_lt_of_le ?_ hturn.token_le
    rcases (hmem token).mp hleft with hleft | hleave
    · exact h.left_lt token hleft
    · exact s.fresh token (hleave.elim (hleaver token))
  · intro token hleft
    rcases (hmem token).mp hleft with hleft | hleave
    · exact hnot token hleft
    · exact (hturn.stays token (hleave.elim (hleaver token))).mpr hleave
  · rw [hdep, List.nodup_append]
    refine ⟨h.once, ?_, ?_⟩
    · cases turn.leaver <;> simp
    · intro a ha b hb hab
      subst hab
      obtain ⟨⟨token, name⟩, hleave, rfl⟩ := List.mem_map.mp hb
      exact h.left_notMem token ha (hleaver token name (Option.mem_toList.mp hleave))
  · intro token hstart
    rw [hmem]
    by_cases hin : token ∈ s.clients
    · have hnone : token ∉ (departures turns).map Prod.fst := fun hleft =>
        h.left_notMem token hleft hin
      rw [hturn.stays token hin]
      simp [hnone]
    · have hleft := (h.gone token hstart).mp hin
      exact iff_of_true (hnot token hleft) (.inl hleft)

/-- **The command loop is orderly**, whatever the clients, the commands, the order of the map, and the
answers of the sockets and of the operating system. -/
theorem commandLoop_orderly [Write S] (s₀ : Server S) {turns : List (Turn S)} {s : Server S}
    (h : (commandLoop s₀).Run Machine.unguarded turns s) : Orderly s₀ turns s := by
  have hends : turns.length + s.potential ≤ s₀.potential :=
    h.length_add_le Server.potential fun _ _ _ _ _ hstep => Server.potential_lt_of_step hstep
  have hdeparted : Departed s₀ turns s := by
    refine h.invariant (P := Departed s₀) ?_ ?_
    · exact ⟨le_refl _, by simp [departures], by simp [departures], by simp [departures],
        fun token hin => by simp [departures, hin, commandLoop]⟩
    · intro tr s choice t out hs _ hstep
      obtain ⟨turn, rfl, hturn⟩ := Server.turned_of_step hstep
      exact hs.turned hturn
  have hqueue : turns.map Turn.cmd ++ s.channel = s₀.channel ++ turns.flatMap Turn.pushed := by
    refine h.invariant (P := fun turns s =>
      turns.map Turn.cmd ++ s.channel = s₀.channel ++ turns.flatMap Turn.pushed) ?_ ?_
    · simp [commandLoop]
    · intro tr s choice t out hs _ hstep
      obtain ⟨turn, rfl, hturn⟩ := Server.turned_of_step hstep
      obtain ⟨rest, hchannel, hrest⟩ := hturn.popped
      rw [hchannel] at hs
      simp only [List.map_append, List.map_singleton, List.flatMap_append, List.flatMap_singleton,
        hrest, List.append_assoc, List.singleton_append]
      rw [← List.append_assoc s₀.channel, ← hs]
      simp
  have hproper : ∀ turn ∈ turns, turn.Proper := by
    refine h.invariant (P := fun turns _ => ∀ turn ∈ turns, turn.Proper) (by simp) ?_
    intro tr s choice t out hs _ hstep
    obtain ⟨turn, rfl, hturn⟩ := Server.turned_of_step hstep
    intro turn' hmem
    rcases List.mem_append.mp hmem with hmem | hmem
    · exact hs turn' hmem
    · obtain rfl := List.mem_singleton.mp hmem
      exact hturn.proper
  refine ⟨hends, ?_, hqueue, announced_of_proper hproper, hdeparted.once, hdeparted.gone, hproper⟩
  intro hended hchannel
  refine ⟨Server.exists_iterates _, fun choice hiter => ?_⟩
  obtain ⟨t, turn, hstep⟩ := Server.exists_step hended hchannel hiter
  obtain ⟨turn', heq, hturn⟩ := Server.turned_of_step hstep
  obtain rfl := List.singleton_inj.mp heq
  exact ⟨t, turn, hstep, hturn.clients⟩

/-- A connection whose other end is there, or is gone. -/
inductive Peer
  | there
  | gone
  deriving DecidableEq, Repr

instance : Write Peer where
  write
    | .there, buf => (.ok buf.length, .there)
    | .gone, _ => (err .other, .gone)
  flush peer := (.ok (), peer)

/-- A server with two clients, of which the first one is gone and is to be disconnected already. -/
def abandoned : Server Peer where
  clients :=
    (Finmap.singleton ⟨2⟩ ⟨"b", StreamAgent.new .there⟩).insert ⟨1⟩ ⟨"a", StreamAgent.new .gone⟩
  channel := [.announcement "hi", .disconnect ⟨1⟩]
  uniqueToken := ⟨3⟩
  fresh token h := by
    rcases Finmap.mem_insert.mp h with rfl | h
    · decide
    · obtain rfl := (Finmap.mem_singleton ..).mp h
      decide

/-- The first client is disconnected twice, and the second one is told once that it has left. -/
theorem commandLoop_orderly_abandoned : ∃ turns s,
    (commandLoop abandoned).Run Machine.unguarded turns s ∧ s.ended = none ∧ s.channel = [] ∧
      departures turns = [(⟨1⟩, "a")] ∧ Orderly abandoned turns s := by
  have hexec : ((commandLoop abandoned).exec [{ order := [⟨1⟩, ⟨2⟩] }, { order := [⟨2⟩, ⟨1⟩] },
      { order := [⟨2⟩] }, { order := [⟨2⟩] }]).map
      (fun r => (r.1.ended, r.1.channel, departures r.2)) =
        some (none, [], [(⟨1⟩, "a")]) := by
    decide +kernel
  obtain ⟨⟨s, turns⟩, hexec, hend⟩ := Option.map_eq_some_iff.mp hexec
  obtain ⟨hended, hchannel, hleft⟩ := by simpa only [Prod.mk.injEq] using hend
  have hrun := Machine.run_exec hexec
  exact ⟨turns, s, hrun, hended, hchannel, hleft, commandLoop_orderly abandoned hrun⟩

end Groupchat
