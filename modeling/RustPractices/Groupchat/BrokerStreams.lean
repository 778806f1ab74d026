import RustPractices.Groupchat.BrokerLoop

/-!
# The streams of the asynchronous server

The agent of a client is shared by its reader task, which polls it for commands, and by the broker, which
writes messages to it. The one never sees what the other does: reading leaves the write buffer and the
writing direction alone, and writing leaves the reading direction alone.

So each reader task pushes what it would push if it were alone, however its polls and the flushes of the
broker interleave, and the bytes on the wire are the frames of the messages that the client has to hear.

## Main definitions

* `rdHalf`, `wtHalf`: the halves of an agent
* `FlushFits`: the flushes of the broker find answers that they cope with

## Main results

* `task_serves`: each task pushes what it would push alone
* `client_receives`: the client receives what it has to hear
-/

open Io Transition

namespace Groupchat.AsyncServer

universe u v

variable {R : Type u} {W : Type v}

/-! ## The halves of an agent -/

/-- The half that reads. -/
def rdHalf (a : AsyncStreamAgent (TcpStream R W)) : AsyncStreamAgent R := .new a.stream.reader

/-- The half that writes. -/
def wtHalf (a : AsyncStreamAgent (TcpStream R W)) : AsyncStreamAgent W where
  stream := a.stream.writer
  writer := a.writer

section Halves

variable {a b : AsyncStreamAgent (TcpStream R W)}

theorem pollReadExact_reader [AsyncRead R] (s : TcpStream R W) (n : ℕ) : pollReadExact s n =
    ((pollReadExact s.reader n).1, { s with reader := (pollReadExact s.reader n).2 }) := by
  induction n using Nat.strong_induction_on generalizing s with
  | _ n ih =>
    have hread : AsyncRead.pollRead s n = ((AsyncRead.pollRead s.reader n).1,
        { s with reader := (AsyncRead.pollRead s.reader n).2 }) := rfl
    rw [pollReadExact.eq_def s n, pollReadExact.eq_def s.reader n, hread]
    split_ifs with hn
    · rfl
    rcases AsyncRead.pollRead s.reader n with ⟨answer, reader⟩
    cases answer with
    | pending => rfl
    | ready result =>
      cases result with
      | error e => rfl
      | ok bytes =>
        cases bytes with
        | nil => rfl
        | cons b bs =>
          dsimp only
          rw [ih (n - (bs.length + 1)) (by omega) { s with reader }]
          dsimp only
          rcases pollReadExact reader (n - (bs.length + 1)) with ⟨answer, reader'⟩
          cases answer with
          | pending => rfl
          | ready result => cases result <;> rfl

theorem pollReadFrame_reader [AsyncRead R] (s : TcpStream R W) : pollReadFrame s =
    ((pollReadFrame s.reader).1, { s with reader := (pollReadFrame s.reader).2 }) := by
  unfold pollReadFrame
  rw [pollReadExact_reader s 1]
  rcases pollReadExact s.reader 1 with ⟨answer₁, reader₁⟩
  cases answer₁ with
  | pending => rfl
  | ready result₁ =>
  cases result₁ with
  | error e => rfl
  | ok tagByte =>
  dsimp only
  rw [pollReadExact_reader { s with reader := reader₁ } 4]
  dsimp only
  rcases pollReadExact reader₁ 4 with ⟨answer₂, reader₂⟩
  cases answer₂ with
  | pending => rfl
  | ready result₂ =>
  cases result₂ with
  | error e => rfl
  | ok lenBytes =>
  dsimp only
  rw [pollReadExact_reader { s with reader := reader₂ } (fromBeBytes lenBytes)]
  dsimp only
  rcases pollReadExact reader₂ (fromBeBytes lenBytes) with ⟨answer₃, reader₃⟩
  cases answer₃ with
  | pending => rfl
  | ready result₃ => cases result₃ <;> rfl

/-- **Reading** is done by one half, and leaves the other one alone. -/
theorem pollNext_halves [AsyncRead R] {result : Poll (Option (Outcome Command))}
    (h : a.pollNext = (result, b)) : (rdHalf a).pollNext = (result, rdHalf b) ∧ wtHalf b = wtHalf a := by
  unfold AsyncStreamAgent.pollNext at h ⊢
  have hstream : (rdHalf a).stream = a.stream.reader := rfl
  rw [pollReadFrame_reader] at h
  rw [hstream]
  revert h
  rcases pollReadFrame a.stream.reader with ⟨answer, reader⟩
  intro h
  cases answer with
  | pending =>
    obtain ⟨rfl, rfl⟩ := Prod.mk.inj h
    exact ⟨rfl, rfl⟩
  | ready result =>
    obtain ⟨rfl, rfl⟩ := Prod.mk.inj h
    exact ⟨rfl, rfl⟩

theorem flushLoop_halves [AsyncWrite W] {fuel : ℕ} {buf : List UInt8} {result : Poll (Outcome Unit)}
    (h : a.flushLoop fuel buf = some (result, b)) :
    (wtHalf a).flushLoop fuel buf = some (result, wtHalf b) ∧ rdHalf b = rdHalf a := by
  induction fuel generalizing a buf with
  | zero =>
    rw [AsyncStreamAgent.flushLoop.eq_def] at h ⊢
    split_ifs at h ⊢
    obtain ⟨rfl, rfl⟩ := Prod.mk.inj (Option.some.inj h)
    exact ⟨rfl, rfl⟩
  | succ fuel ih =>
    rw [AsyncStreamAgent.flushLoop.eq_def] at h ⊢
    split_ifs at h ⊢ with hbuf
    · obtain ⟨rfl, rfl⟩ := Prod.mk.inj (Option.some.inj h)
      exact ⟨rfl, rfl⟩
    have hwrite : AsyncWrite.pollWrite a.stream buf = ((AsyncWrite.pollWrite a.stream.writer buf).1,
        { a.stream with writer := (AsyncWrite.pollWrite a.stream.writer buf).2 }) := rfl
    have hstream : (wtHalf a).stream = a.stream.writer := rfl
    dsimp only at h ⊢
    rw [hwrite] at h
    rw [hstream]
    revert h
    rcases AsyncWrite.pollWrite a.stream.writer buf with ⟨answer, writer⟩
    intro h
    cases answer with
    | pending =>
      obtain ⟨rfl, rfl⟩ := Prod.mk.inj (Option.some.inj h)
      exact ⟨rfl, rfl⟩
    | ready written =>
      cases written with
      | error e =>
        obtain ⟨rfl, rfl⟩ := Prod.mk.inj (Option.some.inj h)
        exact ⟨rfl, rfl⟩
      | ok n =>
        dsimp only at h ⊢
        have hcursor : (wtHalf a).writer = a.writer := rfl
        rw [hcursor]
        split_ifs at h ⊢
        · exact ih h
        · obtain ⟨rfl, rfl⟩ := Prod.mk.inj (Option.some.inj h)
          exact ⟨rfl, rfl⟩

/-- **Flushing** is done by one half, and leaves the other one alone. -/
theorem pollFlush_halves [AsyncWrite W] {fuel : ℕ} {result : Poll (Outcome Unit)}
    (h : a.pollFlush fuel = some (result, b)) :
    (wtHalf a).pollFlush fuel = some (result, wtHalf b) ∧ rdHalf b = rdHalf a := by
  unfold AsyncStreamAgent.pollFlush at h ⊢
  have hwriter : (wtHalf a).writer = a.writer := rfl
  rw [hwriter]
  split_ifs at h ⊢
  · exact flushLoop_halves h
  · obtain ⟨rfl, rfl⟩ := Prod.mk.inj (Option.some.inj h)
    exact ⟨rfl, rfl⟩

/-- Encoding is done by the half that writes. -/
theorem startSend_halves (a : AsyncStreamAgent (TcpStream R W)) (item : Command) :
    wtHalf (a.startSend item).2 = ((wtHalf a).startSend item).2 ∧
      rdHalf (a.startSend item).2 = rdHalf a := by
  rw [AsyncStreamAgent.startSend_eq, AsyncStreamAgent.startSend_eq]
  exact ⟨rfl, rfl⟩

end Halves

/-! ## What the tasks push -/

/-- The results of the polls of a task. -/
def polledBy (id : TaskId) (tr : List (Event R W)) : List (Poll (Option (Outcome Command))) :=
  tr.filterMap fun
    | .polled id' result => if id' = id then some result else none
    | _ => none

/-- What a task has pushed. -/
def pushedBy (id : TaskId) (tr : List (Event R W)) : List ServerCmd :=
  tr.filterMap fun
    | .pushed (some (.task id')) (.other cmd) => if id' = id then some cmd else none
    | _ => none

namespace ReaderTask

/-- What a task is about to push. -/
def unsent (t : ReaderTask R W) : List ServerCmd :=
  match t.phase with
  | .sending cmd => [cmd]
  | _ => []

/-- What a task pushes behind that, when it is alone and polls its stream `m` more times. -/
def rest [AsyncRead R] (t : ReaderTask R W) (id : TaskId) (m : ℕ) : List ServerCmd :=
  match t.phase with
  | .polling | .sending _ => readerTask id m t.client.name (rdHalf t.client.stream)
  | .finished | .panicked => []

end ReaderTask

/-- A task serves its client: it has pushed what it pushes when it is alone. -/
def Serves [AsyncRead R] (id : TaskId) (tr : List (Event R W)) (t : ReaderTask R W) : Prop :=
  -- for all numbers of polls that are to come, so that one of them can be taken
  ∃ stream, .spawned id stream ∈ tr ∧ ∀ m, readerTask id ((polledBy id tr).length + m) ""
    (.new stream.reader) = pushedBy id tr ++ t.unsent ++ t.rest id m

/-- All tasks serve their clients, and what has not been spawned has done nothing. -/
structure Serving [AsyncRead R] (tr : List (Event R W)) (s : Broker R W) : Prop where
  task : ∀ (i : ℕ) (t : ReaderTask R W), s.tasks[i]? = some t → Serves ⟨i⟩ tr t
  fresh : ∀ i, s.tasks.length ≤ i → polledBy ⟨i⟩ tr = [] ∧ pushedBy ⟨i⟩ tr = []

section Serving

variable {s s' : Broker R W} {a : Action R W} {tr out : List (Event R W)} {id : TaskId}
  {t t' : ReaderTask R W}

theorem polledBy_append : polledBy id (tr ++ out) = polledBy id tr ++ polledBy id out :=
  List.filterMap_append ..

theorem pushedBy_append : pushedBy id (tr ++ out) = pushedBy id tr ++ pushedBy id out :=
  List.filterMap_append ..

/-- A step of others. -/
theorem Serves.append [AsyncRead R] (hserves : Serves id tr t) (hpolled : polledBy id out = [])
    (hpushed : pushedBy id out = []) (hphase : t'.phase = t.phase)
    (hname : t'.client.name = t.client.name)
    (hreader : rdHalf t'.client.stream = rdHalf t.client.stream) : Serves id (tr ++ out) t' := by
  obtain ⟨stream, hmem, hpushes⟩ := hserves
  refine ⟨stream, List.mem_append_left _ hmem, fun m => ?_⟩
  rw [polledBy_append, hpolled, pushedBy_append, hpushed, List.append_nil, List.append_nil,
    ReaderTask.unsent, ReaderTask.rest, hphase, hname, hreader]
  exact hpushes m

/-- A poll of the task. -/
theorem Serves.poll [AsyncRead R] {result : Poll (Option (Outcome Command))} (hserves : Serves id tr t)
    (hpoll : t.poll id = some (t', result)) : Serves id (tr ++ [.polled id result]) t' := by
  obtain ⟨stream, hmem, hpushes⟩ := hserves
  obtain ⟨hphase, next, hnext, hcases⟩ := poll_cases hpoll
  obtain ⟨hhalf, -⟩ := pollNext_halves hnext
  have hpolled : polledBy id (tr ++ [.polled id result]) = polledBy id tr ++ [result] := by
    rw [polledBy_append]
    exact congrArg (polledBy id tr ++ ·) (List.filterMap_cons_some (if_pos rfl))
  have hpushed : pushedBy id (tr ++ [.polled id result]) = pushedBy id tr := by
    rw [pushedBy_append]
    exact List.append_nil _
  refine ⟨stream, List.mem_append_left _ hmem, fun m => ?_⟩
  rw [hpolled, hpushed, List.length_append, List.length_singleton, Nat.add_assoc, Nat.add_comm 1 m,
    hpushes (m + 1)]
  have halone : t.rest id (m + 1) = t'.unsent ++ t'.rest id m := by
    unfold ReaderTask.rest ReaderTask.unsent
    rw [hphase]
    dsimp only
    rw [readerTask, hhalf]
    obtain ⟨rfl, rfl⟩ | ⟨rfl, rfl⟩ | ⟨cmd, rfl, rfl⟩ | ⟨kind, rfl, rfl⟩ | ⟨rfl, rfl⟩ := hcases
    · rfl
    · rfl
    · rfl
    · rfl
    · rfl
  have hunsent : t.unsent = [] := by
    rw [ReaderTask.unsent, hphase]
  rw [halone, hunsent, List.append_nil, List.append_assoc]

/-- A push of the task. -/
theorem Serves.send [AsyncRead R] {cmd : ServerCmd} (hserves : Serves id tr t)
    (hphase : t.phase = .sending cmd) :
    Serves id (tr ++ [.pushed (some (.task id)) (.other cmd)]) { t with phase := .polling } := by
  obtain ⟨stream, hmem, hpushes⟩ := hserves
  have hpolled : polledBy id (tr ++ [.pushed (some (.task id)) (.other cmd)]) = polledBy id tr := by
    rw [polledBy_append]
    exact List.append_nil _
  have hpushed : pushedBy id (tr ++ [.pushed (some (.task id)) (.other cmd)]) =
      pushedBy id tr ++ [cmd] := by
    rw [pushedBy_append]
    exact congrArg (pushedBy id tr ++ ·) (List.filterMap_cons_some (if_pos rfl))
  refine ⟨stream, List.mem_append_left _ hmem, fun m => ?_⟩
  have hsame := hpushes m
  simp only [ReaderTask.unsent, ReaderTask.rest, hphase] at hsame
  rw [hpolled, hpushed, hsame]
  simp only [ReaderTask.unsent, ReaderTask.rest, List.append_nil]

/-- A step in which no task takes part. -/
theorem Serving.append [AsyncRead R] (hserving : Serving tr s) (hlength : s'.tasks.length = s.tasks.length)
    (htasks : ∀ (i : ℕ) (t' : ReaderTask R W), s'.tasks[i]? = some t' →
      ∃ t : ReaderTask R W, s.tasks[i]? = some t ∧ t'.phase = t.phase ∧
        t'.client.name = t.client.name ∧ rdHalf t'.client.stream = rdHalf t.client.stream)
    (hquiet : ∀ id, polledBy id out = [] ∧ pushedBy id out = []) : Serving (tr ++ out) s' where
  task i t' ht' := by
    obtain ⟨t, ht, hphase, hname, hreader⟩ := htasks i t' ht'
    exact (hserving.task i t ht).append (hquiet _).1 (hquiet _).2 hphase hname hreader
  fresh i hi := by
    rw [polledBy_append, pushedBy_append, (hquiet _).1, (hquiet _).2, List.append_nil, List.append_nil]
    exact hserving.fresh i (hlength ▸ hi)

/-- A step of one task. -/
theorem Serving.set [AsyncRead R] {i : ℕ} (hserving : Serving tr s) (ht : s.tasks[i]? = some t)
    (hserves : Serves ⟨i⟩ (tr ++ out) t') (htasks : s'.tasks = s.tasks.set i t')
    (hquiet : ∀ id : TaskId, id ≠ ⟨i⟩ → polledBy id out = [] ∧ pushedBy id out = []) :
    Serving (tr ++ out) s' where
  task j t₀ ht₀ := by
    rw [htasks] at ht₀
    obtain ⟨rfl, rfl⟩ | ⟨hne, hold⟩ := exists_of_set ht ht₀
    · exact hserves
    · have hother := hquiet ⟨j⟩ fun h => hne (congrArg TaskId.id h)
      exact (hserving.task j t₀ hold).append hother.1 hother.2 rfl rfl rfl
  fresh j hj := by
    rw [htasks, List.length_set] at hj
    have hlt := (List.getElem?_eq_some_iff.mp ht).1
    have hother := hquiet ⟨j⟩ fun h => absurd (congrArg TaskId.id h) (Nat.ne_of_gt (hlt.trans_le hj))
    rw [polledBy_append, pushedBy_append, hother.1, hother.2, List.append_nil, List.append_nil]
    exact hserving.fresh j hj

/-- A task is spawned, and has not done anything. -/
theorem Serving.spawn [AsyncRead R] {stream : TcpStream R W} (hserving : Serving tr s)
    (htasks : s'.tasks = s.tasks ++ [{ client := .new (.new stream) }])
    (hspawned : .spawned ⟨s.tasks.length⟩ stream ∈ out)
    (hquiet : ∀ id, polledBy id out = [] ∧ pushedBy id out = []) : Serving (tr ++ out) s' where
  task i t ht := by
    rw [htasks] at ht
    rcases eq_of_getElem?_concat ht with hold | ⟨rfl, rfl⟩
    · exact (hserving.task i t hold).append (hquiet _).1 (hquiet _).2 rfl rfl rfl
    · obtain ⟨hpolled, hpushed⟩ := hserving.fresh _ le_rfl
      refine ⟨stream, List.mem_append_right _ hspawned, fun m => ?_⟩
      rw [polledBy_append, pushedBy_append, (hquiet _).1, (hquiet _).2, hpolled, hpushed]
      exact congrArg (readerTask _ · _ _) (Nat.zero_add m)
  fresh i hi := by
    rw [htasks, List.length_append, List.length_singleton] at hi
    rw [polledBy_append, pushedBy_append, (hquiet _).1, (hquiet _).2, List.append_nil, List.append_nil]
    exact hserving.fresh i (Nat.le_of_succ_le hi)

/-- A step that writes to one client. -/
theorem Serving.setStream [AsyncRead R] {stream : AsyncStreamAgent (TcpStream R W)}
    (hserving : Serving tr s) (ht : s.tasks[id.id]? = some t)
    (hreader : rdHalf stream = rdHalf t.client.stream) (htasks : s'.tasks = (s.setStream id stream).tasks)
    (hquiet : ∀ id, polledBy id out = [] ∧ pushedBy id out = []) : Serving (tr ++ out) s' := by
  have hlength : s'.tasks.length = s.tasks.length := by
    rw [htasks, Broker.setStream, List.length_modify]
  refine hserving.append hlength (fun i t' ht' => ?_) hquiet
  rw [htasks] at ht'
  obtain ⟨t₀, ht₀, hphase, hname, hsame | ⟨rfl, hstream⟩⟩ := exists_of_setStream ht'
  · exact ⟨t₀, ht₀, hphase, hname, congrArg rdHalf hsame⟩
  · obtain rfl := Option.some.inj (ht.symm.trans ht₀)
    exact ⟨t, ht₀, hphase, hname, by rw [hstream, hreader]⟩

/-- **Each step is served.** -/
theorem Serving.step [AsyncRead R] [AsyncWrite W] (hserving : Serving tr s) (hstep : Stepped s a out s') :
    Serving (tr ++ out) s' := by
  have hself : ∀ (i : ℕ) (t : ReaderTask R W), s.tasks[i]? = some t →
      ∃ t₀ : ReaderTask R W, s.tasks[i]? = some t₀ ∧ t.phase = t₀.phase ∧
        t.client.name = t₀.client.name ∧ rdHalf t.client.stream = rdHalf t₀.client.stream :=
    fun i t ht => ⟨t, ht, rfl, rfl, rfl⟩
  cases hstep with
  | accept stream => exact hserving.append rfl hself fun _ => ⟨rfl, rfl⟩
  | @poll id t t' result ht hpoll =>
    refine hserving.set ht ((hserving.task _ t ht).poll hpoll) rfl fun id' hne => ⟨?_, rfl⟩
    exact List.filterMap_cons_none (if_neg (Ne.symm hne))
  | @send id t cmd ht hphase =>
    refine hserving.set ht ((hserving.task _ t ht).send hphase) rfl fun id' hne => ⟨rfl, ?_⟩
    exact List.filterMap_cons_none (if_neg (Ne.symm hne))
  -- the broker touches the tasks with its sinks only
  | announcement _ _ _ | broadcast _ _ _ | disconnect _ _ _ | gone _ _ _ =>
    exact hserving.append rfl hself fun _ => ⟨rfl, rfl⟩
  | insert _ | announce _ => exact hserving.append rfl hself fun _ => ⟨rfl, rfl⟩
  | encode _ ht => exact hserving.setStream ht (startSend_halves _ _).2 rfl fun _ => ⟨rfl, rfl⟩
  | pending _ ht hflush | told _ ht hflush | failed _ ht hflush | panicked _ ht hflush =>
    exact hserving.setStream ht (pollFlush_halves hflush).2 rfl fun _ => ⟨rfl, rfl⟩
  | connect _ _ => exact hserving.spawn rfl (by simp) fun _ => ⟨rfl, rfl⟩

/-- **Each task serves its client**, in every run: it has pushed, or is about to push, the server commands
that it pushes when it is alone with the stream of its client and polls it as many times. -/
theorem task_serves [AsyncRead R] [AsyncWrite W] (h : broker.Run Machine.unguarded tr s) {i : ℕ}
    (ht : s.tasks[i]? = some t) : ∃ stream, .spawned ⟨i⟩ stream ∈ tr ∧
      pushedBy ⟨i⟩ tr ++ t.unsent = readerTask ⟨i⟩ (polledBy ⟨i⟩ tr).length "" (.new stream.reader) := by
  have hserving : Serving tr s := by
    refine h.invariant (P := fun tr s => Serving tr s) ?_ ?_
    · exact {
        task := fun i t ht => by cases ht
        fresh := fun i _ => ⟨rfl, rfl⟩ }
    · intro tr s a s' out hserving _ hstep
      exact hserving.step (stepped_of_step hstep)
  obtain ⟨stream, hmem, hpushes⟩ := hserving.task i t ht
  refine ⟨stream, hmem, ?_⟩
  have hnow := hpushes 0
  have hrest : t.rest ⟨i⟩ 0 = [] := by
    unfold ReaderTask.rest
    split <;> rfl
  rw [hrest, List.append_nil] at hnow
  exact hnow.symm

end Serving

/-! ## What the sockets take -/

/-- The messages that the broker has encoded for a client. -/
def encodedFor (id : TaskId) (tr : List (Event R W)) : List String :=
  tr.filterMap fun
    | .encoded id' msg => if id' = id then some msg else none
    | _ => none

/-- The messages that are to be flushed for a client. -/
def flushing (id : TaskId) (todo : List Job) : List String :=
  todo.filterMap fun
    | .flush id' msg => if id' = id then some msg else none
    | _ => none

/-- The messages that are to be encoded for a client. -/
def unencoded (id : TaskId) (todo : List Job) : List String :=
  todo.filterMap fun
    | .sendMsg id' msg => if id' = id then some msg else none
    | _ => none

/-- The flush of the broker, if it is one, finds answers that `poll_flush` copes with. -/
def FlushFits (s : Broker R Outlet) : Action R Outlet → Prop
  | .work _ => ∀ id msg todo t, s.todo = .flush id msg :: todo → s.tasks[id.id]? = some t →
      PollFits (wtHalf t.client.stream)
  | _ => True

/-- A socket is wired: what it has taken since its task was spawned, and what is pending for it, are the
frames of the messages that have been encoded for it. -/
structure Wired (id : TaskId) (tr : List (Event R Outlet)) (t : ReaderTask R Outlet) : Prop where
  placed : (wtHalf t.client.stream).writer.WellPlaced
  bytes : ∃ stream, .spawned id stream ∈ tr ∧
    (wtHalf t.client.stream).stream.accepted ++ (wtHalf t.client.stream).pending =
      stream.writer.accepted ++ frames ((encodedFor id tr).map .message)

/-- All sockets are wired, what has been encoded has been told or is being flushed, and the broker has not
panicked. A flush comes before everything else. -/
structure Wiring (tr : List (Event R Outlet)) (s : Broker R Outlet) : Prop where
  task : ∀ (i : ℕ) (t : ReaderTask R Outlet), s.tasks[i]? = some t → Wired ⟨i⟩ tr t
  fresh : ∀ i, s.tasks.length ≤ i → encodedFor ⟨i⟩ tr = []
  encoded : ∀ id, encodedFor id tr = toldTo id tr ++ flushing id s.todo
  first : ∀ id msg, .flush id msg ∉ s.todo.tail
  running : s.panicked = false

section Wiring

variable {s s' : Broker R Outlet} {a : Action R Outlet} {tr out : List (Event R Outlet)} {id : TaskId}
  {t t' : ReaderTask R Outlet}

theorem encodedFor_append : encodedFor id (tr ++ out) = encodedFor id tr ++ encodedFor id out :=
  List.filterMap_append ..

theorem toldTo_append : toldTo id (tr ++ out) = toldTo id tr ++ toldTo id out := by
  rw [toldTo, List.filterMap_append]
  exact Broadcast.told_append ..

theorem encodedFor_encoded (id' : TaskId) (msg : String) :
    encodedFor id' [(.encoded id msg : Event R Outlet)] = if id = id' then [msg] else [] := by
  by_cases heq : id = id'
  · rw [if_pos heq]
    exact List.filterMap_cons_some (if_pos heq)
  · rw [if_neg heq]
    exact List.filterMap_cons_none (if_neg heq)

theorem toldTo_told (id' : TaskId) (msg : String) (result : Outcome Unit)
    (more : List (Event R Outlet)) (hmore : toldTo id' more = []) :
    toldTo id' (.told id msg result :: more) = if id = id' then [msg] else [] :=
  Broadcast.told_singleton id msg _ _ hmore

theorem flushing_flush (id id' : TaskId) (msg : String) (todo : List Job) :
    flushing id' (.flush id msg :: todo) = (if id = id' then [msg] else []) ++ flushing id' todo := by
  unfold flushing
  split_ifs with heq
  · simp [heq]
  · simp [heq]

/-- A step without a message for the client. -/
theorem Wired.append (hwired : Wired id tr t) (hencoded : encodedFor id out = [])
    (hwriter : wtHalf t'.client.stream = wtHalf t.client.stream) : Wired id (tr ++ out) t' where
  placed := hwriter ▸ hwired.placed
  bytes := by
    obtain ⟨stream, hmem, hbytes⟩ := hwired.bytes
    refine ⟨stream, List.mem_append_left _ hmem, ?_⟩
    rw [encodedFor_append, hencoded, List.append_nil, hwriter]
    exact hbytes

/-- A message is encoded. -/
theorem Wired.encode {msg : String} (hwired : Wired id tr t)
    (hwriter : wtHalf t'.client.stream = ((wtHalf t.client.stream).startSend (.message msg)).2) :
    Wired id (tr ++ [.encoded id msg]) t' := by
  obtain ⟨stream, hmem, hbytes⟩ := hwired.bytes
  have hplaced := hwired.placed
  rw [AsyncStreamAgent.startSend_eq] at hwriter
  have hcur : (wtHalf t.client.stream).writer.cursor ≤ (wtHalf t.client.stream).writer.buf.length := by
    rcases hplaced with hcur | hempty
    · exact hcur.le
    · simp [hempty]
  have hencoded : encodedFor id (tr ++ [.encoded id msg]) = encodedFor id tr ++ [msg] := by
    rw [encodedFor_append, encodedFor_encoded, if_pos rfl]
  refine { placed := ?_, bytes := ⟨stream, List.mem_append_left _ hmem, ?_⟩ }
  · rw [hwriter]
    refine .inl ?_
    have hpos := List.length_pos_of_ne_nil (Command.message msg).frame_ne_nil
    simp only [List.length_append]
    omega
  · rw [hencoded, List.map_append, frames_append, ← List.append_assoc, ← hbytes, hwriter]
    simp only [AsyncStreamAgent.pending]
    rw [List.drop_append_of_le_length hcur, List.append_assoc]
    simp

/-- A poll of a flush keeps the bytes. -/
theorem Wired.keeps {fuel : ℕ} {result : Poll (Outcome Unit)}
    {stream : AsyncStreamAgent (TcpStream R Outlet)} (hwired : Wired id tr t)
    (hfits : PollFits (wtHalf t.client.stream))
    (hflush : t.client.stream.pollFlush fuel = some (result, stream)) :
    AsyncStreamAgent.Keeps (wtHalf t.client.stream) (result, wtHalf stream) := by
  obtain ⟨hhalf, -⟩ := pollFlush_halves hflush
  obtain ⟨fuel', r, hr, hkeeps⟩ := AsyncStreamAgent.pollFlush_of_fits hwired.placed hfits
  exact AsyncStreamAgent.pollFlush_unique hhalf hr ▸ hkeeps

/-- A message is flushed, by one poll or by the last one. -/
theorem Wired.flush {fuel : ℕ} {result : Poll (Outcome Unit)}
    {stream : AsyncStreamAgent (TcpStream R Outlet)} (hwired : Wired id tr t)
    (hfits : PollFits (wtHalf t.client.stream))
    (hflush : t.client.stream.pollFlush fuel = some (result, stream)) (hencoded : encodedFor id out = [])
    (hstream : t'.client.stream = stream) : Wired id (tr ++ out) t' := by
  have hkeeps := hwired.keeps hfits hflush
  obtain ⟨start, hmem, hbytes⟩ := hwired.bytes
  refine { placed := ?_, bytes := ⟨start, List.mem_append_left _ hmem, ?_⟩ }
  · rw [hstream]
    exact hkeeps.placed
  · rw [encodedFor_append, hencoded, List.append_nil, ← hbytes, hstream]
    exact hkeeps.bytes

/-- A step in which no message is encoded or flushed. -/
theorem Wiring.append (hwiring : Wiring tr s) (hlength : s'.tasks.length = s.tasks.length)
    (htasks : ∀ (i : ℕ) (t' : ReaderTask R Outlet), s'.tasks[i]? = some t' →
      ∃ t : ReaderTask R Outlet, s.tasks[i]? = some t ∧ wtHalf t'.client.stream = wtHalf t.client.stream)
    (hencoded : ∀ id, encodedFor id out = [] ∧ toldTo id out = []) (hrunning : s'.panicked = s.panicked)
    (hflushing : ∀ id, flushing id s'.todo = flushing id s.todo)
    (hfirst : ∀ id msg, .flush id msg ∉ s'.todo.tail) : Wiring (tr ++ out) s' where
  task i t' ht' := by
    obtain ⟨t, ht, hwriter⟩ := htasks i t' ht'
    exact (hwiring.task i t ht).append (hencoded _).1 hwriter
  fresh i hi := by
    rw [encodedFor_append, (hencoded _).1, List.append_nil]
    exact hwiring.fresh i (hlength ▸ hi)
  encoded id := by
    rw [encodedFor_append, toldTo_append, (hencoded id).1, (hencoded id).2, List.append_nil,
      List.append_nil, hflushing id]
    exact hwiring.encoded id
  first := hfirst
  running := hrunning.trans hwiring.running

/-- Nothing is to be flushed between two server commands, or at the start of one. -/
theorem flushing_eq_nil {todo : List Job} (h : ∀ id msg, .flush id msg ∉ todo) (id : TaskId) :
    flushing id todo = [] := by
  refine List.filterMap_eq_nil_iff.mpr fun job hmem => ?_
  cases job with
  | flush id' msg => exact absurd hmem (h id' msg)
  | _ => rfl

theorem flush_notMem_map (order : List TaskId) (msg : String) :
    ∀ id msg', Job.flush id msg' ∉ order.map (Job.sendMsg · msg) := by
  intro id msg' hmem
  obtain ⟨_, -, heq⟩ := List.mem_map.mp hmem
  cases heq

/-- Behind the first job there is nothing to flush. -/
theorem Wiring.flush_notMem (hwiring : Wiring tr s) {job : Job} {todo : List Job}
    (htodo : s.todo = job :: todo) : ∀ id msg, .flush id msg ∉ todo := by
  have hfirst := hwiring.first
  rw [htodo] at hfirst
  exact hfirst

/-- A server command is taken, and leaves nothing to flush. -/
theorem Wiring.taken (hwiring : Wiring tr s) (htodo : s.todo = []) (htasks : s'.tasks = s.tasks)
    (hencoded : ∀ id, encodedFor id out = [] ∧ toldTo id out = []) (hrunning : s'.panicked = s.panicked)
    (hnone : ∀ id msg, .flush id msg ∉ s'.todo) : Wiring (tr ++ out) s' := by
  refine hwiring.append (congrArg List.length htasks) (fun i t ht => ⟨t, htasks ▸ ht, rfl⟩) hencoded
    hrunning (fun id => ?_) fun id msg hmem => hnone id msg (List.mem_of_mem_tail hmem)
  rw [flushing_eq_nil hnone, htodo]
  rfl

/-- A job that is no flush is done. -/
theorem Wiring.done (hwiring : Wiring tr s) {job : Job} {todo : List Job} (htodo : s.todo = job :: todo)
    (hjob : ∀ id msg, job ≠ .flush id msg) (htasks : s'.tasks = s.tasks) (hrest : s'.todo = todo)
    (hencoded : ∀ id, encodedFor id out = [] ∧ toldTo id out = []) (hrunning : s'.panicked = s.panicked) :
    Wiring (tr ++ out) s' := by
  have hnone := hwiring.flush_notMem htodo
  refine hwiring.append (congrArg List.length htasks) (fun i t ht => ⟨t, htasks ▸ ht, rfl⟩) hencoded
    hrunning (fun id => ?_) fun id msg hmem => hnone id msg (hrest ▸ List.mem_of_mem_tail hmem)
  have hall : ∀ id msg, .flush id msg ∉ s.todo := by
    intro id msg hmem
    rw [htodo] at hmem
    rcases List.mem_cons.mp hmem with heq | hmem
    · exact hjob id msg heq.symm
    · exact hnone id msg hmem
  rw [hrest, flushing_eq_nil hnone, flushing_eq_nil hall]

/-- A step of one task. A task does not write. -/
theorem Wiring.set (hwiring : Wiring tr s) {i : ℕ} (ht : s.tasks[i]? = some t)
    (htasks : s'.tasks = s.tasks.set i t') (hwriter : wtHalf t'.client.stream = wtHalf t.client.stream)
    (hencoded : ∀ id, encodedFor id out = [] ∧ toldTo id out = []) (hrunning : s'.panicked = s.panicked)
    (htodo : s'.todo = s.todo) : Wiring (tr ++ out) s' := by
  have hlength : s'.tasks.length = s.tasks.length := by
    rw [htasks, List.length_set]
  refine hwiring.append hlength (fun j t₁ ht₁ => ?_) hencoded hrunning
    (fun id => congrArg (flushing id) htodo) (htodo ▸ hwiring.first)
  rw [htasks] at ht₁
  obtain ⟨rfl, rfl⟩ | ⟨-, hold⟩ := exists_of_set ht ht₁
  · exact ⟨t, ht, hwriter⟩
  · exact ⟨t₁, hold, rfl⟩

/-- A task is spawned. -/
theorem Wiring.spawn (hwiring : Wiring tr s) {stream : TcpStream R Outlet} (htodo : s.todo = [])
    (htasks : s'.tasks = s.tasks ++ [{ client := .new (.new stream) }])
    (hspawned : .spawned ⟨s.tasks.length⟩ stream ∈ out)
    (hencoded : ∀ id, encodedFor id out = [] ∧ toldTo id out = []) (hrunning : s'.panicked = s.panicked)
    (hnone : ∀ id msg, .flush id msg ∉ s'.todo) : Wiring (tr ++ out) s' where
  task i t ht := by
    rw [htasks] at ht
    rcases eq_of_getElem?_concat ht with hold | ⟨rfl, rfl⟩
    · exact (hwiring.task i t hold).append (hencoded _).1 rfl
    · refine { placed := .inr rfl, bytes := ⟨stream, List.mem_append_right _ hspawned, ?_⟩ }
      rw [encodedFor_append, (hencoded _).1, hwiring.fresh _ le_rfl]
      rfl
  fresh i hi := by
    rw [htasks, List.length_append, List.length_singleton] at hi
    rw [encodedFor_append, (hencoded _).1, List.append_nil]
    exact hwiring.fresh i (Nat.le_of_succ_le hi)
  encoded id := by
    have hold := hwiring.encoded id
    rw [htodo] at hold
    rw [encodedFor_append, toldTo_append, (hencoded id).1, (hencoded id).2, List.append_nil,
      List.append_nil, flushing_eq_nil hnone]
    exact hold
  first id msg hmem := hnone id msg (List.mem_of_mem_tail hmem)
  running := hrunning.trans hwiring.running

/-- A message is encoded for one client, and is to be flushed. -/
theorem Wiring.encode (hwiring : Wiring tr s) {msg : String} {todo : List Job}
    (htodo : s.todo = .sendMsg id msg :: todo) (ht : s.tasks[id.id]? = some t)
    (htasks : s'.tasks = (s.setStream id (t.client.stream.startSend (.message msg)).2).tasks)
    (hrest : s'.todo = .flush id msg :: todo) (hrunning : s'.panicked = s.panicked) :
    Wiring (tr ++ [.encoded id msg]) s' where
  task i t' ht' := by
    rw [htasks] at ht'
    obtain ⟨t₀, ht₀, -, -, hstream⟩ := exists_of_setStream ht'
    by_cases heq : (⟨i⟩ : TaskId) = id
    · subst heq
      obtain rfl := Option.some.inj (ht.symm.trans ht₀)
      rw [Broker.setStream, List.getElem?_modify_eq, ht] at ht'
      obtain rfl := Option.some.inj ht'
      exact (hwiring.task i t ht).encode (startSend_halves _ _).1
    · refine (hwiring.task i t₀ ht₀).append ?_ ?_
      · rw [encodedFor_encoded, if_neg (Ne.symm heq)]
      · exact congrArg wtHalf (hstream.resolve_right fun h => heq h.1)
  fresh i hi := by
    have hlt := (List.getElem?_eq_some_iff.mp ht).1
    rw [htasks, Broker.setStream, List.length_modify] at hi
    have hne : id ≠ ⟨i⟩ := by
      rintro rfl
      exact absurd hlt (Nat.not_lt.mpr hi)
    rw [encodedFor_append, encodedFor_encoded, if_neg hne, List.append_nil]
    exact hwiring.fresh i hi
  encoded id' := by
    have hnone := flushing_eq_nil (hwiring.flush_notMem htodo) id'
    have hold := hwiring.encoded id'
    rw [htodo] at hold
    have hsend : flushing id' (.sendMsg id msg :: todo) = [] := hnone
    rw [encodedFor_append, encodedFor_encoded, hold, hsend, List.append_nil, toldTo_append, hrest,
      flushing_flush, hnone, List.append_nil]
    exact congrArg (· ++ _) (List.append_nil _).symm
  first id' msg' hmem := hwiring.flush_notMem htodo id' msg' (by simpa [hrest] using hmem)
  running := hrunning.trans hwiring.running

/-- The sockets after a poll of a flush. -/
theorem Wiring.flush (hwiring : Wiring tr s) (out : List (Event R Outlet)) {fuel : ℕ}
    {result : Poll (Outcome Unit)} {stream : AsyncStreamAgent (TcpStream R Outlet)}
    (ht : s.tasks[id.id]? = some t) (hfits : PollFits (wtHalf t.client.stream))
    (hflush : t.client.stream.pollFlush fuel = some (result, stream))
    (hencoded : ∀ id, encodedFor id out = []) :
    ∀ (i : ℕ) (t' : ReaderTask R Outlet), (s.setStream id stream).tasks[i]? = some t' →
      Wired ⟨i⟩ (tr ++ out) t' := by
  intro i t' ht'
  obtain ⟨t₀, ht₀, -, -, hsame | ⟨rfl, hstream⟩⟩ := exists_of_setStream ht'
  · exact (hwiring.task i t₀ ht₀).append (hencoded _) (congrArg wtHalf hsame)
  · exact (hwiring.task i t ht).flush hfits hflush (hencoded _) hstream

/-- A message has been flushed. -/
theorem Wiring.told (hwiring : Wiring tr s) {msg : String} {todo : List Job}
    {stream : AsyncStreamAgent (TcpStream R Outlet)} (htodo : s.todo = .flush id msg :: todo)
    (htasks : ∀ (i : ℕ) (t' : ReaderTask R Outlet), (s.setStream id stream).tasks[i]? = some t' →
      Wired ⟨i⟩ (tr ++ out) t')
    (hsame : s'.tasks = (s.setStream id stream).tasks) (hrest : s'.todo = todo)
    (hencoded : ∀ id, encodedFor id out = [])
    (htold : ∀ id', toldTo id' out = if id = id' then [msg] else []) (hrunning : s'.panicked = s.panicked) :
    Wiring (tr ++ out) s' where
  task i t' ht' := htasks i t' (hsame ▸ ht')
  fresh i hi := by
    rw [hsame, Broker.setStream, List.length_modify] at hi
    rw [encodedFor_append, hencoded, List.append_nil]
    exact hwiring.fresh i hi
  encoded id' := by
    have hold := hwiring.encoded id'
    rw [htodo] at hold
    rw [encodedFor_append, hencoded, List.append_nil, toldTo_append, htold, hrest, hold, flushing_flush,
      List.append_assoc]
  first id' msg' hmem := hwiring.flush_notMem htodo id' msg' (hrest ▸ List.mem_of_mem_tail hmem)
  running := hrunning.trans hwiring.running

/-- **Each step keeps the sockets wired.** -/
theorem Wiring.step [AsyncRead R] (hwiring : Wiring tr s) (hok : FlushFits s a)
    (hstep : Stepped s a out s') : Wiring (tr ++ out) s' := by
  cases hstep with
  | accept stream =>
    exact hwiring.append rfl (fun i t ht => ⟨t, ht, rfl⟩) (fun _ => ⟨rfl, rfl⟩) rfl (fun _ => rfl)
      hwiring.first
  | @poll id t t' result ht hpoll =>
    refine hwiring.set ht rfl ?_ (fun _ => ⟨rfl, rfl⟩) rfl rfl
    obtain ⟨-, stream, hnext, hcases⟩ := poll_cases hpoll
    rw [← (pollNext_halves hnext).2]
    obtain ⟨-, rfl⟩ | ⟨-, rfl⟩ | ⟨_, -, rfl⟩ | ⟨_, -, rfl⟩ | ⟨-, rfl⟩ := hcases <;> rfl
  | send ht _ => exact hwiring.set ht rfl rfl (fun _ => ⟨rfl, rfl⟩) rfl rfl
  | announcement htodo _ _ =>
    exact hwiring.taken htodo rfl (fun _ => ⟨rfl, rfl⟩) rfl (flush_notMem_map _ _)
  | broadcast htodo _ _ =>
    exact hwiring.taken htodo rfl (fun _ => ⟨rfl, rfl⟩) rfl (flush_notMem_map _ _)
  | disconnect htodo _ _ =>
    exact hwiring.taken htodo rfl (fun _ => ⟨rfl, rfl⟩) rfl (by simp)
  | gone htodo _ _ =>
    exact hwiring.taken htodo rfl (fun _ => ⟨rfl, rfl⟩) rfl (by simp [htodo])
  | insert htodo => exact hwiring.done htodo (by simp) rfl rfl (fun _ => ⟨rfl, rfl⟩) rfl
  | announce htodo => exact hwiring.done htodo (by simp) rfl rfl (fun _ => ⟨rfl, rfl⟩) rfl
  | connect htodo _ =>
    exact hwiring.spawn htodo rfl (by simp) (fun _ => ⟨rfl, rfl⟩) rfl (by simp)
  | encode htodo ht => exact hwiring.encode htodo ht rfl rfl rfl
  | @pending id msg todo fuel t stream htodo ht hflush =>
    have hfits := hok id msg todo t htodo ht
    rw [List.append_nil]
    have htasks := hwiring.flush [] ht hfits hflush fun _ => rfl
    exact {
      task := fun i t' ht' => List.append_nil tr ▸ htasks i t' ht'
      fresh := fun i hi => by
        rw [Broker.setStream, List.length_modify] at hi
        exact hwiring.fresh i hi
      encoded := hwiring.encoded
      first := hwiring.first
      running := hwiring.running }
  | @told id msg todo fuel t stream htodo ht hflush =>
    have htasks := hwiring.flush [.told id msg (.ok ())] ht (hok id msg todo t htodo ht) hflush
      fun _ => rfl
    refine hwiring.told htodo htasks rfl rfl (fun _ => rfl) (fun id' => ?_) rfl
    exact toldTo_told id' _ _ _ rfl
  | @failed id msg todo fuel t stream kind htodo ht hflush =>
    have htasks := hwiring.flush [.told id msg (err kind), .pushed none (.other (.disconnect id))] ht
      (hok id msg todo t htodo ht) hflush fun _ => rfl
    refine hwiring.told htodo htasks rfl rfl (fun _ => rfl) (fun id' => ?_) rfl
    exact toldTo_told id' _ _ _ rfl
  | @panicked id msg todo fuel t stream htodo ht hflush =>
    have hfits := hok id msg todo t htodo ht
    exact absurd rfl ((hwiring.task _ t ht).keeps hfits hflush).returns

/-- What the broker is still to tell a client is being flushed, or still to be encoded. -/
theorem Wiring.untold_eq (hwiring : Wiring tr s) (id : TaskId) :
    s.untold id = flushing id s.todo ++ unencoded id s.todo := by
  -- only the first job can be a flush
  have hrest : ∀ todo : List Job, (∀ id msg, .flush id msg ∉ todo) →
      ({ s with todo } : Broker R Outlet).untold id = unencoded id todo := by
    intro todo hnone
    refine List.filterMap_congr fun job hmem => ?_
    cases job with
    | flush id' msg => exact absurd hmem (hnone id' msg)
    | _ => rfl
  cases htodo : s.todo with
  | nil =>
    unfold Broker.untold
    rw [htodo]
    rfl
  | cons job todo =>
    have hnone := hwiring.flush_notMem htodo
    cases job with
    | flush id' msg =>
      have hsame := hrest todo hnone
      have hsend : unencoded id (.flush id' msg :: todo) = unencoded id todo := rfl
      rw [flushing_flush, flushing_eq_nil hnone, hsend, List.append_nil, ← hsame]
      unfold Broker.untold
      rw [htodo]
      split_ifs with heq
      · simp [heq]
      · simp [heq]
    | _ =>
      have hall := hrest s.todo (by
        rw [htodo]
        exact fun id' msg hmem => hnone id' msg ((List.mem_cons.mp hmem).resolve_left (by simp)))
      rw [htodo] at hall
      unfold Broker.untold at hall ⊢
      rw [htodo]
      exact hall.trans (congrArg (· ++ _) (flushing_eq_nil hnone id).symm)

/-- **Each client receives what it has to hear**, in every run whose flushes find answers that they cope
with: the bytes that its socket has taken since its task was spawned, those that are pending, and the frames
of the messages that are still to be encoded are the frames of the messages that it has to hear, in order
and each once. The broker does not panic. -/
theorem client_receives [AsyncRead R] (h : broker.Run FlushFits tr s) : s.panicked = false ∧
    ∀ (i : ℕ) (t : ReaderTask R Outlet), s.tasks[i]? = some t → ∃ stream, .spawned ⟨i⟩ stream ∈ tr ∧
      (wtHalf t.client.stream).stream.accepted ++ (wtHalf t.client.stream).pending ++
        frames ((unencoded ⟨i⟩ s.todo).map .message) =
      stream.writer.accepted ++
        frames ((Broadcast.listener ⟨i⟩ (tr.filterMap Event.hub?)).heard.map .message) := by
  have hwiring : Wiring tr s := by
    refine h.invariant (P := fun tr s => Wiring tr s) ?_ ?_
    · exact {
        task := fun i t ht => by cases ht
        fresh := fun i _ => rfl
        encoded := fun id => rfl
        first := fun id msg => List.not_mem_nil
        running := rfl }
    · intro tr s a s' out hwiring hok hstep
      exact hwiring.step hok (stepped_of_step hstep)
  refine ⟨hwiring.running, fun i t ht => ?_⟩
  obtain ⟨stream, hmem, hbytes⟩ := (hwiring.task i t ht).bytes
  refine ⟨stream, hmem, ?_⟩
  rw [hbytes, ← toldTo_untold h, hwiring.untold_eq, ← List.append_assoc, ← hwiring.encoded, List.map_append,
    frames_append, List.append_assoc]

/-- The socket takes at once what is flushed to it, or is not ready, or fails. -/
def takesAll (s : Broker R Outlet) : Action R Outlet → Bool
  | .work _ =>
    match s.todo.head? with
    | some (.flush id _) =>
      s.tasks[id.id]?.all fun t =>
        (wtHalf t.client.stream).writer.cursor == 0 &&
          match (wtHalf t.client.stream).stream.answers.head with
          | .ready k => decide ((wtHalf t.client.stream).pending.length ≤ k)
          | _ => true
    | _ => true
  | _ => true

theorem flushFits_of_takesAll (h : takesAll s a = true) : FlushFits s a := by
  cases a with
  | work fuel =>
    intro id msg todo t htodo ht
    rw [takesAll, htodo, List.head?_cons] at h
    dsimp only at h
    rw [ht, Option.all_some, Bool.and_eq_true, beq_iff_eq] at h
    obtain ⟨hcursor, hhead⟩ := h
    refine .inr ?_
    cases hanswer : (wtHalf t.client.stream).stream.answers.head with
    | ready k =>
      rw [hanswer] at hhead
      rw [hcursor]
      exact .takesAll hanswer (of_decide_eq_true hhead)
    | pending => exact .stops (by simp [hanswer])
    | failed kind => exact .stops (by simp [hanswer])
  | _ => trivial

end Wiring

/-! ## Two clients -/

/-- A client gives its name in two pieces and closes its connection, and both clients are told the name. -/
theorem exists_served : ∃ tr s, (broker (R := Source) (W := Outlet)).Run FlushFits tr s ∧
    pushedBy ⟨0⟩ tr = [.announcement "----- Welcome, A -----", .disconnect ⟨0⟩] ∧
    s.tasks.map (fun t => (t.phase, (wtHalf t.client.stream).stream.accepted)) =
      [(.sending (.disconnect ⟨0⟩), (Command.message "----- Welcome, A -----").frame),
        (.polling, (Command.message "----- Welcome, A -----").frame)] := by
  have hexec : (((broker (R := Source) (W := Outlet)).guard fun s a => takesAll s a = true).exec [
      .accept ⟨⟨[.piece 0 [0, 0], .piece 0 [1, 65]], none⟩,
        ⟨.const (.ready 100), .const (.ready (.ok ())), []⟩⟩,
      .accept ⟨⟨[], none⟩, ⟨.const (.ready 100), .const (.ready (.ok ())), []⟩⟩,
      .receive [], .poll ⟨0⟩, .send ⟨0⟩, .work 0, .receive [], .work 0, .receive [⟨1⟩, ⟨0⟩], .work 0,
      .poll ⟨0⟩, .work 1, .work 0, .send ⟨0⟩, .work 1, .poll ⟨0⟩]).map (fun r =>
        (decide (pushedBy ⟨0⟩ r.2 = [.announcement "----- Welcome, A -----", .disconnect ⟨0⟩]),
          decide (r.1.tasks.map (fun t => (t.phase, (wtHalf t.client.stream).stream.accepted)) =
            [(.sending (.disconnect ⟨0⟩), (Command.message "----- Welcome, A -----").frame),
              (.polling, (Command.message "----- Welcome, A -----").frame)]))) = some (true, true) := by
    decide +kernel
  obtain ⟨⟨s, tr⟩, hexec, hend⟩ := Option.map_eq_some_iff.mp hexec
  have hrun := Machine.Run.of_guard (Machine.run_exec hexec)
  simp only [Prod.mk.injEq, decide_eq_true_eq] at hend
  exact ⟨tr, s, hrun.mono fun s a => flushFits_of_takesAll, hend⟩

/-- The task of the client that has left has pushed a `Disconnect`, and is about to push another one. -/
theorem task_serves_two : ∃ tr s t, (broker (R := Source) (W := Outlet)).Run Machine.unguarded tr s ∧
    s.tasks[0]? = some t ∧ t.phase = .sending (.disconnect ⟨0⟩) ∧ ∃ stream, .spawned ⟨0⟩ stream ∈ tr ∧
      pushedBy ⟨0⟩ tr ++ t.unsent = readerTask ⟨0⟩ (polledBy ⟨0⟩ tr).length "" (.new stream.reader) := by
  obtain ⟨tr, s, hrun, -, htasks⟩ := exists_served
  have hfirst := congrArg (·[0]?) htasks
  rw [List.getElem?_map] at hfirst
  obtain ⟨t, ht, heq⟩ := Option.map_eq_some_iff.mp hfirst
  have hunguarded : (broker (R := Source) (W := Outlet)).Run Machine.unguarded tr s :=
    hrun.mono fun _ _ _ => trivial
  exact ⟨tr, s, t, hunguarded, ht, (Prod.mk.inj heq).1, task_serves hunguarded ht⟩

/-- The sockets have taken the frame of the message that both clients had to hear. -/
theorem client_receives_two : ∃ tr s, (broker (R := Source) (W := Outlet)).Run FlushFits tr s ∧
    s.tasks.map (fun t => (wtHalf t.client.stream).stream.accepted) =
      [(Command.message "----- Welcome, A -----").frame, (Command.message "----- Welcome, A -----").frame] ∧
    s.panicked = false := by
  obtain ⟨tr, s, hrun, -, htasks⟩ := exists_served
  have haccepted := congrArg (List.map Prod.snd) htasks
  rw [List.map_map] at haccepted
  exact ⟨tr, s, hrun, haccepted, (client_receives hrun).1⟩

end Groupchat.AsyncServer
