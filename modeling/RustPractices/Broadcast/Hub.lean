import RustPractices.Transition.Machine

/-!
# Hubs

A hub passes messages on to its members. It takes one order after the other out of a queue: a message for
all members or for all but its source, a member that joins, a member that leaves. Telling a member may
fail, and then the hub queues an order for it to leave. When a member leaves, the hub queues a message
about it. Others queue orders at any time, also while the hub is at work on one.

The members are told in an order of their own, which is new for each message.

## Main definitions

* `Hub`, `hub`: a hub, and the machine of all interleavings
* `Listener`: what a member has to hear
* `Roll`: who has joined and who has left

## Main results

* `hub_fifo`: the orders are taken out as they have been queued
* `hub_hears`: each member is told what it has to hear, in the order of the queue
* `Roll.of_run`: a member leaves once, and the hub says so once
* `mem_members_iff`: the members are those that have joined and have not been ordered to leave
-/

open Transition

namespace Broadcast

variable {ι τ ν σ : Type*}

/-- What a hub has to do. -/
inductive Order (ι τ : Type*)
  | all (msg : τ)
  | others (src : ι) (msg : τ)
  | join
  | leave (id : ι)
  deriving DecidableEq, Repr

/-- What is left to do of the order that has been taken last. -/
inductive Task (ι τ : Type*)
  | tell (id : ι) (msg : τ)
  | farewell (msg : τ)
  deriving DecidableEq, Repr

/-- **A hub**: its members, all who have ever joined, its queue, and what is left of the last order. -/
structure Hub (ι τ : Type*) where
  members : Finset ι := ∅
  joined : Finset ι := ∅
  queue : List (Order ι τ) := []
  todo : List (Task ι τ) := []

/-- What happens at a hub. An order has a source, unless it is the hub itself. -/
inductive Event (ι τ ν σ : Type*)
  | pushed (src : Option σ) (order : Order ι τ)
  | popped (order : Order ι τ)
  | joined (id : ι)
  | told (id : ι) (msg : τ) (failed : Bool)
  | left (id : ι) (name : ν)
  deriving DecidableEq, Repr

/-- What can happen next: someone queues an order, the hub takes an order, or it goes on with the last
one. When it takes an order, `roll` goes through its members, `admitted` is the one that joins, and
`name` is that of the one that leaves. -/
inductive Action (ι τ ν σ : Type*)
  | push (src : σ) (order : Order ι τ)
  | pop (roll : List ι) (admitted : Option ι) (name : ν)
  | work (fails : Bool)

namespace Hub

variable [DecidableEq ι]

/-- The list goes through the members. -/
def Iterates (h : Hub ι τ) (roll : List ι) : Prop := roll.Nodup ∧ roll.toFinset = h.members

instance (h : Hub ι τ) (roll : List ι) : Decidable (h.Iterates roll) :=
  inferInstanceAs (Decidable (_ ∧ _))

/-- What taking an order does. -/
def take (goodbye : ν → τ) (h : Hub ι τ) (roll : List ι) (admitted : Option ι) (name : ν) :
    Order ι τ → Option (Hub ι τ × List (Event ι τ ν σ))
  | .all msg =>
    if h.Iterates roll then some ({ h with todo := roll.map (.tell · msg) }, []) else none
  | .others src msg =>
    if h.Iterates roll then
      some ({ h with todo := (roll.filter (· ≠ src)).map (.tell · msg) }, [])
    else none
  | .join =>
    match admitted with
    | none => some (h, [])
    | some id =>
      if id ∈ h.joined then none
      else some ({ h with members := insert id h.members, joined := insert id h.joined }, [.joined id])
  | .leave id =>
    if id ∈ h.members then
      some ({ h with members := h.members.erase id, todo := [.farewell (goodbye name)] },
        [.left id name])
    else some (h, [])

/-- A step of a hub. -/
def step (goodbye : ν → τ) (h : Hub ι τ) : Action ι τ ν σ → Option (Hub ι τ × List (Event ι τ ν σ))
  | .push src order => some ({ h with queue := h.queue ++ [order] }, [.pushed (some src) order])
  | .pop roll admitted name =>
    match h.todo, h.queue with
    | [], order :: rest =>
      (take goodbye { h with queue := rest } roll admitted name order).map fun (h, out) =>
        (h, .popped order :: out)
    | _, _ => none
  | .work fails =>
    match h.todo with
    | [] => none
    | .tell id msg :: todo =>
      if fails then
        some ({ h with queue := h.queue ++ [.leave id], todo },
          [.told id msg true, .pushed none (.leave id)])
      else some ({ h with todo }, [.told id msg false])
    | .farewell msg :: todo =>
      some ({ h with queue := h.queue ++ [.all msg], todo }, [.pushed none (.all msg)])

end Hub

/-- **The hub** without members, in all interleavings with those who queue orders. It says `goodbye` to those
who leave. -/
def hub [DecidableEq ι] (goodbye : ν → τ) : Machine (Hub ι τ) (Action ι τ ν σ) (Event ι τ ν σ) where
  init := {}
  step := Hub.step goodbye

/-! ## What a step does -/

/-- The steps, one by one. -/
inductive Stepped [DecidableEq ι] (goodbye : ν → τ) (h : Hub ι τ) :
    Action ι τ ν σ → List (Event ι τ ν σ) → Hub ι τ → Prop
  | push (src : σ) (order : Order ι τ) :
      Stepped goodbye h (.push src order) [.pushed (some src) order] { h with queue := h.queue ++ [order] }
  | all {msg : τ} {rest : List (Order ι τ)} {roll : List ι} {admitted : Option ι} {name : ν}
      (htodo : h.todo = []) (hqueue : h.queue = .all msg :: rest) (hroll : h.Iterates roll) :
      Stepped goodbye h (.pop roll admitted name) [.popped (.all msg)]
        { h with queue := rest, todo := roll.map (.tell · msg) }
  | others {src : ι} {msg : τ} {rest : List (Order ι τ)} {roll : List ι} {admitted : Option ι}
      {name : ν} (htodo : h.todo = []) (hqueue : h.queue = .others src msg :: rest)
      (hroll : h.Iterates roll) :
      Stepped goodbye h (.pop roll admitted name) [.popped (.others src msg)]
        { h with queue := rest, todo := (roll.filter (· ≠ src)).map (.tell · msg) }
  | refuse {rest : List (Order ι τ)} {roll : List ι} {name : ν} (htodo : h.todo = [])
      (hqueue : h.queue = .join :: rest) :
      Stepped goodbye h (.pop roll none name) [.popped .join] { h with queue := rest }
  | join {id : ι} {rest : List (Order ι τ)} {roll : List ι} {name : ν} (htodo : h.todo = [])
      (hqueue : h.queue = .join :: rest) (hfresh : id ∉ h.joined) :
      Stepped goodbye h (.pop roll (some id) name) [.popped .join, .joined id]
        { h with members := insert id h.members, joined := insert id h.joined, queue := rest }
  | leave {id : ι} {rest : List (Order ι τ)} {roll : List ι} {admitted : Option ι} {name : ν}
      (htodo : h.todo = []) (hqueue : h.queue = .leave id :: rest) (hmem : id ∈ h.members) :
      Stepped goodbye h (.pop roll admitted name) [.popped (.leave id), .left id name]
        { h with members := h.members.erase id, queue := rest, todo := [.farewell (goodbye name)] }
  | gone {id : ι} {rest : List (Order ι τ)} {roll : List ι} {admitted : Option ι} {name : ν}
      (htodo : h.todo = []) (hqueue : h.queue = .leave id :: rest) (hmem : id ∉ h.members) :
      Stepped goodbye h (.pop roll admitted name) [.popped (.leave id)] { h with queue := rest }
  | tell {id : ι} {msg : τ} {todo : List (Task ι τ)} (htodo : h.todo = .tell id msg :: todo) :
      Stepped goodbye h (.work false) [.told id msg false] { h with todo }
  | fail {id : ι} {msg : τ} {todo : List (Task ι τ)} (htodo : h.todo = .tell id msg :: todo) :
      Stepped goodbye h (.work true) [.told id msg true, .pushed none (.leave id)]
        { h with queue := h.queue ++ [.leave id], todo }
  | farewell {msg : τ} {todo : List (Task ι τ)} {fails : Bool}
      (htodo : h.todo = .farewell msg :: todo) :
      Stepped goodbye h (.work fails) [.pushed none (.all msg)]
        { h with queue := h.queue ++ [.all msg], todo }

theorem stepped_of_step [DecidableEq ι] {goodbye : ν → τ} {h h' : Hub ι τ} {a : Action ι τ ν σ}
    {out : List (Event ι τ ν σ)}
    (hstep : h.step goodbye a = some (h', out)) : Stepped goodbye h a out h' := by
  cases a with
  | push src order =>
    obtain ⟨rfl, rfl⟩ := Prod.mk.inj (Option.some.inj hstep)
    exact .push src order
  | pop roll admitted name =>
    simp only [Hub.step] at hstep
    split at hstep
    next order rest htodo hqueue =>
      obtain ⟨⟨h₁, out₁⟩, htake, heq⟩ := Option.map_eq_some_iff.mp hstep
      obtain ⟨rfl, rfl⟩ := Prod.mk.inj heq
      cases order with
      | all msg =>
        simp only [Hub.take] at htake
        split_ifs at htake with hroll
        obtain ⟨rfl, rfl⟩ := Prod.mk.inj (Option.some.inj htake)
        exact .all htodo hqueue hroll
      | others src msg =>
        simp only [Hub.take] at htake
        split_ifs at htake with hroll
        obtain ⟨rfl, rfl⟩ := Prod.mk.inj (Option.some.inj htake)
        exact .others htodo hqueue hroll
      | join =>
        cases admitted with
        | none =>
          obtain ⟨rfl, rfl⟩ := Prod.mk.inj (Option.some.inj htake)
          exact .refuse htodo hqueue
        | some id =>
          simp only [Hub.take] at htake
          split_ifs at htake with hfresh
          obtain ⟨rfl, rfl⟩ := Prod.mk.inj (Option.some.inj htake)
          exact .join htodo hqueue hfresh
      | leave id =>
        simp only [Hub.take] at htake
        split_ifs at htake with hmem
        · obtain ⟨rfl, rfl⟩ := Prod.mk.inj (Option.some.inj htake)
          exact .leave htodo hqueue hmem
        · obtain ⟨rfl, rfl⟩ := Prod.mk.inj (Option.some.inj htake)
          exact .gone htodo hqueue hmem
    next => cases hstep
  | work fails =>
    simp only [Hub.step] at hstep
    split at hstep
    next => cases hstep
    next id msg todo htodo =>
      split_ifs at hstep with hfails
      · obtain ⟨rfl, rfl⟩ := Prod.mk.inj (Option.some.inj hstep)
        subst hfails
        exact .fail htodo
      · obtain ⟨rfl, rfl⟩ := Prod.mk.inj (Option.some.inj hstep)
        obtain rfl : fails = false := by simpa using hfails
        exact .tell htodo
    next msg todo htodo =>
      obtain ⟨rfl, rfl⟩ := Prod.mk.inj (Option.some.inj hstep)
      exact .farewell htodo

/-- Each of the steps can be taken. -/
theorem step_of_stepped [DecidableEq ι] {goodbye : ν → τ} {h h' : Hub ι τ} {a : Action ι τ ν σ}
    {out : List (Event ι τ ν σ)}
    (hstep : Stepped goodbye h a out h') : (hub goodbye).step h a = some (h', out) := by
  show h.step goodbye a = some (h', out)
  cases hstep with
  | push src order => rfl
  | all htodo hqueue hroll =>
    simp only [Hub.step, htodo, hqueue, Hub.take]
    exact congrArg (Option.map _) (if_pos hroll)
  | others htodo hqueue hroll =>
    simp only [Hub.step, htodo, hqueue, Hub.take]
    exact congrArg (Option.map _) (if_pos hroll)
  | refuse htodo hqueue => simp [Hub.step, htodo, hqueue, Hub.take]
  | join htodo hqueue hfresh => simp [Hub.step, htodo, hqueue, Hub.take, hfresh]
  | leave htodo hqueue hmem => simp [Hub.step, htodo, hqueue, Hub.take, hmem]
  | gone htodo hqueue hmem => simp [Hub.step, htodo, hqueue, Hub.take, hmem]
  | tell htodo => simp [Hub.step, htodo]
  | fail htodo => simp [Hub.step, htodo]
  | farewell htodo => simp [Hub.step, htodo]

/-! ## The queue -/

namespace Event

/-- The order that is queued. -/
def pushed? : Event ι τ ν σ → Option (Order ι τ)
  | pushed _ order => some order
  | _ => none

/-- The order that is taken. -/
def popped? : Event ι τ ν σ → Option (Order ι τ)
  | popped order => some order
  | _ => none

end Event

/-- The orders that have been queued. -/
def pushes (tr : List (Event ι τ ν σ)) : List (Order ι τ) := tr.filterMap Event.pushed?

/-- The orders that have been taken. -/
def pops (tr : List (Event ι τ ν σ)) : List (Order ι τ) := tr.filterMap Event.popped?

theorem pushes_append (tr tr' : List (Event ι τ ν σ)) : pushes (tr ++ tr') = pushes tr ++ pushes tr' :=
  List.filterMap_append ..

theorem pops_append (tr tr' : List (Event ι τ ν σ)) : pops (tr ++ tr') = pops tr ++ pops tr' :=
  List.filterMap_append ..

section Runs

variable [DecidableEq ι] {goodbye : ν → τ} {ok : Hub ι τ → Action ι τ ν σ → Prop}
  {tr : List (Event ι τ ν σ)} {h h' : Hub ι τ} {a : Action ι τ ν σ} {out : List (Event ι τ ν σ)}

/-- **The orders are taken as they have been queued**, and none is lost. -/
theorem hub_fifo (hrun : (hub goodbye).Run ok tr h) : pushes tr = pops tr ++ h.queue := by
  refine hrun.invariant (P := fun tr h => pushes tr = pops tr ++ h.queue) rfl ?_
  intro tr h a h' out hfifo _ hstep
  have hone : ∀ order : Order ι τ, h.queue = order :: h'.queue → pushes out = [] → pops out = [order] →
      pushes (tr ++ out) = pops (tr ++ out) ++ h'.queue := by
    intro order hqueue hpushes hpops
    rw [pushes_append, pops_append, hpushes, hpops, hfifo, hqueue, List.append_nil, List.append_assoc,
      List.singleton_append]
  have hlast : ∀ orders : List (Order ι τ), h'.queue = h.queue ++ orders → pushes out = orders →
      pops out = [] → pushes (tr ++ out) = pops (tr ++ out) ++ h'.queue := by
    intro orders hqueue hpushes hpops
    rw [pushes_append, pops_append, hpushes, hpops, hfifo, hqueue, List.append_nil, List.append_assoc]
  cases stepped_of_step hstep with
  | push src order => exact hlast [order] rfl rfl rfl
  | all _ hqueue _ => exact hone _ hqueue rfl rfl
  | others _ hqueue _ => exact hone _ hqueue rfl rfl
  | refuse _ hqueue => exact hone _ hqueue rfl rfl
  | join _ hqueue _ => exact hone _ hqueue rfl rfl
  | leave _ hqueue _ => exact hone _ hqueue rfl rfl
  | gone _ hqueue _ => exact hone _ hqueue rfl rfl
  | tell _ => exact hlast [] (List.append_nil _).symm rfl rfl
  | fail _ => exact hlast _ rfl rfl rfl
  | farewell _ => exact hlast _ rfl rfl rfl

end Runs

/-! ## What the members hear -/

/-- **A listener** attends what happens at a hub, and hears the messages that are taken out of the queue
while it is a member. -/
structure Listener (τ : Type*) where
  present : Bool := false
  heard : List τ := []

/-- What an event is to the listener `id`. It does not hear its own messages to the others. -/
def Listener.attend [DecidableEq ι] (id : ι) (l : Listener τ) : Event ι τ ν σ → Listener τ
  | .joined id' => if id' = id then { l with present := true } else l
  | .left id' _ => if id' = id then { l with present := false } else l
  | .popped (.all msg) => if l.present then { l with heard := l.heard ++ [msg] } else l
  | .popped (.others src msg) =>
    if l.present ∧ src ≠ id then { l with heard := l.heard ++ [msg] } else l
  | _ => l

/-- The listener `id` after a run. -/
def listener [DecidableEq ι] (id : ι) (tr : List (Event ι τ ν σ)) : Listener τ :=
  tr.foldl (Listener.attend id) {}

/-- The message that `id` is told. -/
def Event.told? [DecidableEq ι] (id : ι) : Event ι τ ν σ → Option τ
  | told id' msg _ => if id' = id then some msg else none
  | _ => none

/-- What `id` has been told. -/
def told [DecidableEq ι] (id : ι) (tr : List (Event ι τ ν σ)) : List τ :=
  tr.filterMap (Event.told? id)

/-- The message that `id` is still to be told. -/
def Task.tell? [DecidableEq ι] (id : ι) : Task ι τ → Option τ
  | tell id' msg => if id' = id then some msg else none
  | farewell _ => none

/-- What `id` is still to be told. -/
def pending [DecidableEq ι] (id : ι) (todo : List (Task ι τ)) : List τ :=
  todo.filterMap (Task.tell? id)

section Hearing

variable [DecidableEq ι] {goodbye : ν → τ} {ok : Hub ι τ → Action ι τ ν σ → Prop} {tr : List (Event ι τ ν σ)}
  {h h' : Hub ι τ} {a : Action ι τ ν σ} {out : List (Event ι τ ν σ)} {id : ι} {msg : τ}

theorem listener_append (id : ι) (tr out : List (Event ι τ ν σ)) :
    listener id (tr ++ out) = out.foldl (Listener.attend id) (listener id tr) :=
  List.foldl_append

theorem told_append (id : ι) (tr out : List (Event ι τ ν σ)) :
    told id (tr ++ out) = told id tr ++ told id out :=
  List.filterMap_append ..

theorem pending_cons_tell (id' : ι) (todo : List (Task ι τ)) :
    pending id (.tell id' msg :: todo) = (if id' = id then [msg] else []) ++ pending id todo := by
  unfold pending
  by_cases heq : id' = id
  · rw [if_pos heq, List.filterMap_cons_some (by rw [Task.tell?, if_pos heq]), List.singleton_append]
  · rw [if_neg heq, List.filterMap_cons_none (by rw [Task.tell?, if_neg heq]), List.nil_append]

/-- A roll without repetition tells each of its members once. -/
theorem pending_map_tell {roll : List ι} (hnodup : roll.Nodup) :
    pending id (roll.map (.tell · msg)) = if id ∈ roll then [msg] else [] := by
  induction roll with
  | nil => rfl
  | cons id' roll ih =>
    obtain ⟨hnotMem, hnodup⟩ := List.nodup_cons.mp hnodup
    rw [List.map_cons, pending_cons_tell, ih hnodup]
    by_cases heq : id' = id
    · subst heq
      simp [hnotMem]
    · simp [heq, Ne.symm heq]

theorem told_singleton (id' : ι) (msg : τ) (failed : Bool) (rest : List (Event ι τ ν σ))
    (hrest : told id rest = []) :
    told id (.told id' msg failed :: rest) = if id' = id then [msg] else [] := by
  show List.filterMap (Event.told? id) (_ :: rest) = _
  by_cases heq : id' = id
  · rw [if_pos heq, List.filterMap_cons_some (by rw [Event.told?, if_pos heq])]
    exact congrArg (msg :: ·) hrest
  · rw [if_neg heq, List.filterMap_cons_none (by rw [Event.told?, if_neg heq])]
    exact hrest

/-- What a member has been told, and is still to be told, is what it has to hear. -/
structure Hears (id : ι) (tr : List (Event ι τ ν σ)) (h : Hub ι τ) : Prop where
  present : (listener id tr).present = true ↔ id ∈ h.members
  heard : told id tr ++ pending id h.todo = (listener id tr).heard

/-- A step without a message to hear. -/
theorem Hears.of_moved {h' : Hub ι τ} {present : Bool} (hears : Hears id tr h)
    (hattend : out.foldl (Listener.attend id) (listener id tr) = { listener id tr with present })
    (hpresent : present = true ↔ id ∈ h'.members)
    (htold : told id out ++ pending id h'.todo = pending id h.todo) : Hears id (tr ++ out) h' where
  present := by rw [listener_append, hattend, hpresent]
  heard := by rw [listener_append, hattend, told_append, List.append_assoc, htold, hears.heard]

/-- A message that is taken out of the queue. -/
theorem Hears.of_popped {order : Order ι τ} {todo : List (Task ι τ)} {queue : List (Order ι τ)}
    {texts : List τ}
    (hears : Hears id tr h) (htodo : h.todo = [])
    (hattend : ∀ l : Listener τ, (l.present = true ↔ id ∈ h.members) →
      l.attend id (.popped order : Event ι τ ν σ) = { l with heard := l.heard ++ texts })
    (hpending : pending id todo = texts) :
    Hears id (tr ++ [.popped order]) { h with queue, todo } where
  present := by
    rw [listener_append, List.foldl_cons, List.foldl_nil, hattend _ hears.present]
    exact hears.present
  heard := by
    have hheard := hears.heard
    rw [htodo] at hheard
    have hnone : told id [(.popped order : Event ι τ ν σ)] = [] := rfl
    rw [listener_append, List.foldl_cons, List.foldl_nil, hattend _ hears.present, ← hheard, told_append,
      hnone, hpending, List.append_nil]
    exact congrArg (· ++ texts) (List.append_nil _).symm

/-- The members that a roll goes through. -/
theorem Hub.Iterates.mem_iff {roll : List ι} (hroll : h.Iterates roll) : id ∈ roll ↔ id ∈ h.members := by
  rw [← hroll.2, List.mem_toFinset]

/-- **Each step is heard by those who have to hear it.** -/
theorem Hears.step (hears : Hears id tr h) (hstep : h.step goodbye a = some (h', out)) :
    Hears id (tr ++ out) h' := by
  cases stepped_of_step hstep with
  | push src order => exact hears.of_moved rfl hears.present rfl
  | refuse _ _ => exact hears.of_moved rfl hears.present rfl
  | gone _ _ _ => exact hears.of_moved rfl hears.present rfl
  | @all msg rest roll admitted name htodo hqueue hroll =>
    refine hears.of_popped htodo ?_ (pending_map_tell hroll.1)
    intro l hpresent
    have hiff : id ∈ roll ↔ l.present = true := hroll.mem_iff.trans hpresent.symm
    rw [Listener.attend]
    by_cases hhears : l.present = true
    · rw [if_pos hhears, if_pos (hiff.mpr hhears)]
    · rw [if_neg hhears, if_neg (mt hiff.mp hhears), List.append_nil]
  | @others src msg rest roll admitted name htodo hqueue hroll =>
    refine hears.of_popped htodo ?_ (pending_map_tell (hroll.1.filter _))
    intro l hpresent
    have hiff : id ∈ roll.filter (· ≠ src) ↔ l.present = true ∧ src ≠ id := by
      rw [List.mem_filter, hroll.mem_iff, ← hpresent, decide_eq_true_eq, ne_comm]
    rw [Listener.attend]
    by_cases hhears : l.present = true ∧ src ≠ id
    · rw [if_pos hhears, if_pos (hiff.mpr hhears)]
    · rw [if_neg hhears, if_neg (mt hiff.mp hhears), List.append_nil]
  | @join id' rest roll name htodo hqueue hfresh =>
    have hattend : Listener.attend id (listener id tr) (.joined id' : Event ι τ ν σ) =
        if id' = id then { listener id tr with present := true } else listener id tr := rfl
    by_cases heq : id' = id
    · rw [if_pos heq] at hattend
      exact hears.of_moved hattend (by simp [heq]) rfl
    · rw [if_neg heq] at hattend
      have hpresent : (listener id tr).present = true ↔ id ∈ insert id' h.members := by
        rw [hears.present, Finset.mem_insert]
        exact ⟨.inr, fun hmem => hmem.resolve_left (Ne.symm heq)⟩
      exact hears.of_moved hattend hpresent rfl
  | @leave id' rest roll admitted name htodo hqueue hmem =>
    have hattend : Listener.attend id (listener id tr) (.left id' name : Event ι τ ν σ) =
        if id' = id then { listener id tr with present := false } else listener id tr := rfl
    have hpending : pending id h.todo = [] := by rw [htodo]; rfl
    by_cases heq : id' = id
    · rw [if_pos heq] at hattend
      exact hears.of_moved hattend (by simp [heq]) hpending.symm
    · rw [if_neg heq] at hattend
      have hpresent : (listener id tr).present = true ↔ id ∈ h.members.erase id' := by
        rw [hears.present, Finset.mem_erase]
        exact ⟨fun hmem => ⟨Ne.symm heq, hmem⟩, And.right⟩
      exact hears.of_moved hattend hpresent hpending.symm
  | @tell id' msg todo htodo =>
    refine hears.of_moved rfl hears.present ?_
    rw [told_singleton _ _ _ _ rfl, htodo, pending_cons_tell]
  | @fail id' msg todo htodo =>
    refine hears.of_moved rfl hears.present ?_
    rw [told_singleton _ _ _ _ rfl, htodo, pending_cons_tell]
  | @farewell msg todo fails htodo =>
    refine hears.of_moved rfl hears.present ?_
    rw [htodo]
    rfl

/-- **Each member is told what it has to hear**, once and in the order of the queue: what has been taken
out while it has been a member, apart from its own messages to the others. -/
theorem hub_hears (hrun : (hub goodbye).Run ok tr h) (id : ι) : Hears id tr h := by
  refine hrun.invariant (P := fun tr h => Hears id tr h) ?_ ?_
  · exact { present := by simp [listener, hub], heard := rfl }
  · intro tr h a h' out hears _ hstep
    exact hears.step hstep

/-- The message of an order. -/
def Order.text? : Order ι τ → Option τ
  | all msg => some msg
  | others _ msg => some msg
  | _ => none

/-- The messages that have been taken out of the queue. -/
def texts (tr : List (Event ι τ ν σ)) : List τ := (pops tr).filterMap Order.text?

/-- **All listeners hear in one order**, that of the queue. -/
theorem heard_sublist_texts (id : ι) (tr : List (Event ι τ ν σ)) :
    (listener id tr).heard.Sublist (texts tr) := by
  have hfold : ∀ l : Listener τ, (tr.foldl (Listener.attend id) l).heard.Sublist (l.heard ++ texts tr) := by
    induction tr with
    | nil => exact fun l => List.sublist_append_left _ _
    | cons e tr ih =>
      intro l
      have hhead : texts (e :: tr) = texts [e] ++ texts tr := by
        unfold texts
        rw [← List.filterMap_append, ← pops_append, List.singleton_append]
      rw [List.foldl_cons, hhead, ← List.append_assoc]
      refine (ih (l.attend id e)).trans (List.Sublist.append ?_ (List.Sublist.refl _))
      cases e with
      | popped order =>
        cases order with
        | all msg =>
          rw [Listener.attend]
          split_ifs
          · exact List.Sublist.refl _
          · exact List.sublist_append_left _ _
        | others src msg =>
          rw [Listener.attend]
          split_ifs
          · exact List.Sublist.refl _
          · exact List.sublist_append_left _ _
        | join => exact List.sublist_append_left _ _
        | leave id' => exact List.sublist_append_left _ _
      | joined id' =>
        rw [Listener.attend]
        split_ifs <;> exact List.sublist_append_left _ _
      | left id' msg =>
        rw [Listener.attend]
        split_ifs <;> exact List.sublist_append_left _ _
      | pushed src order => exact List.sublist_append_left _ _
      | told id' msg failed => exact List.sublist_append_left _ _
  exact hfold {}

end Hearing

/-! ## Who has joined and who has left -/

namespace Event

/-- The member that leaves, with its name. -/
def left? : Event ι τ ν σ → Option (ι × ν)
  | left id name => some (id, name)
  | _ => none

/-- The message that the hub itself queues. -/
def own? : Event ι τ ν σ → Option τ
  | pushed none (.all msg) => some msg
  | _ => none

end Event

/-- The message about a member that is still to be queued. -/
def Task.farewell? : Task ι τ → Option τ
  | tell _ _ => none
  | farewell msg => some msg

/-- The members that have left, with their names. -/
def departures (tr : List (Event ι τ ν σ)) : List (ι × ν) := tr.filterMap Event.left?

/-- The messages that the hub itself has queued. -/
def announced (tr : List (Event ι τ ν σ)) : List τ := tr.filterMap Event.own?

/-- The messages that the hub itself is still to queue. -/
def unannounced (todo : List (Task ι τ)) : List τ := todo.filterMap Task.farewell?

/-- **The roll of a hub**: each member has joined, and leaves once. The hub queues a message about each
member that has left, in their order. -/
structure Roll [DecidableEq ι] (goodbye : ν → τ) (tr : List (Event ι τ ν σ)) (h : Hub ι τ) : Prop where
  joined : ∀ id, .joined id ∈ tr ↔ id ∈ h.joined
  nodup : ((departures tr).map Prod.fst).Nodup
  left : ∀ id, id ∈ (departures tr).map Prod.fst ↔ id ∈ h.joined ∧ id ∉ h.members
  members : h.members ⊆ h.joined
  farewells : announced tr ++ unannounced h.todo = (departures tr).map (fun r => goodbye r.2)

section Rolls

variable [DecidableEq ι] {goodbye : ν → τ} {ok : Hub ι τ → Action ι τ ν σ → Prop}
  {tr : List (Event ι τ ν σ)} {h h' : Hub ι τ} {a : Action ι τ ν σ} {out : List (Event ι τ ν σ)} {id : ι}

omit [DecidableEq ι] in
theorem departures_append (tr out : List (Event ι τ ν σ)) :
    departures (tr ++ out) = departures tr ++ departures out :=
  List.filterMap_append ..

omit [DecidableEq ι] in
theorem announced_append (tr out : List (Event ι τ ν σ)) :
    announced (tr ++ out) = announced tr ++ announced out :=
  List.filterMap_append ..

/-- A step in which nobody leaves. -/
theorem Roll.of_notLeft (hroll : Roll goodbye tr h)
    (hjoined : ∀ id, id ∈ h'.joined ↔ id ∈ h.joined ∨ (.joined id : Event ι τ ν σ) ∈ out)
    (hmembers : h'.members ⊆ h'.joined)
    (hgone : ∀ id, id ∈ h'.joined ∧ id ∉ h'.members ↔ id ∈ h.joined ∧ id ∉ h.members)
    (hleft : departures out = [])
    (hown : announced out ++ unannounced h'.todo = unannounced h.todo) : Roll goodbye (tr ++ out) h' where
  joined id := by rw [List.mem_append, hroll.joined, hjoined]
  nodup := by
    rw [departures_append, hleft, List.append_nil]
    exact hroll.nodup
  left id := by
    rw [departures_append, hleft, List.append_nil, hgone]
    exact hroll.left id
  members := hmembers
  farewells := by
    rw [announced_append, departures_append, hleft, List.append_nil, List.append_assoc, hown]
    exact hroll.farewells

/-- A step in which nobody joins and nobody leaves. -/
theorem Roll.of_stayed (hroll : Roll goodbye tr h) (hjoined : ∀ id, (.joined id : Event ι τ ν σ) ∉ out)
    (hleft : departures out = [])
    (hsame : h'.joined = h.joined) (hmembers : h'.members = h.members)
    (hown : announced out ++ unannounced h'.todo = unannounced h.todo) : Roll goodbye (tr ++ out) h' := by
  refine hroll.of_notLeft (fun id => ?_) ?_ (fun id => ?_) hleft hown
  · rw [hsame]
    exact (or_iff_left (hjoined id)).symm
  · rw [hsame, hmembers]
    exact hroll.members
  · rw [hsame, hmembers]

omit [DecidableEq ι] in
theorem unannounced_map_tell (roll : List ι) (msg : τ) :
    unannounced (roll.map (Task.tell · msg)) = [] := by
  rw [unannounced, List.filterMap_map]
  exact List.filterMap_eq_nil_iff.mpr fun _ _ => rfl

/-- **Each step keeps the roll.** -/
theorem Roll.step (hroll : Roll goodbye tr h) (hstep : h.step goodbye a = some (h', out)) :
    Roll goodbye (tr ++ out) h' := by
  cases stepped_of_step hstep with
  | push src order => exact hroll.of_stayed (by simp) rfl rfl rfl rfl
  | refuse _ _ => exact hroll.of_stayed (by simp) rfl rfl rfl rfl
  | gone _ _ _ => exact hroll.of_stayed (by simp) rfl rfl rfl rfl
  | all htodo _ _ =>
    refine hroll.of_stayed (by simp) rfl rfl rfl ?_
    rw [htodo]
    exact unannounced_map_tell _ _
  | others htodo _ _ =>
    refine hroll.of_stayed (by simp) rfl rfl rfl ?_
    rw [htodo]
    exact unannounced_map_tell _ _
  | tell htodo =>
    refine hroll.of_stayed (by simp) rfl rfl rfl ?_
    rw [htodo]
    rfl
  | fail htodo =>
    refine hroll.of_stayed (by simp) rfl rfl rfl ?_
    rw [htodo]
    rfl
  | farewell htodo =>
    refine hroll.of_stayed (by simp) rfl rfl rfl ?_
    rw [htodo]
    rfl
  | @join id' rest roll name htodo hqueue hfresh =>
    refine hroll.of_notLeft (fun id => ?_) (Finset.insert_subset_insert _ hroll.members) (fun id => ?_)
      rfl rfl
    · simp [or_comm]
    · rw [Finset.mem_insert, Finset.mem_insert, not_or]
      constructor
      · rintro ⟨hin, hne, hout⟩
        exact ⟨hin.resolve_left hne, hout⟩
      · rintro ⟨hin, hout⟩
        refine ⟨.inr hin, ?_, hout⟩
        rintro rfl
        exact hfresh hin
  | @leave id' rest roll admitted name htodo hqueue hmem =>
    have hleft : departures (tr ++ [.popped (.leave id'), .left id' name]) =
        departures tr ++ [(id', name)] := departures_append ..
    have hfarewells := hroll.farewells
    rw [htodo] at hfarewells
    exact {
      joined := fun id => by
        rw [List.mem_append, hroll.joined]
        simp
      nodup := by
        rw [hleft, List.map_append]
        refine hroll.nodup.append (List.nodup_singleton _) ?_
        rw [List.map_singleton, List.disjoint_singleton]
        exact fun hin => ((hroll.left id').mp hin).2 hmem
      left := fun id => by
        rw [hleft, List.map_append, List.mem_append, hroll.left, List.map_singleton, List.mem_singleton,
          Finset.mem_erase, not_and_or, not_not]
        constructor
        · rintro (hin | rfl)
          · exact ⟨hin.1, .inr hin.2⟩
          · exact ⟨hroll.members hmem, .inl rfl⟩
        · rintro ⟨hin, rfl | hout⟩
          · exact .inr rfl
          · exact .inl ⟨hin, hout⟩
      members := (Finset.erase_subset _ _).trans hroll.members
      farewells := by
        rw [hleft, List.map_append, ← hfarewells, announced_append, List.append_assoc, List.append_assoc]
        rfl }

/-- **The roll is kept along every run.** -/
theorem Roll.of_run (hrun : (hub goodbye).Run ok tr h) : Roll goodbye tr h := by
  refine hrun.invariant (P := fun tr h => Roll goodbye tr h) ?_ ?_
  · exact {
      joined := by simp [hub]
      nodup := List.nodup_nil
      left := by simp [hub, departures]
      members := Finset.Subset.refl _
      farewells := rfl }
  · intro tr h a h' out hroll _ hstep
    exact hroll.step hstep

/-- Others order only those to leave that have joined. -/
def Known (h : Hub ι τ) : Action ι τ ν σ → Prop
  | .push _ (.leave id) => id ∈ h.joined
  | _ => True

/-- Where others are careful, all who are ordered to leave and all who are told something have joined. -/
structure Orderly (tr : List (Event ι τ ν σ)) (h : Hub ι τ) : Prop where
  queued : ∀ id, .leave id ∈ pushes tr → id ∈ h.joined
  telling : ∀ id msg, .tell id msg ∈ h.todo → id ∈ h.joined
  gone : ∀ id, .leave id ∈ pops tr → id ∉ h.members

omit [DecidableEq ι] in
/-- A step, by what it adds. -/
theorem Orderly.append (horderly : Orderly tr h) (hjoined : h.joined ⊆ h'.joined)
    (hmembers : ∀ id, .leave id ∈ pops tr → id ∈ h'.members → id ∈ h.members)
    (hqueued : ∀ id, .leave id ∈ pushes out → id ∈ h'.joined)
    (htelling : ∀ id msg, .tell id msg ∈ h'.todo → id ∈ h'.joined)
    (hgone : ∀ id, .leave id ∈ pops out → id ∉ h'.members) : Orderly (tr ++ out) h' where
  queued id hmem := by
    rw [pushes_append, List.mem_append] at hmem
    exact hmem.elim (fun hmem => hjoined (horderly.queued id hmem)) (hqueued id)
  telling := htelling
  gone id hmem := by
    rw [pops_append, List.mem_append] at hmem
    rcases hmem with hmem | hmem
    · exact fun hin => horderly.gone id hmem (hmembers id hmem hin)
    · exact hgone id hmem

/-- **Each step keeps the order.** -/
theorem Orderly.step (hroll : Roll goodbye tr h) (hfifo : pushes tr = pops tr ++ h.queue)
    (horderly : Orderly tr h) (hok : Known h a) (hstep : h.step goodbye a = some (h', out)) :
    Orderly (tr ++ out) h' := by
  have hsame : ∀ id, .leave id ∈ pops tr → id ∈ h.members → id ∈ h.members := fun _ _ hin => hin
  cases stepped_of_step hstep with
  | push src order =>
    refine horderly.append subset_rfl hsame (fun id hmem => ?_) horderly.telling
      fun id hmem => absurd hmem List.not_mem_nil
    obtain rfl := List.mem_singleton.mp hmem
    exact hok
  | refuse _ _ =>
    exact horderly.append subset_rfl hsame (fun id hmem => absurd hmem List.not_mem_nil)
      horderly.telling fun id hmem => by simp [pops, Event.popped?] at hmem
  | gone _ _ hnot =>
    refine horderly.append subset_rfl hsame (fun id hmem => absurd hmem List.not_mem_nil)
      horderly.telling fun id hmem => ?_
    obtain rfl := Order.leave.inj (List.mem_singleton.mp hmem)
    exact hnot
  | all _ _ hiter =>
    refine horderly.append subset_rfl hsame (fun id hmem => absurd hmem List.not_mem_nil)
      (fun id msg hmem => ?_) fun id hmem => by cases List.mem_singleton.mp hmem
    obtain ⟨id', hin, heq⟩ := List.mem_map.mp hmem
    obtain ⟨rfl, -⟩ := Task.tell.inj heq
    exact hroll.members (hiter.mem_iff.mp hin)
  | others _ _ hiter =>
    refine horderly.append subset_rfl hsame (fun id hmem => absurd hmem List.not_mem_nil)
      (fun id msg hmem => ?_) fun id hmem => by cases List.mem_singleton.mp hmem
    obtain ⟨id', hin, heq⟩ := List.mem_map.mp hmem
    obtain ⟨rfl, -⟩ := Task.tell.inj heq
    exact hroll.members (hiter.mem_iff.mp (List.mem_of_mem_filter hin))
  | @join id' rest roll name htodo hqueue hfresh =>
    refine horderly.append (Finset.subset_insert _ _) (fun id hmem hin => ?_)
      (fun id hmem => absurd hmem List.not_mem_nil)
      (fun id msg hmem => Finset.mem_insert_of_mem (horderly.telling id msg hmem))
      fun id hmem => by cases List.mem_singleton.mp hmem
    -- the one that joins has not been ordered to leave
    refine (Finset.mem_insert.mp hin).resolve_left ?_
    rintro rfl
    exact hfresh (horderly.queued id (hfifo ▸ List.mem_append_left _ hmem))
  | @leave id' rest roll admitted name htodo hqueue hmem =>
    refine horderly.append subset_rfl (fun id _ hin => Finset.mem_of_mem_erase hin)
      (fun id hmem => absurd hmem List.not_mem_nil) (fun id msg hmem => ?_) fun id hmem => ?_
    · cases List.mem_singleton.mp hmem
    · obtain rfl := Order.leave.inj (List.mem_singleton.mp hmem)
      exact Finset.notMem_erase _ _
  | tell htodo =>
    exact horderly.append subset_rfl hsame (fun id hmem => absurd hmem List.not_mem_nil)
      (fun id msg hmem => horderly.telling id msg (htodo ▸ List.mem_cons_of_mem _ hmem))
      fun id hmem => absurd hmem List.not_mem_nil
  | @fail id' msg' todo htodo =>
    refine horderly.append subset_rfl hsame (fun id hmem => ?_)
      (fun id msg hmem => horderly.telling id msg (htodo ▸ List.mem_cons_of_mem _ hmem))
      fun id hmem => absurd hmem List.not_mem_nil
    obtain rfl := Order.leave.inj (List.mem_singleton.mp hmem)
    exact horderly.telling _ msg' (htodo ▸ List.mem_cons_self)
  | farewell htodo =>
    exact horderly.append subset_rfl hsame (fun id hmem => by cases List.mem_singleton.mp hmem)
      (fun id msg hmem => horderly.telling id msg (htodo ▸ List.mem_cons_of_mem _ hmem))
      fun id hmem => absurd hmem List.not_mem_nil

theorem Orderly.of_run (hrun : (hub goodbye).Run Known tr h) : Orderly tr h := by
  induction hrun with
  | init =>
    exact {
      queued := fun id hmem => absurd hmem List.not_mem_nil
      telling := fun id msg hmem => absurd hmem List.not_mem_nil
      gone := fun id hmem => absurd hmem List.not_mem_nil }
  | step hrun hok hstep ih => exact ih.step (Roll.of_run hrun) (hub_fifo hrun) hok hstep

/-- Those who have left have been ordered to. -/
theorem leave_of_left (hrun : (hub goodbye).Run ok tr h) (hleft : id ∈ (departures tr).map Prod.fst) :
    .leave id ∈ pops tr := by
  induction hrun with
  | init => cases hleft
  | @step tr h h' a out hrun hok hstep ih =>
    rw [departures_append, List.map_append, List.mem_append] at hleft
    rw [pops_append, List.mem_append]
    rcases hleft with hleft | hleft
    · exact .inl (ih hleft)
    · cases stepped_of_step hstep with
      | leave _ _ _ =>
        obtain rfl := List.mem_singleton.mp hleft
        exact .inr (List.mem_singleton_self _)
      | _ => cases hleft

/-- **The members** are those that have joined and that no order to leave has been taken for. -/
theorem mem_members_iff (hrun : (hub goodbye).Run Known tr h) :
    id ∈ h.members ↔ id ∈ h.joined ∧ .leave id ∉ pops tr := by
  have hroll := Roll.of_run hrun
  constructor
  · intro hmem
    exact ⟨hroll.members hmem, fun hleave => (Orderly.of_run hrun).gone id hleave hmem⟩
  · rintro ⟨hjoined, hstay⟩
    by_contra hnot
    exact hstay (leave_of_left hrun ((hroll.left id).mpr ⟨hjoined, hnot⟩))

end Rolls

end Broadcast
