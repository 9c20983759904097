import Mathlib.Data.List.Nodup
import DistCache.Lib.Threads
import DistCache.Lib.Transition

/-!
The `ThreadPool` on which a cache handles the requests of its clients.

A block that holds the mutex is one step.  Any thread can call `enqueue` at any time, a task that runs in
the pool too; `notify_one` wakes any one of the threads that sleep, and a thread can also wake without
being notified.

The invariant (`Inv`) says where an accepted task is: in the queue, in the hands of one thread, or run.
That `wait_loop` ends only with the queue empty needs its test and its `pop` to be in one block, and that
no task is left behind while all threads sleep needs `notify_one` for every task (`Inv.wake`).
-/

namespace DistCache

open Lib

variable {Task : Type*}

/-- A `packaged_task`, and which of the accepted calls of `enqueue` has built it. -/
structure Payload (Task : Type*) where
  number : ℕ
  task : Task
  deriving DecidableEq

/-- Where a thread stands in `wait_loop`. -/
inductive WaitLoop (Task : Type*) where
  /-- About to lock the mutex and test the predicate. -/
  | top
  /-- In `__cv.wait`. -/
  | asleep
  /-- The task is popped and `before_task_hook` done. -/
  | taken (payload : Payload Task)
  /-- `task()` has returned. -/
  | ran
  | returned
  deriving DecidableEq

namespace WaitLoop

/-- The task that the thread has popped and not run. -/
def inHand : WaitLoop Task → Option (Payload Task)
  | taken payload => some payload
  | _ => none

/-- Between `before_task_hook` and `after_task_hook`. -/
def active : WaitLoop Task → Bool
  | taken _ | ran => true
  | _ => false

def isTop : WaitLoop Task → Bool
  | top => true
  | _ => false

def isAsleep : WaitLoop Task → Bool
  | asleep => true
  | _ => false

/-- The steps that the thread can make before it comes to the next task. -/
def left : WaitLoop Task → ℕ
  | top => 1
  | taken _ => 3
  | ran => 2
  | asleep | returned => 0

def notified : WaitLoop Task → WaitLoop Task
  | asleep => top
  | w => w

lemma inHand_comp_notified : inHand ∘ notified = (inHand : WaitLoop Task → Option (Payload Task)) := by
  funext w
  cases w <;> rfl

lemma active_comp_notified : active ∘ notified = (active : WaitLoop Task → Bool) := by
  funext w
  cases w <;> rfl

end WaitLoop

structure ThreadPool (Task : Type*) where
  threads : List (WaitLoop Task)
  tasks : List (Payload Task)
  isPoolStoped : Bool
  numActiveThreads : UInt32
  capacity : UInt32

namespace ThreadPool

/-- The constructor: `capacity` is 32 bits wide, its argument 64. -/
def new (capacity_ : UInt64) : ThreadPool Task :=
  { threads := List.replicate capacity_.toUInt32.toNat .top
    tasks := []
    isPoolStoped := false
    numActiveThreads := 0
    capacity := capacity_.toUInt32 }

def beforeTaskHook (p : ThreadPool Task) : ThreadPool Task :=
  { p with numActiveThreads := p.numActiveThreads + 1 }

def afterTaskHook (p : ThreadPool Task) : ThreadPool Task :=
  { p with numActiveThreads := p.numActiveThreads - 1 }

/-- `notify_one`, when the thread `woken` is the one that it wakes.  It wakes none only when none sleeps. -/
def notifyOne (p : ThreadPool Task) : Option ℕ → Option (ThreadPool Task)
  | none => if p.threads.any WaitLoop.isAsleep then none else some p
  | some i =>
    match p.threads[i]? with
    | some .asleep => some { p with threads := p.threads.set i .top }
    | _ => none

def emplace (p : ThreadPool Task) (payload : Payload Task) : ThreadPool Task :=
  { p with tasks := p.tasks ++ [payload] }

/-- `enqueue`, up to `notify_one`. -/
def enqueue (p : ThreadPool Task) (payload : Payload Task) : Except String (ThreadPool Task) :=
  if p.isPoolStoped then throw "enqueue on stopped ThreadPool" else return p.emplace payload

/-- The block at the head of `wait_loop`, and where it leaves the thread. -/
def take (p : ThreadPool Task) : ThreadPool Task × WaitLoop Task :=
  match p.tasks with
  | [] => if p.isPoolStoped then (p, .returned) else (p, .asleep)
  | payload :: rest => ({ p with tasks := rest }.beforeTaskHook, .taken payload)

variable {p p' : ThreadPool Task} {payload : Payload Task} {rest : List (Payload Task)}

lemma notifyOne_cases {woken : Option ℕ} (h : p.notifyOne woken = some p') :
    (.asleep ∉ p.threads ∧ p' = p) ∨
      ∃ i, p.threads[i]? = some .asleep ∧ p' = { p with threads := p.threads.set i .top } := by
  cases woken with
  | none =>
    rw [notifyOne] at h
    split at h
    next => cases h
    next hany =>
      cases h
      exact .inl ⟨fun hmem => hany (List.any_eq_true.mpr ⟨_, hmem, rfl⟩), rfl⟩
  | some i =>
    rw [notifyOne] at h
    split at h
    next hat =>
      cases h
      exact .inr ⟨i, hat, rfl⟩
    next => cases h

lemma enqueue_of_running (hstop : p.isPoolStoped = false) :
    p.enqueue payload = .ok (p.emplace payload) := by
  rw [enqueue, hstop]
  rfl

lemma enqueue_of_stopped (hstop : p.isPoolStoped = true) :
    p.enqueue payload = .error "enqueue on stopped ThreadPool" := by
  rw [enqueue, hstop]
  rfl

lemma take_of_running (htasks : p.tasks = []) (hstop : p.isPoolStoped = false) :
    p.take = (p, .asleep) := by
  simp [take, htasks, hstop]

lemma take_of_stopped (htasks : p.tasks = []) (hstop : p.isPoolStoped = true) :
    p.take = (p, .returned) := by
  simp [take, htasks, hstop]

lemma take_of_cons (htasks : p.tasks = payload :: rest) :
    p.take = ({ p with tasks := rest }.beforeTaskHook, .taken payload) := by
  rw [take, htasks]

end ThreadPool

/-- How far the destructor is. -/
inductive Destructor where
  | idle
  /-- `isPoolStoped` is set. -/
  | stopping
  /-- `notify_all` is done, and the first `joined` threads are joined. -/
  | joining (joined : ℕ)
  deriving DecidableEq

/-- A pool, its destructor, and the tasks that `enqueue` has accepted, that have been popped, and that have
been run, in this order. -/
structure PoolRun (Task : Type*) where
  pool : ThreadPool Task
  destructor : Destructor
  accepted : List (Payload Task)
  dequeued : List (Payload Task)
  done : List (Payload Task)

namespace PoolRun

inductive Event (Task : Type*) where
  | enqueue (task : Task) (woken : Option ℕ)
  /-- The thread goes on to its next block. -/
  | turn (thread : ℕ)
  /-- It wakes without being notified. -/
  | wake (thread : ℕ)
  | stop
  | notifyAll
  | join

/-- The next step of a thread. -/
def turn (s : PoolRun Task) (i : ℕ) : Option (PoolRun Task) :=
  match s.pool.threads[i]? with
  | some .top =>
    let r := s.pool.take
    some { s with
      pool := { r.1 with threads := s.pool.threads.set i r.2 }
      dequeued := s.dequeued ++ r.2.inHand.toList }
  | some (.taken payload) => some { s with
      pool := { s.pool with threads := s.pool.threads.set i .ran }
      done := s.done ++ [payload] }
  | some .ran => some { s with
      pool := { s.pool.afterTaskHook with threads := s.pool.threads.set i .top } }
  | _ => none

def step (s : PoolRun Task) : Event Task → Option (PoolRun Task)
  | .enqueue task woken =>
    match s.pool.enqueue ⟨s.accepted.length, task⟩ with
    | .error _ => some s
    | .ok pool => (pool.notifyOne woken).map fun pool => { s with
        pool
        accepted := s.accepted ++ [⟨s.accepted.length, task⟩] }
  | .turn i => s.turn i
  | .wake i =>
    match s.pool.threads[i]? with
    | some .asleep => some { s with pool := { s.pool with threads := s.pool.threads.set i .top } }
    | _ => none
  | .stop =>
    match s.destructor with
    | .idle => some { s with pool := { s.pool with isPoolStoped := true }, destructor := .stopping }
    | _ => none
  | .notifyAll =>
    match s.destructor with
    | .stopping => some { s with
        pool := { s.pool with threads := s.pool.threads.map WaitLoop.notified }
        destructor := .joining 0 }
    | _ => none
  | .join =>
    match s.destructor with
    | .joining joined =>
      match s.pool.threads[joined]? with
      | some .returned => some { s with destructor := .joining (joined + 1) }
      | _ => none
    | _ => none

def Init (capacity_ : UInt64) (s : PoolRun Task) : Prop := s = ⟨.new capacity_, .idle, [], [], []⟩

/-- How often the task that a call of `enqueue` has built has been run. -/
def runs (s : PoolRun Task) (payload : Payload Task) : ℕ :=
  s.done.countP fun other => other.number == payload.number

/-- The destructor has joined all threads. -/
def Joined (s : PoolRun Task) : Prop := s.destructor = .joining s.pool.threads.length

variable {s s' : PoolRun Task} {e : Event Task} {ok : PoolRun Task → Event Task → Prop} {capacity_ : UInt64}

/-! ### The steps, one by one -/

/-- Thread `i` goes from `w` to `w'`, and the pool `p` has the others as they were. -/
def moved (s : PoolRun Task) (p : ThreadPool Task) (i : ℕ) (w' : WaitLoop Task) : PoolRun Task :=
  { s with pool := { p with threads := s.pool.threads.set i w' } }

/-- What a step does. -/
inductive Did (s : PoolRun Task) : Event Task → PoolRun Task → Prop
  | refused {task : Task} {woken : Option ℕ} (hstop : s.pool.isPoolStoped = true) :
      Did s (.enqueue task woken) s
  | accepted {task : Task} {woken : Option ℕ} (hstop : s.pool.isPoolStoped = false)
      (hnone : .asleep ∉ s.pool.threads) : Did s (.enqueue task woken) { s with
        pool := s.pool.emplace ⟨s.accepted.length, task⟩
        accepted := s.accepted ++ [⟨s.accepted.length, task⟩] }
  | notified {task : Task} {woken : Option ℕ} {i : ℕ} (hstop : s.pool.isPoolStoped = false)
      (hat : s.pool.threads[i]? = some .asleep) : Did s (.enqueue task woken)
        { s.moved (s.pool.emplace ⟨s.accepted.length, task⟩) i .top with
          accepted := s.accepted ++ [⟨s.accepted.length, task⟩] }
  | slept {i : ℕ} (hat : s.pool.threads[i]? = some .top) (htasks : s.pool.tasks = [])
      (hstop : s.pool.isPoolStoped = false) : Did s (.turn i) (s.moved s.pool i .asleep)
  | returned {i : ℕ} (hat : s.pool.threads[i]? = some .top) (htasks : s.pool.tasks = [])
      (hstop : s.pool.isPoolStoped = true) : Did s (.turn i) (s.moved s.pool i .returned)
  | took {i : ℕ} {payload : Payload Task} {rest : List (Payload Task)}
      (hat : s.pool.threads[i]? = some .top) (htasks : s.pool.tasks = payload :: rest) :
      Did s (.turn i) { s.moved { s.pool with tasks := rest }.beforeTaskHook i (.taken payload) with
        dequeued := s.dequeued ++ [payload] }
  | ran {i : ℕ} {payload : Payload Task} (hat : s.pool.threads[i]? = some (.taken payload)) :
      Did s (.turn i) { s.moved s.pool i .ran with done := s.done ++ [payload] }
  | after {i : ℕ} (hat : s.pool.threads[i]? = some .ran) :
      Did s (.turn i) (s.moved s.pool.afterTaskHook i .top)
  | woke {i : ℕ} (hat : s.pool.threads[i]? = some .asleep) : Did s (.wake i) (s.moved s.pool i .top)
  | stop (hidle : s.destructor = .idle) :
      Did s .stop { s with pool := { s.pool with isPoolStoped := true }, destructor := .stopping }
  | notifyAll (hstopping : s.destructor = .stopping) : Did s .notifyAll { s with
      pool := { s.pool with threads := s.pool.threads.map WaitLoop.notified }
      destructor := .joining 0 }
  | join {joined : ℕ} (hjoining : s.destructor = .joining joined)
      (hat : s.pool.threads[joined]? = some .returned) :
      Did s .join { s with destructor := .joining (joined + 1) }

lemma did_of_turn {i : ℕ} (h : s.turn i = some s') : s.Did (.turn i) s' := by
  unfold turn at h
  split at h
  next hat =>
    cases htasks : s.pool.tasks with
    | nil =>
      cases hstop : s.pool.isPoolStoped with
      | false =>
        rw [ThreadPool.take_of_running htasks hstop, Option.some.injEq] at h
        subst h
        simp only [WaitLoop.inHand, Option.toList_none, List.append_nil]
        exact .slept hat htasks hstop
      | true =>
        rw [ThreadPool.take_of_stopped htasks hstop, Option.some.injEq] at h
        subst h
        simp only [WaitLoop.inHand, Option.toList_none, List.append_nil]
        exact .returned hat htasks hstop
    | cons payload rest =>
      rw [ThreadPool.take_of_cons htasks, Option.some.injEq] at h
      subst h
      exact .took hat htasks
  next payload hat =>
    cases h
    exact .ran hat
  next hat =>
    cases h
    exact .after hat
  next => cases h

lemma did_of_step (h : s.step e = some s') : s.Did e s' := by
  cases e with
  | enqueue task woken =>
    simp only [step] at h
    cases hstop : s.pool.isPoolStoped with
    | true =>
      rw [ThreadPool.enqueue_of_stopped hstop] at h
      cases h
      exact .refused hstop
    | false =>
      rw [ThreadPool.enqueue_of_running hstop] at h
      obtain ⟨pool, hwoken, rfl⟩ := Option.map_eq_some_iff.mp h
      rcases ThreadPool.notifyOne_cases hwoken with ⟨hnone, rfl⟩ | ⟨i, hat, rfl⟩
      · exact .accepted hstop hnone
      · exact .notified hstop hat
  | turn i => exact did_of_turn h
  | wake i =>
    simp only [step] at h
    split at h
    next hat =>
      cases h
      exact .woke hat
    next => cases h
  | stop =>
    simp only [step] at h
    split at h
    next hidle =>
      cases h
      exact .stop hidle
    next => cases h
  | notifyAll =>
    simp only [step] at h
    split at h
    next hstopping =>
      cases h
      exact .notifyAll hstopping
    next => cases h
  | join =>
    simp only [step] at h
    split at h
    next joined hjoining =>
      split at h
      next hat =>
        cases h
        exact .join hjoining hat
      next => cases h
    next => cases h

/-! ### Where an accepted task is -/

/-- The tasks in the hands of the threads. -/
def inHands (s : PoolRun Task) : List (Payload Task) := s.pool.threads.filterMap WaitLoop.inHand

/-- The tasks are popped in the order in which they were accepted. -/
lemma Did.order (hd : s.Did e s') (h : s.dequeued ++ s.pool.tasks = s.accepted) :
    s'.dequeued ++ s'.pool.tasks = s'.accepted := by
  cases hd with
  | accepted | notified =>
    show s.dequeued ++ (s.pool.tasks ++ _) = s.accepted ++ _
    rw [← List.append_assoc, h]
  | @took _ payload rest _ htasks =>
    show (s.dequeued ++ [payload]) ++ rest = s.accepted
    rw [List.append_assoc, List.singleton_append, ← htasks, h]
  | refused | slept | returned | ran | after | woke | stop | notifyAll | join => exact h

lemma Did.numbers (hd : s.Did e s')
    (h : s.accepted.map Payload.number = List.range s.accepted.length) :
    s'.accepted.map Payload.number = List.range s'.accepted.length := by
  cases hd with
  | accepted | notified =>
    show (s.accepted ++ [_]).map Payload.number = List.range (s.accepted ++ [_]).length
    rw [List.map_append, h, List.length_append, List.length_singleton, List.range_succ]
    rfl
  | refused | slept | returned | took | ran | after | woke | stop | notifyAll | join => exact h

/-- A thread that has a task in its hands neither before nor after its step leaves the tasks where they
are. -/
lemma inHands_moved {p : ThreadPool Task} {i : ℕ} {w w' : WaitLoop Task}
    (hat : s.pool.threads[i]? = some w) (hw : w.inHand = none) (hw' : w'.inHand = none) :
    (s.moved p i w').inHands.Perm s.inHands := by
  have hperm := filterMap_set_perm hat w' WaitLoop.inHand
  rwa [hw, hw'] at hperm

/-- A popped task is in the hands of a thread or has been run. -/
lemma Did.hand (hd : s.Did e s') (h : (s.done ++ s.inHands).Perm s.dequeued) :
    (s'.done ++ s'.inHands).Perm s'.dequeued := by
  cases hd with
  | refused | accepted | stop | join => exact h
  | notified _ hat | slept hat | returned hat | after hat | woke hat =>
    exact ((inHands_moved hat rfl rfl).append_left s.done).trans h
  | @took i payload _ hat _ =>
    have hperm : (s.pool.threads.set i (.taken payload)).filterMap WaitLoop.inHand |>.Perm
        (payload :: s.inHands) := filterMap_set_perm hat (.taken payload) WaitLoop.inHand
    refine (hperm.append_left s.done).trans ?_
    refine List.perm_middle.trans ((h.cons payload).trans ?_)
    exact (List.perm_append_singleton payload s.dequeued).symm
  | @ran i payload hat =>
    have hperm : (payload :: (s.pool.threads.set i .ran).filterMap WaitLoop.inHand).Perm s.inHands :=
      filterMap_set_perm hat .ran WaitLoop.inHand
    show ((s.done ++ [payload]) ++ _).Perm s.dequeued
    rw [List.append_assoc]
    exact (hperm.append_left s.done).trans h
  | notifyAll =>
    have hsame : (s.pool.threads.map WaitLoop.notified).filterMap WaitLoop.inHand = s.inHands := by
      rw [List.filterMap_map, WaitLoop.inHand_comp_notified]
      rfl
    show (s.done ++ (s.pool.threads.map WaitLoop.notified).filterMap WaitLoop.inHand).Perm s.dequeued
    rwa [hsame]

/-! ### The number of active threads -/

/-- The counter of the active threads, and the threads that there are. -/
structure Counted (p : ThreadPool Task) : Prop where
  active : p.numActiveThreads.toNat = p.threads.countP WaitLoop.active
  length : p.threads.length = p.capacity.toNat

lemma counted_moved {p p' : ThreadPool Task} (h : Counted p) {i : ℕ} {w w' : WaitLoop Task}
    (hat : p.threads[i]? = some w) (hthreads : p'.threads = p.threads.set i w')
    (hcapacity : p'.capacity = p.capacity) (hactive : p'.numActiveThreads.toNat
      + (if w.active then 1 else 0) = p.numActiveThreads.toNat + if w'.active then 1 else 0) :
    Counted p' := by
  have hcount := countP_set_add hat w' WaitLoop.active
  refine ⟨?_, ?_⟩
  · rw [hthreads]
    have := h.active
    omega
  · rw [hthreads, List.length_set, hcapacity, h.length]

lemma Counted.lt_of_inactive {p : ThreadPool Task} (h : Counted p) {w : WaitLoop Task}
    (hmem : w ∈ p.threads) (hw : w.active = false) : p.numActiveThreads.toNat < p.capacity.toNat := by
  have hlt : p.threads.countP WaitLoop.active < p.threads.length := by
    refine Nat.lt_of_le_of_ne List.countP_le_length fun heq => ?_
    rw [List.countP_eq_length.mp heq w hmem] at hw
    cases hw
  rw [h.active, ← h.length]
  exact hlt

lemma Did.counted (hd : s.Did e s') (h : Counted s.pool) : Counted s'.pool := by
  cases hd with
  | refused | join => exact h
  | accepted | stop => exact ⟨h.active, h.length⟩
  | notified _ hat | slept hat | returned hat | ran hat | woke hat =>
    exact counted_moved h hat rfl rfl rfl
  | took hat _ =>
    refine counted_moved h hat rfl rfl ?_
    have hlt := h.lt_of_inactive (List.mem_of_getElem? hat) rfl
    have hcapacity := s.pool.capacity.toNat_lt
    show (s.pool.numActiveThreads + 1).toNat + 0 = s.pool.numActiveThreads.toNat + 1
    rw [UInt32.toNat_add, UInt32.toNat_one]
    omega
  | after hat =>
    refine counted_moved h hat rfl rfl ?_
    have hpos : 0 < s.pool.threads.countP WaitLoop.active :=
      List.countP_pos_iff.mpr ⟨_, List.mem_of_getElem? hat, rfl⟩
    rw [← h.active] at hpos
    have hle : 1 ≤ s.pool.numActiveThreads := UInt32.le_iff_toNat_le.mpr hpos
    show (s.pool.numActiveThreads - 1).toNat + 1 = s.pool.numActiveThreads.toNat + 0
    rw [UInt32.toNat_sub_of_le _ _ hle, UInt32.toNat_one]
    omega
  | notifyAll =>
    refine ⟨?_, ?_⟩
    · show s.pool.numActiveThreads.toNat = (s.pool.threads.map WaitLoop.notified).countP _
      rw [List.countP_map, WaitLoop.active_comp_notified, h.active]
    · show (s.pool.threads.map WaitLoop.notified).length = s.pool.capacity.toNat
      rw [List.length_map, h.length]

/-! ### The ends of the threads -/

/-- `wait_loop` ends only in a pool that is stopped and has nothing in the queue. -/
def Drained (s : PoolRun Task) : Prop :=
  .returned ∈ s.pool.threads → s.pool.isPoolStoped = true ∧ s.pool.tasks = []

lemma Did.drained (hd : s.Did e s') (h : s.Drained) : s'.Drained := by
  intro hmem
  cases hd with
  | refused | join => exact h hmem
  | accepted hstop =>
    rw [(h hmem).1] at hstop
    cases hstop
  | notified hstop =>
    rw [(h (mem_of_mem_set hmem nofun)).1] at hstop
    cases hstop
  | slept | ran | after | woke => exact h (mem_of_mem_set hmem nofun)
  | returned _ htasks hstop => exact ⟨hstop, htasks⟩
  | took _ htasks =>
    rw [(h (mem_of_mem_set hmem nofun)).2] at htasks
    cases htasks
  | stop => exact ⟨rfl, (h hmem).2⟩
  | notifyAll =>
    obtain ⟨w, hw, hnotified⟩ := List.mem_map.mp hmem
    cases w with
    | returned => exact h hw
    | top | asleep | taken | ran => cases hnotified

lemma Did.stopped (hd : s.Did e s') (h : s.destructor ≠ .idle → s.pool.isPoolStoped = true) :
    s'.destructor ≠ .idle → s'.pool.isPoolStoped = true := by
  cases hd with
  | stop => exact fun _ => rfl
  | notifyAll hstopping => exact fun _ => h (by rw [hstopping]; nofun)
  | join hjoining => exact fun _ => h (by rw [hjoining]; nofun)
  | refused | accepted | notified | slept | returned | took | ran | after | woke => exact h

lemma Did.capacity (hd : s.Did e s') : s'.pool.capacity = s.pool.capacity := by
  cases hd <;> rfl

/-- The destructor has joined threads whose `wait_loop` has ended. -/
def JoinedEnded (s : PoolRun Task) : Prop :=
  ∀ joined, s.destructor = .joining joined → ∀ i < joined, s.pool.threads[i]? = some .returned

lemma JoinedEnded.set (h : s.JoinedEnded) {i joined : ℕ} {w : WaitLoop Task} (w' : WaitLoop Task)
    (hat : s.pool.threads[i]? = some w) (hw : w ≠ .returned) (hd : s.destructor = .joining joined) :
    ∀ j < joined, (s.pool.threads.set i w')[j]? = some .returned := by
  intro j hj
  have hold := h joined hd j hj
  have hne : i ≠ j := by
    rintro rfl
    rw [hat, Option.some.injEq] at hold
    exact hw hold
  rwa [List.getElem?_set_ne hne]

lemma Did.joinedEnded (hd : s.Did e s') (h : s.JoinedEnded) : s'.JoinedEnded := by
  intro joined hjoined
  cases hd with
  | refused | accepted => exact h joined hjoined
  | notified _ hat | slept hat | returned hat | took hat | ran hat | after hat | woke hat =>
    exact h.set _ hat nofun hjoined
  | stop => cases hjoined
  | notifyAll =>
    cases hjoined
    exact fun i hi => absurd hi (Nat.not_lt_zero i)
  | join hjoining hat =>
    cases hjoined
    intro i hi
    rcases Nat.lt_succ_iff_lt_or_eq.mp hi with hlt | rfl
    · exact h _ hjoining i hlt
    · exact hat

/-- While a thread sleeps, there are as many others about to test the predicate as there are tasks. -/
def Awake (s : PoolRun Task) : Prop :=
  .asleep ∈ s.pool.threads → s.pool.tasks.length ≤ s.pool.threads.countP WaitLoop.isTop

lemma Awake.set (h : s.Awake) {i n : ℕ} {w w' : WaitLoop Task} (hat : s.pool.threads[i]? = some w)
    (hw' : .asleep ≠ w') (hn : n + (if w.isTop then 1 else 0)
      ≤ s.pool.tasks.length + if w'.isTop then 1 else 0)
    (hmem : .asleep ∈ s.pool.threads.set i w') :
    n ≤ (s.pool.threads.set i w').countP WaitLoop.isTop := by
  have hle := h (mem_of_mem_set hmem hw')
  have hcount := countP_set_add hat w' WaitLoop.isTop
  omega

lemma Did.awake (hd : s.Did e s') (h : s.Awake) : s'.Awake := by
  intro hmem
  cases hd with
  | refused | stop | join => exact h hmem
  | accepted _ hnone => exact absurd hmem hnone
  | notified _ hat => exact h.set hat nofun (Nat.le_of_eq List.length_append) hmem
  | slept _ htasks | returned _ htasks =>
    show s.pool.tasks.length ≤ _
    rw [htasks]
    exact Nat.zero_le _
  | took hat htasks => exact h.set hat nofun (by rw [htasks]; exact Nat.le_refl _) hmem
  | ran hat => exact h.set hat nofun (Nat.le_refl _) hmem
  | after hat | woke hat => exact h.set hat nofun (Nat.le_succ _) hmem
  | notifyAll =>
    obtain ⟨w, -, hnotified⟩ := List.mem_map.mp hmem
    cases w <;> cases hnotified

/-! ### The steps that the threads can still make -/

/-- What the threads can do when no task is added: the steps of each, and three for each task. -/
def work (s : PoolRun Task) : ℕ :=
  3 * s.pool.tasks.length + (s.pool.threads.map WaitLoop.left).sum

lemma work_set {i n : ℕ} {w w' : WaitLoop Task} (hat : s.pool.threads[i]? = some w)
    (hlt : w'.left + 3 * n < w.left + 3 * s.pool.tasks.length) :
    3 * n + ((s.pool.threads.set i w').map WaitLoop.left).sum < s.work := by
  have hsum := sum_set_add hat w' WaitLoop.left
  unfold work
  omega

lemma work_turn {i : ℕ} (h : s.turn i = some s') : s'.work < s.work := by
  cases did_of_turn h with
  | slept hat | returned hat | ran hat | after hat =>
    exact work_set hat (Nat.add_lt_add_right (Nat.lt_succ_self _) _)
  | @took _ payload rest hat htasks =>
    refine work_set (n := rest.length) hat ?_
    rw [htasks, List.length_cons]
    show 3 + _ < 1 + _
    omega

/-- The threads come to rest: the turns that they can make without a new task are at most `work`. -/
lemma length_le_work {turns : List ℕ} (h : turns.foldlM turn s = some s') :
    turns.length + s'.work ≤ s.work := by
  induction turns generalizing s with
  | nil =>
    cases h
    exact Nat.le_of_eq (Nat.zero_add _)
  | cons i turns ih =>
    rw [List.foldlM_cons] at h
    obtain ⟨s₁, hturn, hrest⟩ := Option.bind_eq_some_iff.mp h
    have hlt := work_turn hturn
    have hle := ih hrest
    rw [List.length_cons]
    omega

/-! ### Every run -/

/-- What holds of a pool, its destructor and the tasks, after any steps. -/
structure Inv (s : PoolRun Task) : Prop where
  order : s.dequeued ++ s.pool.tasks = s.accepted
  numbers : s.accepted.map Payload.number = List.range s.accepted.length
  hand : (s.done ++ s.inHands).Perm s.dequeued
  counted : Counted s.pool
  drained : s.Drained
  stopped : s.destructor ≠ .idle → s.pool.isPoolStoped = true
  joinedEnded : s.JoinedEnded
  awake : s.Awake

lemma Init.inv (h : Init capacity_ s) : s.Inv := by
  cases h
  have hmem : ∀ {w : WaitLoop Task}, w ∈ List.replicate capacity_.toUInt32.toNat .top → w = .top :=
    fun hmem => List.eq_of_mem_replicate hmem
  refine ⟨rfl, rfl, ?_, ⟨?_, List.length_replicate⟩, fun hw => ?_,
    fun hidle => absurd rfl hidle, nofun, fun hw => ?_⟩
  · have hnone : (List.replicate capacity_.toUInt32.toNat WaitLoop.top).filterMap
        (WaitLoop.inHand : WaitLoop Task → _) = [] :=
      List.filterMap_eq_nil_iff.mpr fun w hw => by rw [hmem hw]; rfl
    exact List.Perm.of_eq hnone
  · refine (List.countP_eq_zero.mpr fun w hw => ?_).symm
    rw [hmem hw]
    exact Bool.false_ne_true
  · cases hmem hw
  · cases hmem hw

lemma inv_of_reach (h : Reach (Init capacity_) step ok s) : s.Inv := by
  refine h.invariant (I := Inv) (fun _ h₀ => Init.inv h₀) fun s e s' _ hi _ hs => ?_
  have hd := did_of_step hs
  exact ⟨hd.order hi.order, hd.numbers hi.numbers, hd.hand hi.hand, hd.counted hi.counted,
    hd.drained hi.drained, hd.stopped hi.stopped, hd.joinedEnded hi.joinedEnded, hd.awake hi.awake⟩

lemma capacity_of_reach (h : Reach (Init capacity_) step ok s) :
    s.pool.capacity = capacity_.toUInt32 := by
  refine h.invariant (I := fun s => s.pool.capacity = capacity_.toUInt32) ?_ fun s e s' _ hi _ hs =>
    (did_of_step hs).capacity.trans hi
  rintro _ rfl
  rfl

/-- An accepted task is run, in the hands of a thread or in the queue. -/
lemma Inv.perm_accepted (h : s.Inv) : ((s.done ++ s.inHands) ++ s.pool.tasks).Perm s.accepted := by
  rw [← h.order]
  exact h.hand.append_right _

lemma runs_eq_count (payload : Payload Task) :
    s.runs payload = (s.done.map Payload.number).count payload.number := by
  rw [runs, List.count, List.countP_map]
  rfl

lemma Inv.runs_le_one (h : s.Inv) (payload : Payload Task) : s.runs payload ≤ 1 := by
  have hperm := h.perm_accepted.map Payload.number
  rw [h.numbers, List.append_assoc, List.map_append] at hperm
  have hnodup : (s.done.map Payload.number).Nodup :=
    (List.nodup_append.mp (hperm.nodup_iff.mpr List.nodup_range)).1
  rw [runs_eq_count]
  exact List.nodup_iff_count_le_one.mp hnodup _

/-- With nothing in the queue and in the hands of the threads all has been run. -/
lemma Inv.runs_eq_one (h : s.Inv) (htasks : s.pool.tasks = []) (hhands : s.inHands = [])
    {payload : Payload Task} (hmem : payload ∈ s.accepted) : s.runs payload = 1 := by
  have hperm := h.perm_accepted.map Payload.number
  rw [htasks, hhands, List.append_nil, List.append_nil] at hperm
  rw [runs_eq_count, hperm.count_eq, h.numbers]
  refine List.count_eq_one_of_mem List.nodup_range ?_
  rw [← h.numbers]
  exact List.mem_map_of_mem hmem

lemma Inv.exists_thread (h : s.Inv) (hcap : 1 ≤ s.pool.capacity) : ∃ w, w ∈ s.pool.threads := by
  refine List.exists_mem_of_length_pos ?_
  rw [h.counted.length]
  exact UInt32.le_iff_toNat_le.mp hcap

/-- Where a thread is that has nothing to do. -/
lemma idle_of_turn_eq_none {i : ℕ} {w : WaitLoop Task} (hat : s.pool.threads[i]? = some w)
    (hturn : s.turn i = none) : w = .asleep ∨ w = .returned := by
  rw [turn, hat] at hturn
  cases w with
  | asleep => exact .inl rfl
  | returned => exact .inr rfl
  | top | taken | ran => cases hturn

/-- When no thread has anything to do, all has been run. -/
lemma Inv.runs_of_rest (h : s.Inv) (hcap : 1 ≤ s.pool.capacity) (hrest : ∀ i, s.turn i = none)
    {payload : Payload Task} (hmem : payload ∈ s.accepted) : s.runs payload = 1 := by
  have hidle : ∀ w ∈ s.pool.threads, w = .asleep ∨ w = .returned := by
    intro w hw
    obtain ⟨i, hat⟩ := List.mem_iff_getElem?.mp hw
    exact idle_of_turn_eq_none hat (hrest i)
  have hhands : s.inHands = [] := List.filterMap_eq_nil_iff.mpr fun w hw => by
    rcases hidle w hw with rfl | rfl <;> rfl
  have htop : s.pool.threads.countP WaitLoop.isTop = 0 := List.countP_eq_zero.mpr fun w hw => by
    rcases hidle w hw with rfl | rfl <;> exact Bool.false_ne_true
  refine h.runs_eq_one ?_ hhands hmem
  obtain ⟨w, hw⟩ := h.exists_thread hcap
  rcases hidle w hw with rfl | rfl
  · have hle := h.awake hw
    rw [htop] at hle
    exact List.eq_nil_of_length_eq_zero (Nat.le_zero.mp hle)
  · exact (h.drained hw).2

/-- The destructor has joined all threads only after all has been run. -/
lemma Inv.runs_of_joined (h : s.Inv) (hcap : 1 ≤ s.pool.capacity) (hjoined : s.Joined)
    {payload : Payload Task} (hmem : payload ∈ s.accepted) : s.runs payload = 1 := by
  have hended : ∀ w ∈ s.pool.threads, w = .returned := by
    intro w hw
    obtain ⟨i, hat⟩ := List.mem_iff_getElem?.mp hw
    have hi := (List.getElem?_eq_some_iff.mp hat).1
    rw [h.joinedEnded _ hjoined i hi, Option.some.injEq] at hat
    exact hat.symm
  obtain ⟨w, hw⟩ := h.exists_thread hcap
  have hreturned : .returned ∈ s.pool.threads := hended w hw ▸ hw
  refine h.runs_eq_one (h.drained hreturned).2 (List.filterMap_eq_nil_iff.mpr fun w hw => ?_) hmem
  rw [hended w hw]
  rfl

/-- **The thread pool**, after any steps of its threads, of callers of `enqueue` and of the destructor.

* The tasks popped and those in the queue are the accepted ones, in the order they were accepted.
* No task is run twice, only popped ones are run, and when no thread has anything to do each accepted task
  has been run; the threads come to that unless more tasks are added.
* `numActiveThreads` is the number of threads between the two hooks.
* Once the destructor has set the flag, `enqueue` throws and adds nothing; when it has joined all threads,
  each accepted task has been run. -/
theorem runs_each_task_once (hcap : 1 ≤ capacity_.toUInt32)
    (h : Reach (Init capacity_) step (fun _ _ => True) s) :
    s.dequeued ++ s.pool.tasks = s.accepted ∧
    s.done ⊆ s.dequeued ∧ (∀ payload, s.runs payload ≤ 1) ∧
    ((∀ i, s.turn i = none) → ∀ payload ∈ s.accepted, s.runs payload = 1) ∧
    (∃ n, ∀ (turns : List ℕ) s', turns.foldlM turn s = some s' → turns.length ≤ n) ∧
    s.pool.numActiveThreads.toNat = s.pool.threads.countP WaitLoop.active ∧
    s.pool.numActiveThreads ≤ s.pool.capacity ∧
    (s.destructor ≠ .idle → ∀ task woken,
      s.pool.enqueue ⟨s.accepted.length, task⟩ = .error "enqueue on stopped ThreadPool" ∧
        s.step (.enqueue task woken) = some s) ∧
    (s.Joined → ∀ payload ∈ s.accepted, s.runs payload = 1) := by
  have hi := inv_of_reach h
  have hcap' : 1 ≤ s.pool.capacity := by rwa [capacity_of_reach h]
  refine ⟨hi.order, ?_, hi.runs_le_one, fun hrest _ => hi.runs_of_rest hcap' hrest, ⟨s.work, ?_⟩,
    hi.counted.active, ?_, fun hidle task woken => ?_, fun hjoined _ => hi.runs_of_joined hcap' hjoined⟩
  · exact fun payload hmem => hi.hand.subset (List.mem_append_left _ hmem)
  · intro turns s' hturns
    exact Nat.le_trans (Nat.le_add_right _ _) (length_le_work hturns)
  · rw [UInt32.le_iff_toNat_le, hi.counted.active, ← hi.counted.length]
    exact List.countP_le_length
  · have hthrow : s.pool.enqueue ⟨s.accepted.length, task⟩ = .error "enqueue on stopped ThreadPool" :=
      ThreadPool.enqueue_of_stopped (hi.stopped hidle)
    exact ⟨hthrow, by rw [step, hthrow]⟩

/-- One thread, two tasks, and the destructor. -/
theorem runs_each_task_once_joined : ∃ s : PoolRun ℕ,
    path step (fun _ _ => True) ⟨.new 1, .idle, [], [], []⟩
      [.turn 0, .enqueue 7 (some 0), .turn 0, .enqueue 7 none, .stop, .turn 0, .notifyAll, .turn 0, .turn 0,
        .turn 0, .turn 0, .turn 0, .join] = some s ∧
    s.accepted.length = 2 ∧ ∀ payload ∈ s.accepted, s.runs payload = 1 := by
  have hrun : (path step (fun _ _ => True) ⟨.new 1, .idle, [], [], []⟩
      [.turn 0, .enqueue 7 (some 0), .turn 0, .enqueue 7 none, .stop, .turn 0, .notifyAll, .turn 0, .turn 0,
        .turn 0, .turn 0, .turn 0, .join]).map (fun s : PoolRun ℕ =>
          (s.destructor, s.pool.threads.length, s.accepted.length)) = some (.joining 1, 1, 2) := by
    decide +kernel
  obtain ⟨s, hs, hf⟩ := Option.map_eq_some_iff.mp hrun
  simp only [Prod.mk.injEq] at hf
  obtain ⟨hjoining, hlength, haccepted⟩ := hf
  have hjoined : s.Joined := by rw [Joined, hjoining, hlength]
  have hcap : (1 : UInt32) ≤ (1 : UInt64).toUInt32 := by decide
  obtain ⟨-, -, -, -, -, -, -, -, hend⟩ := runs_each_task_once hcap (reach_of_path rfl hs)
  exact ⟨s, hs, haccepted, hend hjoined⟩

end PoolRun

end DistCache
