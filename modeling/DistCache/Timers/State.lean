import DistCache.Client.State
import DistCache.Lib.Sweep
import DistCache.Lib.Transition

/-!
All timers of a process: the list `pTimers`, the objects in memory, and `timer_handler` with its three loops.
The two copies of the class, in the cache and in the client, are one here.

A timer is seen by what is done to it (`next_of_step`): each loop of the handler changes every object once,
and what is done to the others, or to the list, is nothing to it.

The callbacks do not operate on timers, and `current` does not go below what an `int32_t` holds.
-/

namespace DistCache

open Lib

namespace Timer

def pause (t : Timer) : Timer := { t with running := false }

def setInterval (t : Timer) (timeoutMs : ℤ) : Timer := { t with timeout := timeoutMs, current := timeoutMs }

def setPeriodic (t : Timer) (isPeriodic : Bool) : Timer := { t with periodic := isPeriodic }

end Timer

/-- A `Timer` with its callback, if it has one, and the pointer that the callback is given. -/
structure TimerObject (F : Type) extends Timer where
  callback : Option F
  pData : ℕ

/-- A callback that `timer_handler` runs for a timer, and its argument. -/
structure CallbackRun (F : Type) where
  timer : ℕ
  callback : F
  pData : ℕ
  deriving DecidableEq

/-- The static members, and what the memory holds at each address. -/
structure Timers (F : Type) where
  pTimers : List ℕ
  initialized : Bool
  object : ℕ → TimerObject F

/-- The public functions of a timer, apart from its constructors and its destructor. -/
inductive TimerOp (F : Type) where
  | start
  | stop
  | reset
  | pause
  | setInterval (timeoutMs : ℤ)
  | setPeriodic (isPeriodic : Bool)
  | setCallback (callback : Option F)
  | setData (data : Option ℕ)

/-- What happens to the timers. -/
inductive TimerEvent (F : Type) where
  | create (this : ℕ) (timeoutMs : ℤ) (periodic : Bool) (callback : Option F) (data : Option ℕ)
  | destroy (this : ℕ)
  | op (this : ℕ) (o : TimerOp F)
  | tick

variable {F : Type}

namespace TimerObject

/-- `setData`: without data it is the timer itself. -/
def setData (t : TimerObject F) (this : ℕ) (data : Option ℕ) : TimerObject F :=
  { t with pData := data.getD this }

/-- A call of a public function. -/
def apply (t : TimerObject F) (this : ℕ) : TimerOp F → TimerObject F
  | .start => { t with toTimer := t.toTimer.start }
  | .stop => { t with toTimer := t.toTimer.stop }
  | .reset => { t with toTimer := t.toTimer.reset }
  | .pause => { t with toTimer := t.toTimer.pause }
  | .setInterval timeoutMs => { t with toTimer := t.toTimer.setInterval timeoutMs }
  | .setPeriodic isPeriodic => { t with toTimer := t.toTimer.setPeriodic isPeriodic }
  | .setCallback callback => { t with callback := callback }
  | .setData data => t.setData this data

/-- The timer is put on `callbackList`. -/
def expires (t : TimerObject F) : Bool := t.toTimer.fires && t.callback.isSome

/-- The callback of the timer at `this`. -/
def run (t : TimerObject F) (this : ℕ) : Option (CallbackRun F) := t.callback.map (⟨this, ·, t.pData⟩)

end TimerObject

namespace Timers

/-- `createTimer`, on an object whose members hold what the memory does. -/
def createTimer (s : Timers F) (this : ℕ) (timeoutMs : ℤ) (periodic : Bool) (callback : Option F)
    (data : Option ℕ) : Timers F :=
  let t := ({ s.object this with
    timeout := timeoutMs, periodic := periodic, callback := callback }).setData this data
  let t := { t with current := timeoutMs }
  if s.initialized then
    { s with pTimers := s.pTimers ++ [this], object := Function.update s.object this t }
  else
    { pTimers := s.pTimers ++ [this]
      initialized := true
      object := Function.update s.object this { t with running := false } }

/-- A turn of the first loop of `timer_handler`: the timer is counted down, and collected when it comes
to 0 and has a callback. -/
def countTurn (acc : (ℕ → TimerObject F) × List ℕ) (it : ℕ) : (ℕ → TimerObject F) × List ℕ :=
  if (acc.1 it).running then
    let pTimer := { acc.1 it with current := (acc.1 it).current - 1 }
    let object := Function.update acc.1 it pTimer
    if pTimer.current = 0 then
      if pTimer.callback.isSome then (object, acc.2 ++ [it]) else (object, acc.2)
    else (object, acc.2)
  else acc

/-- A turn of the last loop: a timer at 0 starts again or stops. -/
def settleTurn (object : ℕ → TimerObject F) (it : ℕ) : ℕ → TimerObject F :=
  if (object it).running then
    if (object it).current = 0 then
      if (object it).periodic then Function.update object it { object it with current := (object it).timeout }
      else Function.update object it { object it with running := false }
    else object
  else object

/-- `callbackList`, and the objects, after the first loop. -/
def countLoop (s : Timers F) : (ℕ → TimerObject F) × List ℕ := s.pTimers.foldl countTurn (s.object, [])

/-- The callbacks that the second loop runs. -/
def runs (s : Timers F) : List (CallbackRun F) :=
  s.countLoop.2.filterMap fun it => (s.countLoop.1 it).run it

/-- `timer_handler`. -/
def timerHandler (s : Timers F) : Timers F :=
  { s with object := s.pTimers.foldl settleTurn s.countLoop.1 }

/-- What an event makes of the timers.  An address holds one object at a time, and only a live object is
operated on. -/
def step (s : Timers F) : TimerEvent F → Option (Timers F)
  | .create this timeoutMs periodic callback data =>
    if this ∈ s.pTimers then none else some (s.createTimer this timeoutMs periodic callback data)
  | .destroy this =>
    if this ∈ s.pTimers then some { s with pTimers := s.pTimers.filter (· ≠ this) } else none
  | .op this o =>
    if this ∈ s.pTimers then
      some { s with object := Function.update s.object this ((s.object this).apply this o) }
    else none
  | .tick => some s.timerHandler

/-- The timers after a run. -/
def after (s : Timers F) (es : List (TimerEvent F)) : Option (Timers F) := es.foldlM step s

/-- No timer has been constructed. -/
structure IsStart (s : Timers F) : Prop where
  pTimers : s.pTimers = []
  initialized : s.initialized = false

/-- The timers of the list are distinct objects, and `this` is one of them. -/
structure Alive (s : Timers F) (this : ℕ) : Prop where
  nodup : s.pTimers.Nodup
  mem : this ∈ s.pTimers

/-- The callbacks that a tick runs for a timer. -/
def runsOf (s : Timers F) (this : ℕ) : List (CallbackRun F) := s.runs.filter fun r => r.timer = this

end Timers

/-! ### One timer -/

namespace TimerObject

def count (t : TimerObject F) : TimerObject F := { t with toTimer := t.toTimer.count }

def settle (t : TimerObject F) : TimerObject F := { t with toTimer := t.toTimer.settle }

/-- What an event makes of the timer at `this`. -/
def next (this : ℕ) (t : TimerObject F) : TimerEvent F → TimerObject F
  | .op p o => if p = this then t.apply this o else t
  | .tick => t.count.settle
  | _ => t

variable {t : TimerObject F}

lemma expires_iff : t.expires = true ↔ (t.running = true ∧ t.current = 1) ∧ t.callback.isSome = true := by
  rw [expires, Bool.and_eq_true, Timer.fires_iff]

lemma tick_of_not_running (h : t.running = false) : t.count.settle = t := by
  have hcount : t.count = t := by
    simp [TimerObject.count, Timer.count, h]
  rw [hcount]
  simp [TimerObject.settle, Timer.settle, h]

end TimerObject

namespace Timers

variable {s s' : Timers F} {this p : ℕ} {e : TimerEvent F} {es : List (TimerEvent F)}

lemma countTurn_eq (acc : (ℕ → TimerObject F) × List ℕ) (it : ℕ) : countTurn acc it =
    (Function.update acc.1 it (acc.1 it).count,
      if (acc.1 it).expires then acc.2 ++ [it] else acc.2) := by
  unfold countTurn TimerObject.expires TimerObject.count Timer.fires Timer.count
  by_cases hrunning : (acc.1 it).running = true
  · simp only [hrunning, if_true, Bool.true_and]
    by_cases hzero : (acc.1 it).current - 1 = 0
    · cases (acc.1 it).callback <;> simp [hzero]
    · simp [hzero]
  · simp [hrunning]

lemma settleTurn_eq (object : ℕ → TimerObject F) (it : ℕ) :
    settleTurn object it = Function.update object it (object it).settle := by
  unfold settleTurn TimerObject.settle Timer.settle
  by_cases hrunning : (object it).running = true
  · by_cases hzero : (object it).current = 0
    · cases hperiodic : (object it).periodic <;> simp [hrunning, hzero, hperiodic]
    · simp [hrunning, hzero]
  · simp [hrunning]

/-! ### The handler and one timer -/

lemma countLoop_eq (h : s.pTimers.Nodup) : s.countLoop =
    (sweep TimerObject.count s.pTimers s.object, s.pTimers.filter fun it => (s.object it).expires) := by
  have hturn : countTurn = fun (acc : (ℕ → TimerObject F) × List ℕ) it =>
      (Function.update acc.1 it (acc.1 it).count, if (acc.1 it).expires then acc.2 ++ [it] else acc.2) :=
    funext₂ countTurn_eq
  rw [countLoop, hturn]
  exact sweepCollect_eq _ h

/-- The objects after a tick: the two loops one after the other. -/
lemma object_timerHandler_eq (h : s.pTimers.Nodup) : s.timerHandler.object =
    sweep TimerObject.settle s.pTimers (sweep TimerObject.count s.pTimers s.object) := by
  have hturn : settleTurn = fun (object : ℕ → TimerObject F) it =>
      Function.update object it (object it).settle := funext₂ settleTurn_eq
  rw [timerHandler, countLoop_eq h, hturn]
  rfl

lemma object_timerHandler (h : s.Alive this) :
    s.timerHandler.object this = (s.object this).count.settle := by
  rw [object_timerHandler_eq h.nodup, sweep_of_mem h.nodup h.mem, sweep_of_mem h.nodup h.mem]

lemma object_timerHandler_of_not_mem (h : s.pTimers.Nodup) (hp : p ∉ s.pTimers) :
    s.timerHandler.object p = s.object p := by
  rw [object_timerHandler_eq h, sweep_of_not_mem hp, sweep_of_not_mem hp]

/-- The first loop leaves the callbacks. -/
lemma runs_eq (h : s.pTimers.Nodup) : s.runs =
    (s.pTimers.filter fun it => (s.object it).expires).filterMap fun it => (s.object it).run it := by
  have hrun (it : ℕ) : (sweep TimerObject.count s.pTimers s.object it).run it = (s.object it).run it := by
    by_cases hit : it ∈ s.pTimers
    · rw [sweep_of_mem h hit]
      rfl
    · rw [sweep_of_not_mem hit]
  rw [runs, countLoop_eq h]
  simp only [hrun]

/-- A tick runs the callback of a timer once if the timer expires, and else not. -/
lemma runsOf_eq (h : s.Alive this) :
    s.runsOf this = if (s.object this).expires then ((s.object this).run this).toList else [] := by
  have hother {l : List ℕ} (hl : this ∉ l) : (((l.filter fun it => (s.object it).expires).filterMap
      fun it => (s.object it).run it).filter fun r => r.timer = this) = [] := by
    rw [List.filter_eq_nil_iff]
    intro r hr
    obtain ⟨it, hit, hrun⟩ := List.mem_filterMap.mp hr
    obtain ⟨f, -, rfl⟩ := Option.map_eq_some_iff.mp hrun
    simpa using ne_of_mem_of_not_mem (List.mem_of_mem_filter hit) hl
  obtain ⟨l₁, l₂, hl⟩ := List.append_of_mem h.mem
  have hnodup := h.nodup
  rw [hl, List.nodup_append, List.nodup_cons] at hnodup
  obtain ⟨-, ⟨hright, -⟩, hapart⟩ := hnodup
  have hleft : this ∉ l₁ := fun hmem => hapart this hmem this List.mem_cons_self rfl
  rw [runsOf, runs_eq h.nodup, hl, List.filter_append, List.filterMap_append, List.filter_append,
    hother hleft, List.nil_append, List.filter_cons]
  split_ifs
  · rw [List.filterMap_cons]
    unfold TimerObject.run
    cases (s.object this).callback with
    | none => exact hother hright
    | some f =>
      dsimp only [Option.map_some]
      rw [List.filter_cons_of_pos (by simp)]
      exact congrArg _ (hother hright)
  · exact hother hright

lemma runsOf_of_stopped (h : s.Alive this) (hstopped : (s.object this).running = false) :
    s.runsOf this = [] := by
  rw [runsOf_eq h, if_neg]
  rw [TimerObject.expires_iff, hstopped]
  simp

end Timers

/-! ### Runs -/

def TimerEvent.isTick : TimerEvent F → Bool
  | .tick => true
  | _ => false

namespace Timers

/-- The states of a run in which a tick comes. -/
def tickStates : Timers F → List (TimerEvent F) → List (Timers F)
  | _, [] => []
  | s, e :: es =>
    match step s e with
    | some s' => if e.isTick then s :: tickStates s' es else tickStates s' es
    | none => []

/-- The number of ticks of a run during which a timer is running. -/
def ticksRunning (s : Timers F) (this : ℕ) (es : List (TimerEvent F)) : ℕ :=
  (s.tickStates es).countP fun s => (s.object this).running

/-- What each tick of a run runs for a timer. -/
def runsAtTicks (s : Timers F) (this : ℕ) (es : List (TimerEvent F)) : List (List (CallbackRun F)) :=
  (s.tickStates es).map fun s => s.runsOf this

end Timers

/-- What happens to the timer itself is `start` and `pause`, and ticks. -/
def TimerEvent.KeepsTo (this : ℕ) : TimerEvent F → Prop
  | .destroy p => p ≠ this
  | .op p o => p = this → o = .start ∨ o = .pause
  | _ => True

/-- The event is a tick, or is done to the timer. -/
def TimerEvent.concerns (this : ℕ) : TimerEvent F → Bool
  | .create .. => false
  | .destroy p => p = this
  | .op p _ => p = this
  | .tick => true

namespace Timers

variable {s s' : Timers F} {this p : ℕ} {e : TimerEvent F} {es : List (TimerEvent F)}

lemma tickStates_cons (hs : step s e = some s') (es : List (TimerEvent F)) : s.tickStates (e :: es) =
    if e.isTick then s :: s'.tickStates es else s'.tickStates es := by
  rw [tickStates, hs]

lemma step_of_after {t : Timers F} (h : s.after (e :: es) = some t) :
    ∃ s', step s e = some s' ∧ s'.after es = some t := by
  rw [after, List.foldlM_cons] at h
  exact Option.bind_eq_some_iff.mp h

/-- A constructor makes a new timer of the list. -/
lemma createTimer_spec (s : Timers F) (this : ℕ) (timeoutMs : ℤ) (periodic : Bool) (callback : Option F)
    (data : Option ℕ) : (s.createTimer this timeoutMs periodic callback data).pTimers = s.pTimers ++ [this] ∧
    (s.createTimer this timeoutMs periodic callback data).initialized = true ∧
    (∀ p, p ≠ this → (s.createTimer this timeoutMs periodic callback data).object p = s.object p) ∧
    ((s.createTimer this timeoutMs periodic callback data).object this).running =
      (s.initialized && (s.object this).running) := by
  unfold createTimer
  dsimp only
  split_ifs with hinit
  · refine ⟨rfl, hinit, fun p hp => Function.update_of_ne hp _ _, ?_⟩
    simp [TimerObject.setData, hinit]
  · refine ⟨rfl, rfl, fun p hp => Function.update_of_ne hp _ _, ?_⟩
    simp [hinit]

/-- A step leaves no timer twice in the list. -/
lemma nodup_of_step (h : s.pTimers.Nodup) (hs : step s e = some s') : s'.pTimers.Nodup := by
  cases e with
  | create p timeoutMs periodic callback data =>
    rw [step] at hs
    split_ifs at hs with hmem
    cases hs
    rw [(s.createTimer_spec p timeoutMs periodic callback data).1, List.nodup_append]
    refine ⟨h, List.nodup_singleton p, fun a ha b hb => ?_⟩
    rw [List.mem_singleton.mp hb]
    exact ne_of_mem_of_not_mem ha hmem
  | destroy p =>
    rw [step] at hs
    split_ifs at hs
    cases hs
    exact h.filter _
  | op p o =>
    rw [step] at hs
    split_ifs at hs
    cases hs
    exact h
  | tick =>
    cases hs
    exact h

/-- **One timer.**  A step does to a timer what is done to it. -/
lemma next_of_step (h : s.Alive this) (hs : step s e = some s') (hkeep : e.KeepsTo this) :
    s'.Alive this ∧ s'.object this = (s.object this).next this e := by
  have hnodup := nodup_of_step h.nodup hs
  cases e with
  | create p timeoutMs periodic callback data =>
    rw [step] at hs
    split_ifs at hs with hmem
    cases hs
    obtain ⟨hlist, -, hobject, -⟩ := s.createTimer_spec p timeoutMs periodic callback data
    have hne : this ≠ p := ne_of_mem_of_not_mem h.mem hmem
    refine ⟨⟨hnodup, ?_⟩, hobject this hne⟩
    rw [hlist]
    exact List.mem_append_left _ h.mem
  | destroy p =>
    rw [step] at hs
    split_ifs at hs
    cases hs
    exact ⟨⟨hnodup, List.mem_filter.mpr ⟨h.mem, by simpa using hkeep.symm⟩⟩, rfl⟩
  | op p o =>
    rw [step] at hs
    split_ifs at hs
    cases hs
    refine ⟨⟨hnodup, h.mem⟩, ?_⟩
    rw [TimerObject.next]
    split_ifs with hp
    · subst hp
      exact Function.update_self _ _ _
    · exact Function.update_of_ne (Ne.symm hp) _ _
  | tick =>
    cases hs
    exact ⟨⟨hnodup, h.mem⟩, object_timerHandler h⟩

/-- The list of a run from the start has no timer twice. -/
lemma nodup_of_reach (h : Reach IsStart step (fun (_ : Timers F) _ => True) s) : s.pTimers.Nodup := by
  refine h.invariant (I := fun s => s.pTimers.Nodup) ?_ ?_
  · intro s hs
    rw [hs.pTimers]
    exact List.nodup_nil
  · rintro s e s' - hnodup - hs
    exact nodup_of_step hnodup hs

/-- A process whose memory says of every timer that it runs, before any is constructed. -/
def garbage : Timers Unit := ⟨[], false, fun _ => ⟨⟨0, false, true, 0⟩, none, 0⟩⟩

lemma isStart_garbage : garbage.IsStart := ⟨rfl, rfl⟩

end Timers

end DistCache
