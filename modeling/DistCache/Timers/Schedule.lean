import DistCache.Timers.State

/-!
When a timer fires.

Between two ticks that it fires at, a timer that is only started and paused runs for as many ticks as its
`timeout` says: what is left in `current` and the ticks that it has run make a multiple of `timeout`
(`OnTime`).
-/

namespace DistCache

open Lib

variable {F : Type} {t t' : TimerObject F} {this : ℕ} {n : ℕ} {e : TimerEvent F} {es : List (TimerEvent F)}

namespace TimerObject

/-- The members that only the functions of the timer write. -/
structure SameSetting (t t' : TimerObject F) : Prop where
  timeout : t'.timeout = t.timeout
  periodic : t'.periodic = t.periodic
  callback : t'.callback = t.callback
  pData : t'.pData = t.pData

/-- After `n` ticks during which it ran. -/
structure OnTime (t : TimerObject F) (n : ℕ) : Prop where
  pos : 0 < t.current
  le : t.current ≤ t.timeout
  dvd : t.timeout ∣ n + t.current

lemma SameSetting.refl (t : TimerObject F) : SameSetting t t := ⟨rfl, rfl, rfl, rfl⟩

lemma SameSetting.trans {t'' : TimerObject F} (h : SameSetting t t') (h' : SameSetting t' t'') :
    SameSetting t t'' :=
  ⟨h'.timeout.trans h.timeout, h'.periodic.trans h.periodic, h'.callback.trans h.callback,
    h'.pData.trans h.pData⟩

lemma SameSetting.run (h : SameSetting t t') (this : ℕ) : t'.run this = t.run this := by
  rw [TimerObject.run, TimerObject.run, h.callback, h.pData]

/-- At the last tick of its time the timer expires. -/
lemma OnTime.current_eq_one_iff (h : t.OnTime n) : t.current = 1 ↔ t.timeout ∣ n + 1 := by
  constructor
  · intro hone
    have hdvd := h.dvd
    rwa [hone] at hdvd
  · intro hdvd
    have hdiff : t.timeout ∣ t.current - 1 := by
      have hsub := Int.dvd_sub h.dvd hdvd
      rwa [add_sub_add_left_eq_sub] at hsub
    have hpos := h.pos
    have hle := h.le
    have hzero := Int.eq_zero_of_dvd_of_nonneg_of_lt (by omega) (by omega) hdiff
    omega

lemma next_of_not_tick (hkeep : e.KeepsTo this) (htick : e.isTick = false) :
    SameSetting t (t.next this e) ∧ (t.next this e).current = t.current := by
  cases e with
  | create => exact ⟨.refl t, rfl⟩
  | destroy => exact ⟨.refl t, rfl⟩
  | tick => cases htick
  | op p o =>
    rw [next]
    split_ifs with hp
    · obtain rfl | rfl := hkeep hp
      · exact ⟨⟨rfl, rfl, rfl, rfl⟩, rfl⟩
      · exact ⟨⟨rfl, rfl, rfl, rfl⟩, rfl⟩
    · exact ⟨.refl t, rfl⟩

lemma sameSetting_tick (t : TimerObject F) : SameSetting t t.count.settle := by
  refine ⟨?_, ?_, rfl, rfl⟩
  · exact Timer.tick_timeout
  · exact Timer.tick_periodic

/-- A tick during which the timer runs.  One that fires once must not have come to its time. -/
lemma OnTime.tick (h : t.OnTime n) (hrunning : t.running = true)
    (honce : t.periodic = false → n + 1 < t.timeout) : t.count.settle.OnTime (n + 1) := by
  have hpos := h.pos
  have hle := h.le
  have hset := sameSetting_tick t
  by_cases hone : t.current = 1
  · have hdvd := h.current_eq_one_iff.mp hone
    have hperiodic : t.periodic = true := by
      by_contra hnot
      have hlt := honce (Bool.eq_false_iff.mpr hnot)
      have hge := Int.le_of_dvd (by omega) hdvd
      omega
    have hcurrent : t.count.settle.current = t.timeout := by
      simp [TimerObject.count, TimerObject.settle, Timer.count, Timer.settle, hrunning, hone, hperiodic]
    refine ⟨?_, ?_, ?_⟩
    · rw [hcurrent]
      omega
    · rw [hcurrent, hset.timeout]
    · rw [hcurrent, hset.timeout, Nat.cast_succ]
      exact Int.dvd_add hdvd (Int.dvd_refl _)
  · have hcurrent : t.count.settle.current = t.current - 1 := by
      have hne : t.current - 1 ≠ 0 := by omega
      simp [TimerObject.count, TimerObject.settle, Timer.count, Timer.settle, hrunning, hne]
    have hsum : ((n + 1 : ℕ) : ℤ) + (t.current - 1) = n + t.current := by omega
    refine ⟨?_, ?_, ?_⟩
    · rw [hcurrent]
      omega
    · rw [hcurrent, hset.timeout]
      omega
    · rw [hcurrent, hset.timeout, hsum]
      exact h.dvd

end TimerObject

namespace Timers

variable {s s' : Timers F}

/-- What a tick runs for a timer on time. -/
lemma runsOf_of_onTime (h : s.Alive this) (hn : (s.object this).OnTime n) : s.runsOf this =
    if (s.object this).running = true ∧ (s.object this).timeout ∣ n + 1 then
      ((s.object this).run this).toList else [] := by
  have hiff : (s.object this).expires = true ↔ ((s.object this).running = true ∧
      (s.object this).timeout ∣ n + 1) ∧ (s.object this).callback.isSome = true := by
    rw [← hn.current_eq_one_iff, TimerObject.expires_iff]
  rw [runsOf_eq h]
  by_cases hone : (s.object this).running = true ∧ (s.object this).timeout ∣ n + 1
  · rw [if_pos hone]
    cases hcallback : (s.object this).callback with
    | none => simp [TimerObject.run, hcallback]
    | some f => rw [if_pos (hiff.mpr ⟨hone, by rw [hcallback]; rfl⟩)]
  · rw [if_neg hone, if_neg fun hexp => hone (hiff.mp hexp).1]

lemma ticksRunning_cons (hs : step s e = some s') (es : List (TimerEvent F)) : s.ticksRunning this (e :: es) =
    (if e.isTick = true ∧ (s.object this).running = true then 1 else 0) + s'.ticksRunning this es := by
  rw [ticksRunning, tickStates_cons hs, ticksRunning]
  by_cases htick : e.isTick = true
  · rw [if_pos htick, List.countP_cons, Nat.add_comm]
    simp [htick]
  · rw [if_neg htick]
    simp [htick]

/-- **A run.**  The timer stays on time, as long as one that fires once has not come to its time. -/
lemma onTime_after (h : s.Alive this) (hn : (s.object this).OnTime n) (hes : ∀ e ∈ es, e.KeepsTo this)
    (hrun : s.after es = some s')
    (honce : (s.object this).periodic = false →
      ((n + s.ticksRunning this es : ℕ) : ℤ) < (s.object this).timeout) :
    s'.Alive this ∧ TimerObject.SameSetting (s.object this) (s'.object this) ∧
      (s'.object this).OnTime (n + s.ticksRunning this es) := by
  induction es generalizing s n with
  | nil =>
    cases hrun
    exact ⟨h, .refl _, hn⟩
  | cons e es ih =>
    rw [List.forall_mem_cons] at hes
    obtain ⟨s₁, hs, hrest⟩ := step_of_after hrun
    obtain ⟨h₁, hobject⟩ := next_of_step h hs hes.1
    rw [ticksRunning_cons hs, ← Nat.add_assoc] at honce ⊢
    have hstep : TimerObject.SameSetting (s.object this) (s₁.object this) ∧ (s₁.object this).OnTime
        (n + if e.isTick = true ∧ (s.object this).running = true then 1 else 0) := by
      rw [hobject]
      by_cases htick : e.isTick = true
      · cases e with
        | tick =>
          refine ⟨TimerObject.sameSetting_tick _, ?_⟩
          cases hrunning : (s.object this).running with
          | true =>
            rw [if_pos ⟨htick, rfl⟩]
            refine hn.tick hrunning fun hperiodic => ?_
            have hlt := honce hperiodic
            rw [if_pos ⟨htick, hrunning⟩] at hlt
            omega
          | false =>
            have hsame : (s.object this).next this .tick = s.object this :=
              TimerObject.tick_of_not_running hrunning
            rw [if_neg (by simp), hsame]
            exact hn
        | create => cases htick
        | destroy => cases htick
        | op => cases htick
      · obtain ⟨hset, hcurrent⟩ := TimerObject.next_of_not_tick (t := s.object this) hes.1
          (Bool.eq_false_iff.mpr htick)
        rw [if_neg fun hc => htick hc.1]
        refine ⟨hset, ?_, ?_, ?_⟩
        · rw [hcurrent]
          exact hn.pos
        · rw [hcurrent, hset.timeout]
          exact hn.le
        · rw [hcurrent, hset.timeout]
          exact hn.dvd
    rw [← hstep.1.timeout, ← hstep.1.periodic] at honce
    obtain ⟨h', hset, hon⟩ := ih h₁ hstep.2 hes.2 hrest honce
    exact ⟨h', hstep.1.trans hset, hon⟩

/-! ### A timer that fires once -/

/-- A timer that does not run, and is not started. -/
lemma stopped_after (h : s.Alive this) (hstopped : (s.object this).running = false)
    (hes : ∀ e ∈ es, e.KeepsTo this) (hstart : ∀ e ∈ es, e ≠ .op this .start) (hrun : s.after es = some s') :
    s'.Alive this ∧ (s'.object this).running = false := by
  induction es generalizing s with
  | nil =>
    cases hrun
    exact ⟨h, hstopped⟩
  | cons e es ih =>
    rw [List.forall_mem_cons] at hes hstart
    obtain ⟨s₁, hs, hrest⟩ := step_of_after hrun
    obtain ⟨h₁, hobject⟩ := next_of_step h hs hes.1
    refine ih h₁ ?_ hes.2 hstart.2 hrest
    rw [hobject]
    cases e with
    | create => exact hstopped
    | destroy => exact hstopped
    | tick => exact (congrArg (fun t : TimerObject F => t.running)
        (TimerObject.tick_of_not_running hstopped)).trans hstopped
    | op p o =>
      rw [TimerObject.next]
      split_ifs with hp
      · obtain rfl | rfl := hes.1 hp
        · exact absurd (congrArg (fun q => TimerEvent.op q TimerOp.start) hp) hstart.1
        · rfl
      · exact hstopped

/-! ### The other timers -/

/-- What the ticks run for a timer alone. -/
def soloRuns (this : ℕ) : TimerObject F → List (TimerEvent F) → List (List (CallbackRun F))
  | _, [] => []
  | t, e :: es =>
    if e.isTick then (if t.expires then (t.run this).toList else []) :: soloRuns this (t.next this e) es
    else soloRuns this (t.next this e) es

lemma next_of_not_concerns (h : e.concerns this = false) (t : TimerObject F) : t.next this e = t := by
  cases e with
  | create => rfl
  | destroy => rfl
  | tick => cases h
  | op p o =>
    have hp : p ≠ this := by simpa [TimerEvent.concerns] using h
    rw [TimerObject.next, if_neg hp]

lemma concerns_of_isTick (h : e.isTick = true) : e.concerns this = true := by
  cases e with
  | tick => rfl
  | create => cases h
  | destroy => cases h
  | op => cases h

lemma runsAtTicks_eq (h : s.Alive this) (hes : ∀ e ∈ es, e.KeepsTo this) (hrun : s.after es = some s') :
    s.runsAtTicks this es = soloRuns this (s.object this) (es.filter (·.concerns this)) := by
  induction es generalizing s with
  | nil => rfl
  | cons e es ih =>
    rw [List.forall_mem_cons] at hes
    obtain ⟨s₁, hs, hrest⟩ := step_of_after hrun
    obtain ⟨h₁, hobject⟩ := next_of_step h hs hes.1
    have hnext := ih h₁ hes.2 hrest
    rw [hobject, runsAtTicks] at hnext
    rw [runsAtTicks, tickStates_cons hs]
    by_cases htick : e.isTick = true
    · rw [List.filter_cons_of_pos (concerns_of_isTick htick), soloRuns, if_pos htick, if_pos htick,
        List.map_cons, runsOf_eq h, hnext]
    · rw [if_neg htick]
      by_cases hconcerns : e.concerns this = true
      · rw [List.filter_cons_of_pos hconcerns, soloRuns, if_neg htick, hnext]
      · rw [List.filter_cons_of_neg hconcerns, hnext,
          next_of_not_concerns (Bool.eq_false_iff.mpr hconcerns)]

/-- What does not concern a timer may happen to the others. -/
lemma keepsTo_of_filter {es' : List (TimerEvent F)} (hes : ∀ e ∈ es, e.KeepsTo this)
    (hfilter : es'.filter (·.concerns this) = es.filter (·.concerns this)) : ∀ e ∈ es', e.KeepsTo this := by
  intro e he
  by_cases hconcerns : e.concerns this = true
  · have hmem : e ∈ es.filter (·.concerns this) := hfilter ▸ List.mem_filter.mpr ⟨he, hconcerns⟩
    exact hes e (List.mem_of_mem_filter hmem)
  · cases e with
    | create => trivial
    | destroy p =>
      intro hp
      exact hconcerns (by simp [TimerEvent.concerns, hp])
    | op p o =>
      intro hp
      exact absurd (by simp [TimerEvent.concerns, hp]) hconcerns
    | tick => trivial

/-! ### The schedule -/

/-- A timer that fires once has come to its time. -/
lemma stopped_timerHandler (h : s.Alive this) (hrunning : (s.object this).running = true)
    (hcurrent : (s.object this).current = 1) (honce : (s.object this).periodic = false) :
    s.timerHandler.Alive this ∧ (s.timerHandler.object this).running = false := by
  refine ⟨⟨h.nodup, h.mem⟩, ?_⟩
  rw [object_timerHandler h]
  simp [TimerObject.count, TimerObject.settle, Timer.count, Timer.settle, hrunning, hcurrent, honce]

/-- **When a timer fires.**  `es` is a run from a moment at which `current` is `timeout`, in which the timer
is started and paused, and the others are operated on in any way; `n` is the number of its ticks during which
the timer was running.  The next tick runs the callback of a periodic timer exactly when the timer is running
and the number of this tick is a multiple of `timeout`, and that of one that fires once, up to its time, when
it is running and the number is `timeout`.  That timer is then stopped, and runs no callback until it is
started.  What happens to other timers makes no difference. -/
theorem schedule (hs : Reach IsStart step (fun _ _ => True) s) (hmem : this ∈ s.pTimers)
    (htimeout : 1 ≤ (s.object this).timeout) (hcurrent : (s.object this).current = (s.object this).timeout)
    (hes : ∀ e ∈ es, e.KeepsTo this) (hrun : s.after es = some s') (hn : s.ticksRunning this es = n) :
    ((s.object this).periodic = true → s'.runsOf this =
      if (s'.object this).running = true ∧ (s.object this).timeout ∣ n + 1 then
        ((s.object this).run this).toList else []) ∧
    ((s.object this).periodic = false → (n : ℤ) < (s.object this).timeout →
      (s'.runsOf this =
        if (s'.object this).running = true ∧ (n + 1 : ℤ) = (s.object this).timeout then
          ((s.object this).run this).toList else []) ∧
      ((s'.object this).running = true → (n + 1 : ℤ) = (s.object this).timeout →
        ∀ es' s'', (∀ e ∈ es', e.KeepsTo this ∧ e ≠ .op this .start) → s'.timerHandler.after es' = some s'' →
          (s''.object this).running = false ∧ s''.runsOf this = [])) ∧
    ∀ (t t' : Timers F) (es' : List (TimerEvent F)), t.Alive this → t.object this = s.object this →
      es'.filter (·.concerns this) = es.filter (·.concerns this) → t.after es' = some t' →
      t.runsAtTicks this es' = s.runsAtTicks this es := by
  subst hn
  have h : s.Alive this := ⟨nodup_of_reach hs, hmem⟩
  have hstart : (s.object this).OnTime 0 := by
    refine ⟨by omega, hcurrent.le, ?_⟩
    rw [hcurrent, Nat.cast_zero, Int.zero_add]
  refine ⟨fun hperiodic => ?_, fun honce hlt => ?_, fun t t' es' ht hobject hfilter hrun' => ?_⟩
  · obtain ⟨h', hset, hon⟩ := onTime_after h hstart hes hrun (by simp [hperiodic])
    rw [Nat.zero_add] at hon
    rw [runsOf_of_onTime h' hon, hset.timeout, hset.run]
  · obtain ⟨h', hset, hon⟩ := onTime_after h hstart hes hrun (fun _ => by rwa [Nat.zero_add])
    rw [Nat.zero_add] at hon
    have hdvd : (s.object this).timeout ∣ s.ticksRunning this es + 1 ↔
        (s.ticksRunning this es + 1 : ℤ) = (s.object this).timeout := by
      constructor
      · intro hdvd
        have hle := Int.le_of_dvd (by omega) hdvd
        omega
      · intro heq
        rw [heq]
    have honce' : (s'.object this).periodic = false := hset.periodic.trans honce
    refine ⟨?_, fun hrunning heq es' s'' hes' hrun' => ?_⟩
    · rw [runsOf_of_onTime h' hon, hset.timeout, hset.run]
      simp only [hdvd]
    · have hone : (s'.object this).current = 1 := by
        rw [hon.current_eq_one_iff, hset.timeout]
        exact hdvd.mpr heq
      obtain ⟨halive, hstopped⟩ := stopped_timerHandler h' hrunning hone honce'
      obtain ⟨h'', hstill⟩ := stopped_after halive hstopped (fun e he => (hes' e he).1)
        (fun e he => (hes' e he).2) hrun'
      exact ⟨hstill, runsOf_of_stopped h'' hstill⟩
  · rw [runsAtTicks_eq h hes hrun, runsAtTicks_eq ht (keepsTo_of_filter hes hfilter) hrun', hobject, hfilter]

/-- Two timers, a periodic one that is started and one that is not. -/
def twoTimers : Timers Unit :=
  let s := (garbage.createTimer 0 2 true (some ()) none).createTimer 1 5 false (some ()) (some 7)
  { s with object := Function.update s.object 0 ((s.object 0).apply 0 .start) }

/-- A tick, one that passes while the timer is paused, and the second one that it runs for. -/
theorem schedule_periodic : ∃ s',
    twoTimers.after [.tick, .op 0 .pause, .op 1 .start, .tick, .op 0 .start] = some s' ∧
      s'.runsOf 0 = [⟨0, (), 0⟩] := by
  have hpath : path step (fun _ _ => True) garbage [.create 0 2 true (some ()) none,
      .create 1 5 false (some ()) (some 7), .op 0 .start] = some twoTimers := rfl
  have hes : ∀ e ∈ [TimerEvent.tick, .op 0 .pause, .op 1 .start, .tick, .op 0 (.start : TimerOp Unit)],
      e.KeepsTo 0 := by
    simp [TimerEvent.KeepsTo]
  have hreach := reach_of_path isStart_garbage hpath
  have hmem : 0 ∈ twoTimers.pTimers := by decide
  exact ⟨_, rfl, (schedule hreach hmem (by decide) (by decide) hes rfl rfl).1 rfl⟩

end Timers

end DistCache
