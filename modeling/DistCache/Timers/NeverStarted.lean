import DistCache.Timers.State

/-!
Timers that are never started.

The constructor sets `running` for the first timer only, which is the one that also installs the handler.
A later timer has whatever the memory holds there, and may run, and fire, without a `start`.
-/

namespace DistCache

open Lib

variable {F : Type} {s s' s₀ : Timers F} {p : ℕ} {e : TimerEvent F} {es : List (TimerEvent F)}

/-- The timer that is constructed. -/
def TimerEvent.creates : TimerEvent F → Option ℕ
  | .create this .. => some this
  | _ => none

/-- A construction, a start or a tick. -/
def TimerEvent.IsBasic : TimerEvent F → Prop
  | .destroy _ => False
  | .op _ o => o = .start
  | _ => True

namespace Timers

/-- The timers that are constructed in a run, the first one first. -/
def created (es : List (TimerEvent F)) : List ℕ := es.filterMap TimerEvent.creates

/-- At every moment of the run, a timer that has not been started is not running, and a tick runs no
callback of it. -/
def StartedOnly (s₀ : Timers F) (es : List (TimerEvent F)) : Prop :=
  ∀ i s, s₀.after (es.take i) = some s → ∀ p ∈ s.pTimers, (∀ e ∈ es.take i, e ≠ .op p .start) →
    (s.object p).running = false ∧ s.runsOf p = []

/-- The list holds what was constructed, and the rest of the memory is as it was. -/
structure Follows (s₀ : Timers F) (es : List (TimerEvent F)) (s : Timers F) : Prop where
  list : s.pTimers = created es
  nodup : s.pTimers.Nodup
  initialized : s.initialized = true ↔ created es ≠ []
  memory : ∀ p ∉ created es, s.object p = s₀.object p

lemma created_append (es es' : List (TimerEvent F)) : created (es ++ es') = created es ++ created es' :=
  List.filterMap_append

/-- A later timer is one of the later timers of every longer run. -/
lemma mem_tail_created (h : p ∈ (created es).tail) (es' : List (TimerEvent F)) :
    p ∈ (created (es ++ es')).tail := by
  have hne : created es ≠ [] := by
    intro hnil
    rw [hnil] at h
    exact absurd h List.not_mem_nil
  rw [created_append, List.tail_append_of_ne_nil hne]
  exact List.mem_append_left _ h

lemma after_append (s : Timers F) (es es' : List (TimerEvent F)) :
    s.after (es ++ es') = (s.after es).bind fun s => s.after es' := List.foldlM_append

lemma after_concat {es : List (TimerEvent F)} (h : s.after (es ++ [e]) = some s') :
    ∃ t, s.after es = some t ∧ step t e = some s' := by
  rw [after_append] at h
  obtain ⟨t, ht, h⟩ := Option.bind_eq_some_iff.mp h
  obtain ⟨t', ht', h⟩ := step_of_after h
  cases h
  exact ⟨t, ht, ht'⟩

/-- A step that constructs nothing writes to timers of the list only. -/
lemma Follows.concat {t : Timers F} (h : Follows s₀ es t) (hs : step t e = some s)
    (hcreates : e.creates = none) (hlist : s.pTimers = t.pTimers) (hinit : s.initialized = t.initialized)
    (hobject : ∀ p ∉ t.pTimers, s.object p = t.object p) : Follows s₀ (es ++ [e]) s := by
  have hnone : created [e] = [] := List.filterMap_cons_none hcreates
  have hcreated : created (es ++ [e]) = created es := by
    rw [created_append, hnone, List.append_nil]
  refine ⟨?_, nodup_of_step h.nodup hs, ?_, fun p hp => ?_⟩
  · rw [hlist, h.list, hcreated]
  · rw [hinit, hcreated]
    exact h.initialized
  · rw [hcreated] at hp
    rw [hobject p (h.list ▸ hp), h.memory p hp]

lemma follows_after (h₀ : s₀.IsStart) (hes : ∀ e ∈ es, e.IsBasic) (hrun : s₀.after es = some s) :
    Follows s₀ es s := by
  induction es using List.reverseRecOn generalizing s with
  | nil =>
    cases hrun
    refine ⟨h₀.pTimers, h₀.pTimers ▸ List.nodup_nil, ?_, fun _ _ => rfl⟩
    simp [h₀.initialized, created]
  | append_singleton es e ih =>
    obtain ⟨t, ht, hs⟩ := after_concat hrun
    have h := ih (fun e he => hes e (List.mem_append_left _ he)) ht
    have hbasic := hes e (List.mem_append_right _ List.mem_cons_self)
    cases e with
    | destroy => exact hbasic.elim
    | create q timeoutMs periodic callback data =>
      have hcreated : created (es ++ [.create q timeoutMs periodic callback data]) = created es ++ [q] :=
        created_append _ _
      have hnodup := nodup_of_step h.nodup hs
      rw [step] at hs
      split_ifs at hs with hmem
      cases hs
      obtain ⟨hlist, hinit, hobject, -⟩ := t.createTimer_spec q timeoutMs periodic callback data
      refine ⟨?_, hnodup, ?_, fun p hp => ?_⟩
      · rw [hlist, h.list, hcreated]
      · simp [hinit, hcreated]
      · rw [hcreated, List.mem_append, List.mem_singleton, not_or] at hp
        rw [hobject p hp.2, h.memory p hp.1]
    | op q o =>
      have hop := hs
      rw [step] at hop
      split_ifs at hop with hmem
      cases hop
      refine h.concat hs rfl rfl rfl fun p hp => ?_
      exact Function.update_of_ne (ne_of_mem_of_not_mem hmem hp).symm _ _
    | tick =>
      have htick := hs
      cases htick
      exact h.concat hs rfl rfl rfl fun p hp => object_timerHandler_of_not_mem h.nodup hp

lemma Follows.alive (h : Follows s₀ es s) (hp : p ∈ created es) : s.Alive p := ⟨h.nodup, h.list ▸ hp⟩

/-- When the memory of all timers but the first holds `false`, one that is not started does not run. -/
lemma not_running_after (h₀ : s₀.IsStart) (hes : ∀ e ∈ es, e.IsBasic) (hrun : s₀.after es = some s)
    (hmemory : ∀ p ∈ (created es).tail, (s₀.object p).running = false) (hp : p ∈ created es)
    (hstart : ∀ e ∈ es, e ≠ .op p .start) : (s.object p).running = false := by
  induction es using List.reverseRecOn generalizing s with
  | nil => exact absurd hp List.not_mem_nil
  | append_singleton es e ih =>
    obtain ⟨t, ht, hs⟩ := after_concat hrun
    have hes' : ∀ e ∈ es, e.IsBasic := fun e he => hes e (List.mem_append_left _ he)
    have h := follows_after h₀ hes' ht
    have hmemory' : ∀ p ∈ (created es).tail, (s₀.object p).running = false :=
      fun p hp => hmemory p (mem_tail_created hp [e])
    have hlast := hstart e (List.mem_append_right _ List.mem_cons_self)
    have hold := fun hp => ih hes' ht hmemory' hp fun e he => hstart e (List.mem_append_left _ he)
    have hbasic := hes e (List.mem_append_right _ List.mem_cons_self)
    rw [created_append, List.mem_append] at hp
    cases e with
    | destroy => exact hbasic.elim
    | create q timeoutMs periodic callback data =>
      rw [step] at hs
      split_ifs at hs with hmem
      cases hs
      obtain ⟨-, -, hobject, hnew⟩ := t.createTimer_spec q timeoutMs periodic callback data
      by_cases hpq : p = q
      · subst hpq
        rw [hnew]
        cases hinit : t.initialized with
        | false => rfl
        | true =>
          -- it is not the first one, and its memory is as it was
          have hne := h.initialized.mp hinit
          have htail : p ∈ (created (es ++ [.create p timeoutMs periodic callback data])).tail := by
            rw [created_append, List.tail_append_of_ne_nil hne]
            exact List.mem_append_right _ List.mem_cons_self
          rw [h.memory p (h.list ▸ hmem), hmemory p htail]
          rfl
      · rw [hobject p hpq]
        exact hold (hp.resolve_right fun hq => hpq (List.mem_singleton.mp hq))
    | op q o =>
      have hp := hp.resolve_right List.not_mem_nil
      have hne : p ≠ q := by
        rintro rfl
        obtain rfl : o = .start := hbasic
        exact hlast rfl
      rw [step] at hs
      split_ifs at hs
      cases hs
      exact (congrArg (fun t : TimerObject F => t.running) (Function.update_of_ne hne _ _)).trans (hold hp)
    | tick =>
      have hp := hp.resolve_right List.not_mem_nil
      cases hs
      rw [object_timerHandler (h.alive hp), TimerObject.tick_of_not_running (hold hp)]
      exact hold hp

/-- A timer is started after it has been constructed. -/
lemma mem_created_of_start (h₀ : s₀.IsStart) (hes : ∀ e ∈ es, e.IsBasic) (hrun : s₀.after es = some s)
    (hmem : TimerEvent.op p .start ∈ es) : p ∈ created es := by
  obtain ⟨es₁, es₂, rfl⟩ := List.append_of_mem hmem
  rw [after_append] at hrun
  obtain ⟨t, ht, hrun⟩ := Option.bind_eq_some_iff.mp hrun
  obtain ⟨t', hs, -⟩ := step_of_after hrun
  rw [step] at hs
  split_ifs at hs with hp
  rw [(follows_after h₀ (fun e he => hes e (List.mem_append_left _ he)) ht).list] at hp
  rw [created_append]
  exact List.mem_append_left _ hp

/-- Where a timer is constructed that is not the first one. -/
lemma split_of_mem_tail (h : p ∈ (created es).tail) :
    ∃ es₁ e es₂, es = es₁ ++ e :: es₂ ∧ e.creates = some p ∧ created es₁ ≠ [] := by
  induction es with
  | nil => exact absurd h List.not_mem_nil
  | cons e es ih =>
    cases he : e.creates with
    | none =>
      rw [created, List.filterMap_cons_none he] at h
      obtain ⟨es₁, e', es₂, rfl, he', hne⟩ := ih h
      refine ⟨e :: es₁, e', es₂, rfl, he', ?_⟩
      rwa [created, List.filterMap_cons_none he]
    | some q =>
      rw [created, List.filterMap_cons_some he, List.tail_cons] at h
      obtain ⟨e', hmem, he'⟩ := List.mem_filterMap.mp h
      obtain ⟨es₁, es₂, rfl⟩ := List.append_of_mem hmem
      refine ⟨e :: es₁, e', es₂, rfl, he', ?_⟩
      rw [created, List.filterMap_cons_some he]
      exact List.cons_ne_nil _ _

/-- **Timers that are not started** stay still in a run exactly when the memory that the timers after the
first one are constructed in holds `false` where they keep `running`. -/
theorem startedOnly_iff (h₀ : s₀.IsStart) (hes : ∀ e ∈ es, e.IsBasic) (hrun : s₀.after es = some s) :
    s₀.StartedOnly es ↔ ∀ p ∈ (created es).tail, (s₀.object p).running = false := by
  constructor
  · intro hstarted p hp
    obtain ⟨es₁, e, es₂, rfl, he, hne⟩ := split_of_mem_tail hp
    have hes₁ : ∀ e ∈ es₁, e.IsBasic := fun e he => hes e (List.mem_append_left _ he)
    rw [after_append] at hrun
    obtain ⟨t, ht, hrun⟩ := Option.bind_eq_some_iff.mp hrun
    obtain ⟨t', hs, -⟩ := step_of_after hrun
    have h := follows_after h₀ hes₁ ht
    have htake : (es₁ ++ e :: es₂).take (es₁.length + 1) = es₁ ++ [e] := by
      rw [List.take_append, List.take_of_length_le (Nat.le_succ _), Nat.add_sub_cancel_left]
      rfl
    have hrun' : s₀.after (es₁ ++ [e]) = some t' := by
      rw [after_append, ht]
      exact (congrArg (fun o => o.bind fun s => some s) hs).trans rfl
    have hstill := hstarted (es₁.length + 1) t' (htake ▸ hrun') p
    rw [htake] at hstill
    cases e with
    | destroy => cases he
    | op => cases he
    | tick => cases he
    | create q timeoutMs periodic callback data =>
      cases he
      rw [step] at hs
      split_ifs at hs with hmem
      cases hs
      obtain ⟨hlist, -, -, hnew⟩ := t.createTimer_spec p timeoutMs periodic callback data
      rw [h.list] at hmem
      have hunstarted : ∀ e ∈ es₁ ++ [.create p timeoutMs periodic callback data], e ≠ .op p .start := by
        intro e he heq
        subst heq
        rcases List.mem_append.mp he with he | he
        · exact hmem (mem_created_of_start h₀ hes₁ ht he)
        · cases List.mem_singleton.mp he
      have hrunning := (hstill (by rw [hlist]; simp) hunstarted).1
      rwa [hnew, h.initialized.mpr hne, Bool.true_and, h.memory p hmem] at hrunning
  · intro hmemory i t ht p hp hunstarted
    have hes' : ∀ e ∈ es.take i, e.IsBasic := fun e he => hes e (List.mem_of_mem_take he)
    have h := follows_after h₀ hes' ht
    have hmemory' : ∀ p ∈ (created (es.take i)).tail, (s₀.object p).running = false := by
      intro p hp
      have hlater := mem_tail_created hp (es.drop i)
      rw [List.take_append_drop] at hlater
      exact hmemory p hlater
    rw [h.list] at hp
    have hstill := not_running_after h₀ hes' ht hmemory' hp hunstarted
    exact ⟨hstill, runsOf_of_stopped (h.alive hp) hstill⟩

/-- Two timers in a clean memory. -/
theorem startedOnly_clean : StartedOnly (⟨[], false, fun _ => ⟨⟨0, false, false, 0⟩, none, 0⟩⟩ : Timers Unit)
    [.create 0 10 true (some ()) none, .create 1 1 false (some ()) none, .op 0 .start, .tick] := by
  have hes : ∀ e ∈ [TimerEvent.create 0 10 true (some ()) none, .create 1 1 false (some ()) none,
      .op 0 .start, .tick], e.IsBasic := by
    simp [TimerEvent.IsBasic]
  exact (startedOnly_iff ⟨rfl, rfl⟩ hes rfl).mpr (by simp)

/-- The second timer fires at the first tick, and no one has started it. -/
theorem startedOnly_not : ¬ garbage.StartedOnly
    [.create 0 10 true (some ()) none, .create 1 1 false (some ()) none, .tick] ∧
    ∃ s, garbage.after [.create 0 10 true (some ()) none, .create 1 1 false (some ()) none] = some s ∧
      s.runs = [⟨1, (), 1⟩] := by
  refine ⟨fun h => ?_, _, rfl, by decide⟩
  have hstill := h 2 _ rfl 1 (by decide) (by simp)
  exact absurd hstill.1 (by decide)

end Timers

end DistCache
