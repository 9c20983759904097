import Mathlib.Logic.Relation
import Mathlib.Tactic.SplitIfs

/-!
Transition systems given by a partial step function, and the states of the runs whose steps all
meet a side condition.

`Reach init step ok` are the states of the runs from `init` along `step` in which every step is
one that `ok` allows.  The two rules used over and over are `Reach.invariant` (what holds at the
start and is kept by every allowed step holds in every state reached) and `reach_of_path` (a run
that can be executed reaches its last state).
-/

namespace DistCache.Lib

variable {σ ε : Type*} {init : σ → Prop} {step : σ → ε → Option σ} {ok ok' : σ → ε → Prop}

/-- One step from `s` to `s'` that the side condition allows. -/
def Move (step : σ → ε → Option σ) (ok : σ → ε → Prop) (s s' : σ) : Prop :=
  ∃ e, ok s e ∧ step s e = some s'

/-- The states of the runs from `init` whose steps all meet `ok`. -/
def Reach (init : σ → Prop) (step : σ → ε → Option σ) (ok : σ → ε → Prop) (s : σ) : Prop :=
  ∃ s₀, init s₀ ∧ Relation.ReflTransGen (Move step ok) s₀ s

theorem Reach.start {s : σ} (h : init s) : Reach init step ok s := ⟨s, h, .refl⟩

theorem Reach.next {s s' : σ} {e : ε} (h : Reach init step ok s) (hok : ok s e)
    (hs : step s e = some s') : Reach init step ok s' := by
  obtain ⟨s₀, h₀, hr⟩ := h
  exact ⟨s₀, h₀, hr.tail ⟨e, hok, hs⟩⟩

/-- **Invariants.** What holds at the start and is kept by every allowed step from a reached state
holds in every state reached. -/
theorem Reach.invariant {I : σ → Prop} (h₀ : ∀ s, init s → I s)
    (hstep : ∀ s e s', Reach init step ok s → I s → ok s e → step s e = some s' → I s')
    {s : σ} (h : Reach init step ok s) : I s := by
  obtain ⟨s₀, hi, hr⟩ := h
  induction hr with
  | refl => exact h₀ _ hi
  | tail hr hm ih =>
    obtain ⟨e, hok, hs⟩ := hm
    exact hstep _ e _ ⟨s₀, hi, hr⟩ ih hok hs

/-- Fewer conditions allow more runs. -/
theorem Reach.mono (hle : ∀ s e, ok s e → ok' s e) {s : σ} (h : Reach init step ok s) :
    Reach init step ok' s := by
  obtain ⟨s₀, hi, hr⟩ := h
  exact ⟨s₀, hi, hr.lift id fun a _ ⟨e, he, hs⟩ => ⟨e, hle a e he, hs⟩⟩

/-- The states of a run that goes on from a state reached. -/
theorem Reach.trans {s s' : σ} (h : Reach init step ok s)
    (hr : Relation.ReflTransGen (Move step ok) s s') : Reach init step ok s' := by
  obtain ⟨s₀, hi, h₀⟩ := h
  exact ⟨s₀, hi, h₀.trans hr⟩

/-! ### Loops that are taken turn by turn -/

/-- One turn of a loop that stands at a program counter, as long as it has one. -/
def Turn {κ : Type*} (turn : σ → κ → σ × Option κ) (a b : σ × Option κ) : Prop :=
  ∃ pc ∈ a.2, b = turn a.1 pc

/-! ### Runs that can be executed -/

section Path

variable [∀ s e, Decidable (ok s e)]

/-- The state after the events `es`, when each of them is allowed and can happen. -/
def path (step : σ → ε → Option σ) (ok : σ → ε → Prop) [∀ s e, Decidable (ok s e)] :
    σ → List ε → Option σ
  | s, [] => some s
  | s, e :: es => if ok s e then (step s e).bind fun s' => path step ok s' es else none

lemma path_nil {s : σ} : path step ok s [] = some s := rfl

lemma path_cons {s s' : σ} {e : ε} (hok : ok s e) (hs : step s e = some s') (es : List ε) :
    path step ok s (e :: es) = path step ok s' es := by
  rw [path, if_pos hok, hs, Option.bind_some]

theorem Reach.path {s s' : σ} (h : Reach init step ok s) :
    ∀ {es : List ε}, path step ok s es = some s' → Reach init step ok s' := by
  intro es
  induction es generalizing s with
  | nil =>
    intro hp
    cases hp
    exact h
  | cons e es ih =>
    intro hp
    unfold Lib.path at hp
    split_ifs at hp with hok
    obtain ⟨s₁, hs, hp⟩ := Option.bind_eq_some_iff.mp hp
    exact ih (h.next hok hs) hp

/-- A run that can be executed from an initial state reaches its last state. -/
theorem reach_of_path {s s' : σ} {es : List ε} (h : init s) (hp : path step ok s es = some s') :
    Reach init step ok s' :=
  (Reach.start h).path hp

end Path

end DistCache.Lib
