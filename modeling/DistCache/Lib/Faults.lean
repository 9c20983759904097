import Mathlib.Logic.Basic
import Mathlib.Data.Option.Basic
import Mathlib.Tactic.SplitIfs

/-!
Computations that end early, and why.  A partial function is written once with `Option` and once with
`Except`, which tells its faults apart; `Option.bind` and the bind of `Except` agree when the faults are
forgotten.  `Avoids bad x` is safety with respect to some of the faults only: `x` may end early, but not
with a fault that is `bad`.
-/

namespace DistCache.Lib

variable {ε α β : Type} {bad : ε → Prop} {fault : ε} {o : Option α} {x : Except ε α}
  {f : α → Except ε β} {a : α}

/-- A partial step, and the fault that it is when it fails. -/
def orFault (o : Option α) (fault : ε) : Except ε α :=
  match o with
  | some a => .ok a
  | none => .error fault

lemma orFault_some : orFault (some a) fault = .ok a := rfl

lemma orFault_none : orFault (none : Option α) fault = .error fault := rfl

lemma orFault_eq_ok_iff : orFault o fault = .ok a ↔ o = some a := by
  cases o <;> simp [orFault]

/-! ### Binds -/

lemma ok_bind : (Except.ok a >>= f) = f a := rfl

lemma error_bind : (Except.error fault >>= f) = .error fault := rfl

/-! ### The faults forgotten -/

lemma toOption_ok : (Except.ok a : Except ε α).toOption = some a := rfl

lemma toOption_pure : (pure a : Except ε α).toOption = some a := rfl

lemma toOption_orFault : (orFault o fault).toOption = o := by
  cases o <;> rfl

lemma toOption_bind : (x >>= f).toOption = x.toOption.bind fun a => (f a).toOption := by
  cases x <;> rfl

lemma toOption_ite {p : Prop} [Decidable p] {y : Except ε α} :
    (if p then x else y).toOption = if p then x.toOption else y.toOption := by
  split_ifs <;> rfl

/-! ### Safety -/

/-- The computation does not end with a bad fault. -/
def Avoids (bad : ε → Prop) (x : Except ε α) : Prop := ∀ fault, x = .error fault → ¬ bad fault

lemma avoids_ok : Avoids bad (.ok a : Except ε α) := nofun

lemma avoids_pure : Avoids bad (pure a : Except ε α) := nofun

lemma avoids_error_iff : Avoids bad (.error fault : Except ε α) ↔ ¬ bad fault := by
  unfold Avoids
  simp

/-- One step after the other. -/
lemma avoids_bind_iff :
    Avoids bad (x >>= f) ↔ Avoids bad x ∧ ∀ a, x = .ok a → Avoids bad (f a) := by
  cases x with
  | error e =>
    rw [error_bind, avoids_error_iff, avoids_error_iff]
    exact ⟨fun h => ⟨h, nofun⟩, And.left⟩
  | ok a =>
    rw [ok_bind]
    refine ⟨fun h => ⟨avoids_ok, fun b hb => ?_⟩, fun h => h.2 a rfl⟩
    cases hb
    exact h

/-- A step whose fault is bad has to succeed. -/
lemma avoids_orFault_iff (hbad : bad fault) : Avoids bad (orFault o fault) ↔ ∃ a, o = some a := by
  cases o with
  | none =>
    rw [orFault_none, avoids_error_iff]
    exact iff_of_false (not_not_intro hbad) (by simp)
  | some a => exact iff_of_true avoids_ok ⟨a, rfl⟩

/-- A step whose fault is not bad may fail. -/
lemma avoids_orFault (hgood : ¬ bad fault) : Avoids bad (orFault o fault) := by
  cases o with
  | none => exact avoids_error_iff.mpr hgood
  | some a => exact avoids_ok

end DistCache.Lib
