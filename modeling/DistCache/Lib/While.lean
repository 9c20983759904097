import Mathlib.Order.Basic

/-!
`while` loops.  A loop is run with fuel: `none` is a loop that has none left, or a turn that fails.

The rule for total correctness is `whileLoop_total`: an invariant that every turn keeps, and a number that
every turn makes smaller.  The loop then ends with any fuel that is not less than the number.
-/

namespace DistCache.Lib

variable {σ : Type*} {cond : σ → Bool} {body : σ → Option σ}

/-- `while (cond) body`. -/
def whileLoop (cond : σ → Bool) (body : σ → Option σ) : ℕ → σ → Option σ
  | 0, s => if cond s then none else some s
  | n + 1, s => if cond s then (body s).bind (whileLoop cond body n) else some s

lemma whileLoop_of_not {s : σ} (h : cond s = false) (n : ℕ) : whileLoop cond body n s = some s := by
  cases n <;> simp [whileLoop, h]

lemma whileLoop_of_turn {s s' : σ} (h : cond s = true) (hs : body s = some s') (n : ℕ) :
    whileLoop cond body (n + 1) s = whileLoop cond body n s' := by
  rw [whileLoop, if_pos h, hs, Option.bind_some]

/-- **Total correctness.** -/
theorem whileLoop_total {I : σ → Prop} {m : σ → ℕ}
    (hbody : ∀ s, I s → cond s = true → ∃ s', body s = some s' ∧ I s' ∧ m s' < m s)
    {n : ℕ} {s : σ} (hI : I s) (hn : m s ≤ n) :
    ∃ s', whileLoop cond body n s = some s' ∧ I s' ∧ cond s' = false := by
  induction n generalizing s with
  | zero =>
    cases hcond : cond s with
    | false => exact ⟨s, whileLoop_of_not hcond 0, hI, hcond⟩
    | true =>
      obtain ⟨s', -, -, hlt⟩ := hbody s hI hcond
      omega
  | succ n ih =>
    cases hcond : cond s with
    | false => exact ⟨s, whileLoop_of_not hcond _, hI, hcond⟩
    | true =>
      obtain ⟨s', hs, hI', hlt⟩ := hbody s hI hcond
      rw [whileLoop_of_turn hcond hs]
      exact ih hI' (by omega)

end DistCache.Lib
