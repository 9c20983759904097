import Mathlib.Data.BitVec
import Mathlib.RingTheory.Nilpotent.Basic

/-!
Words of `w` bits: operations on them that lose nothing, and folds of such operations over a list.

Multiplication by an odd word and `x + (x <<< k)` are multiplications by units, for 2 is nilpotent.  Two
words with one `x ^^^ (x >>> k)` have a difference that a shift leaves as it is, and that is 0.  A fold
whose step is injective in both arguments tells lists apart that differ in one place.
-/

namespace DistCache.Lib

open Function

/-! ### Odd words -/

section Words

variable {w k : ℕ}

lemma twoPow_eq_pow (w k : ℕ) : BitVec.twoPow w k = 2 ^ k := by
  have htwo : (2 : BitVec w) = BitVec.twoPow w 1 := by
    apply BitVec.eq_of_toNat_eq
    rw [BitVec.toNat_twoPow]
    rfl
  induction k with
  | zero =>
    rw [BitVec.twoPow_zero, pow_zero]
    rfl
  | succ k ih => rw [pow_succ, ← ih, htwo, BitVec.twoPow_mul_twoPow_eq]

lemma isNilpotent_two : IsNilpotent (2 : BitVec w) := by
  refine ⟨w, ?_⟩
  rw [← twoPow_eq_pow]
  apply BitVec.eq_of_toNat_eq
  rw [BitVec.toNat_twoPow_of_le le_rfl]
  rfl

lemma isUnit_one_add_two_mul (q : BitVec w) : IsUnit (1 + 2 * q) := by
  apply IsNilpotent.isUnit_one_add
  exact Commute.isNilpotent_mul_right (Commute.all 2 q) isNilpotent_two

/-- Multiplication by an odd word. -/
lemma mul_odd_injective (q : BitVec w) : Injective fun x : BitVec w => x * (1 + 2 * q) :=
  (isUnit_one_add_two_mul q).mul_left_injective

lemma add_shiftLeft_injective (hk : 0 < k) : Injective fun x : BitVec w => x + x <<< k := by
  obtain ⟨k, rfl⟩ : ∃ n, k = n + 1 := ⟨k - 1, by omega⟩
  have hmul : (fun x : BitVec w => x + x <<< (k + 1)) = fun x => x * (1 + 2 * 2 ^ k) := by
    funext x
    rw [BitVec.shiftLeft_eq_mul_twoPow, twoPow_eq_pow, pow_succ']
    ring
  rw [hmul]
  exact mul_odd_injective _

/-! ### Shifts to the right -/

lemma eq_zero_of_eq_ushiftRight {d : BitVec w} (hk : 0 < k) (h : d = d >>> k) : d = 0#w := by
  have hdiv : d.toNat = d.toNat / 2 ^ k := by
    conv_lhs => rw [h]
    rw [BitVec.toNat_ushiftRight, Nat.shiftRight_eq_div_pow]
  by_contra hne
  have hpos : 0 < d.toNat := Nat.pos_of_ne_zero fun h₀ => hne (BitVec.eq_of_toNat_eq h₀)
  have hlt := Nat.div_lt_self hpos (Nat.one_lt_two_pow hk.ne')
  omega

lemma xor_ushiftRight_injective (hk : 0 < k) : Injective fun x : BitVec w => x ^^^ x >>> k := by
  intro x y h
  have hdiff : (x ^^^ y) ^^^ (x ^^^ y) >>> k = 0#w := by
    calc (x ^^^ y) ^^^ (x ^^^ y) >>> k
        = (x ^^^ y) ^^^ (x >>> k ^^^ y >>> k) := by rw [BitVec.ushiftRight_xor_distrib]
      _ = (x ^^^ x >>> k) ^^^ (y ^^^ y >>> k) := by ac_rfl
      _ = 0#w := BitVec.xor_eq_zero_iff.mpr h
  exact BitVec.xor_eq_zero_iff.mp (eq_zero_of_eq_ushiftRight hk (BitVec.xor_eq_zero_iff.mp hdiff))

end Words

/-! ### Folds -/

section Folds

variable {α β : Type*} {step : α → β → α}

lemma foldl_injective (hstep : ∀ b, Injective fun a => step a b) (l : List β) :
    Injective fun a => l.foldl step a := by
  induction l with
  | nil => exact injective_id
  | cons b l ih => exact ih.comp (hstep b)

/-- Lists that differ in one place are told apart. -/
lemma foldl_ne (hstep : ∀ b, Injective fun a => step a b) (hbyte : ∀ a, Injective (step a)) (a : α)
    (u v : List β) {b b' : β} (hne : b ≠ b') : (u ++ b :: v).foldl step a ≠ (u ++ b' :: v).foldl step a := by
  rw [List.foldl_append, List.foldl_append, List.foldl_cons, List.foldl_cons]
  intro h
  exact hne (hbyte _ (foldl_injective hstep v h))

end Folds

end DistCache.Lib
