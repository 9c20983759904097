import Mathlib.Logic.Function.Basic

/-!
Symmetric matchings: a partial function `p` that pairs two different elements, each with the other,
where the two ends of a pair have roles that fit.  Pairs are made between two free elements and
parted at both ends, and the role of a free element may change; `Matching.pair_iff` says that
nothing else may be paired.
-/

namespace DistCache.Lib

variable {K ρ : Type*} {fits : ρ → ρ → Prop} {p : K → Option K} {role : K → ρ}

/-- `p` pairs different elements, each with the other, and their roles fit. -/
structure Matching (fits : ρ → ρ → Prop) (p : K → Option K) (role : K → ρ) : Prop where
  ne : ∀ {a b}, p a = some b → a ≠ b
  symm : ∀ {a b}, p a = some b → p b = some a
  fit : ∀ {a b}, p a = some b → fits (role a) (role b)

namespace Matching

variable {a b c d : K}

/-- An element that is free is nobody's partner. -/
lemma ne_of_free (h : Matching fits p role) (ha : p a = none) (hb : p b = some c) :
    b ≠ a ∧ c ≠ a := by
  constructor
  · rintro rfl
    rw [ha] at hb
    cases hb
  · rintro rfl
    rw [h.symm hb] at ha
    cases ha

variable [DecidableEq K] {r : ρ}

/-- The partners after `a` and `b` are paired. -/
def pair (p : K → Option K) (a b : K) : K → Option K :=
  Function.update (Function.update p a (some b)) b (some a)

/-- The partners after `a` and `b` are parted. -/
def part (p : K → Option K) (a b : K) : K → Option K :=
  Function.update (Function.update p a none) b none

lemma pair_left (hab : a ≠ b) : pair p a b a = some b := by simp [pair, hab]

lemma pair_right : pair p a b b = some a := by simp [pair]

lemma pair_of_ne (ha : c ≠ a) (hb : c ≠ b) : pair p a b c = p c := by simp [pair, ha, hb]

lemma pair_cases (h : pair p a b c = some d) :
    (c = b ∧ d = a) ∨ (c = a ∧ d = b) ∨ (c ≠ a ∧ c ≠ b ∧ p c = some d) := by
  by_cases hb : c = b
  · subst hb
    rw [pair_right, Option.some.injEq] at h
    exact .inl ⟨rfl, h.symm⟩
  · by_cases ha : c = a
    · subst ha
      rw [pair_left hb, Option.some.injEq] at h
      exact .inr (.inl ⟨rfl, h.symm⟩)
    · rw [pair_of_ne ha hb] at h
      exact .inr (.inr ⟨ha, hb, h⟩)

lemma part_eq_some_iff : part p a b c = some d ↔ c ≠ a ∧ c ≠ b ∧ p c = some d := by
  unfold part
  by_cases hb : c = b
  · simp [hb]
  · by_cases ha : c = a
    · simp [ha, Function.update_apply]
    · simp [ha, hb]

/-- The role of a free element is of no account. -/
theorem role_of_free (h : Matching fits p role) (ha : p a = none) :
    Matching fits p (Function.update role a r) where
  ne := h.ne
  symm := h.symm
  fit := by
    intro b c hb
    obtain ⟨hba, hca⟩ := h.ne_of_free ha hb
    rw [Function.update_of_ne hba, Function.update_of_ne hca]
    exact h.fit hb

/-- A free element can be paired with an element if and only if that is another one, free as well,
and the roles fit. -/
theorem pair_iff (hfits : ∀ {r s}, fits r s → fits s r) (h : Matching fits p role)
    (ha : p a = none) :
    Matching fits (pair p a b) role ↔ a ≠ b ∧ p b = none ∧ fits (role a) (role b) := by
  constructor
  · intro h'
    have hab : a ≠ b := (h'.ne pair_right).symm
    refine ⟨hab, ?_, h'.fit (pair_left hab)⟩
    cases hb : p b with
    | none => rfl
    | some c =>
      -- the partner of `b` still points to `b`, which points to `a` now
      have hca : c ≠ a := (h.ne_of_free ha hb).2
      have hc : pair p a b c = some b := by
        rw [pair_of_ne hca (h.ne hb).symm]
        exact h.symm hb
      have hbc := h'.symm hc
      rw [pair_right, Option.some.injEq] at hbc
      exact absurd hbc.symm hca
  · rintro ⟨hab, hb, hfit⟩
    refine ⟨?_, ?_, ?_⟩ <;> intro x y hx <;>
      obtain ⟨rfl, rfl⟩ | ⟨rfl, rfl⟩ | ⟨-, -, hx⟩ := pair_cases hx
    · exact hab.symm
    · exact hab
    · exact h.ne hx
    · exact pair_left hab
    · exact pair_right
    · rw [pair_of_ne (h.ne_of_free ha hx).2 (h.ne_of_free hb hx).2]
      exact h.symm hx
    · exact hfits hfit
    · exact hfit
    · exact h.fit hx

/-- Two partners can always be parted. -/
theorem of_part (h : Matching fits p role) (hab : p a = some b) :
    Matching fits (part p a b) role where
  ne hx := h.ne (part_eq_some_iff.mp hx).2.2
  symm := by
    intro x y hx
    obtain ⟨hxa, hxb, hxy⟩ := part_eq_some_iff.mp hx
    refine part_eq_some_iff.mpr ⟨?_, ?_, h.symm hxy⟩
    · rintro rfl
      exact hxb (Option.some.inj ((h.symm hxy).symm.trans hab))
    · rintro rfl
      exact hxa (Option.some.inj ((h.symm hxy).symm.trans (h.symm hab)))
  fit hx := h.fit (part_eq_some_iff.mp hx).2.2

/-- Two partners can be parted, whatever their roles are afterwards. -/
theorem of_part_roles (h : Matching fits p role) (hab : p a = some b) {r s : ρ} :
    Matching fits (part p a b) (Function.update (Function.update role a r) b s) := by
  have ha : part p a b a = none := by
    simp [part, Function.update_apply]
  have hb : part p a b b = none := by
    simp [part]
  exact ((h.of_part hab).role_of_free ha).role_of_free hb

end Matching

end DistCache.Lib
