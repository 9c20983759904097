import Mathlib.Data.Finset.Max

/-!
The clockwise search of a finite set of points on a ring: the least point that is not below the
given one, and the least point of all when there is none.
-/

namespace DistCache.Lib

variable {P : Type*} [LinearOrder P] {S T : Finset P} {h p q : P}

/-- The least element of the set, if it has one. -/
def least (S : Finset P) : Option P := if hS : S.Nonempty then some (S.min' hS) else none

/-- The least element that is not below `h`, if there is one. -/
def lowerBound (S : Finset P) (h : P) : Option P := least (S.filter (h ≤ ·))

/-- The first element met going clockwise from `h`. -/
def clockwise (S : Finset P) (h : P) : Option P := (lowerBound S h).or (least S)

lemma least_eq_some_iff : least S = some p ↔ p ∈ S ∧ ∀ q ∈ S, p ≤ q := by
  unfold least
  split_ifs with hS
  · rw [Option.some.injEq]
    constructor
    · rintro rfl
      exact ⟨S.min'_mem hS, fun q hq => S.min'_le q hq⟩
    · rintro ⟨hp, hle⟩
      exact le_antisymm (S.min'_le p hp) (hle _ (S.min'_mem hS))
  · simp only [false_iff, not_and]
    exact fun hp => absurd ⟨p, hp⟩ hS

lemma least_eq_none_iff : least S = none ↔ S = ∅ := by
  unfold least
  split_ifs with hS
  · simpa using hS.ne_empty
  · simpa using hS

lemma lowerBound_eq_some_iff :
    lowerBound S h = some p ↔ p ∈ S ∧ h ≤ p ∧ ∀ q ∈ S, h ≤ q → p ≤ q := by
  unfold lowerBound
  rw [least_eq_some_iff]
  simp only [Finset.mem_filter, and_imp, and_assoc]

lemma lowerBound_eq_none_iff : lowerBound S h = none ↔ ∀ q ∈ S, q < h := by
  unfold lowerBound
  rw [least_eq_none_iff, Finset.filter_eq_empty_iff]
  simp only [not_le]

/-- What the clockwise search finds: the least point that is not below `h`, or, when all points
are below it, the least point. -/
lemma clockwise_eq_some_iff : clockwise S h = some p ↔
    p ∈ S ∧ ((h ≤ p ∧ ∀ q ∈ S, h ≤ q → p ≤ q) ∨ ((∀ q ∈ S, q < h) ∧ ∀ q ∈ S, p ≤ q)) := by
  unfold clockwise
  rw [Option.or_eq_some_iff, lowerBound_eq_some_iff, lowerBound_eq_none_iff, least_eq_some_iff]
  tauto

lemma clockwise_mem (hp : clockwise S h = some p) : p ∈ S := (clockwise_eq_some_iff.mp hp).1

lemma clockwise_eq_none_iff : clockwise S h = none ↔ S = ∅ := by
  unfold clockwise
  rw [Option.or_eq_none_iff, least_eq_none_iff, lowerBound_eq_none_iff]
  constructor
  · exact fun hn => hn.2
  · rintro rfl
    simp

lemma exists_clockwise (hS : S.Nonempty) (h : P) : ∃ p, clockwise S h = some p := by
  rw [← Option.ne_none_iff_exists']
  exact fun hn => hS.ne_empty (clockwise_eq_none_iff.mp hn)

/-- A point is found from itself. -/
lemma clockwise_self (hp : p ∈ S) : clockwise S p = some p :=
  clockwise_eq_some_iff.mpr ⟨hp, .inl ⟨le_rfl, fun _ _ hle => hle⟩⟩

/-- Taking other points away does not move the search. -/
theorem clockwise_of_subset (hST : T ⊆ S) (hp : clockwise S h = some p) (hT : p ∈ T) :
    clockwise T h = some p := by
  rw [clockwise_eq_some_iff] at hp ⊢
  obtain ⟨-, ⟨hle, hmin⟩ | ⟨hlt, hmin⟩⟩ := hp
  · exact ⟨hT, .inl ⟨hle, fun q hq => hmin q (hST hq)⟩⟩
  · exact ⟨hT, .inr ⟨fun q hq => hlt q (hST hq), fun q hq => hmin q (hST hq)⟩⟩

end DistCache.Lib
