import Mathlib.Data.List.Nodup
import DistCache.Lib.Matching

/-!
Succession: places are held by some of the elements, and an element may have a partner that steps in.

An element that is not alive leaves, and its partner takes over its place, or nobody does.  What a place comes to
in the end is its heir: the holder, when it is alive, or else the partner, when that one is.  No departure
changes the heirs of the others, so the outcome does not depend on the order of the departures.
-/

namespace DistCache.Lib

variable {K ρ : Type*} {fits : ρ → ρ → Prop} {p : K → Option K} {role : K → ρ} {alive : K → Bool} {a b c : K}

/-- Who has the place of `a` in the end. -/
def heir (alive : K → Bool) (p : K → Option K) (a : K) : Option K :=
  if alive a then some a else (p a).filter alive

lemma ne_of_alive (ha : alive a = true) (hb : alive b = false) : a ≠ b := by
  rintro rfl
  rw [hb] at ha
  cases ha

lemma heir_of_alive (ha : alive a = true) : heir alive p a = some a := by
  rw [heir, if_pos ha]

lemma heir_alone (ha : alive a = false) (hp : p a = none) : heir alive p a = none := by
  rw [heir, ha, if_neg Bool.false_ne_true, hp, Option.filter_none]

section Part

variable [DecidableEq K]

/-- The survivor of a pair has no partner, and the heirs of the others stay the same. -/
lemma heir_part (h : Matching fits p role) (hab : p a = some b) (ha : alive a = false) (hc : c ≠ a) :
    heir alive (Matching.part p b a) c = heir alive p c := by
  unfold heir Matching.part
  rw [Function.update_of_ne hc]
  split_ifs with halive
  · rfl
  · by_cases hcb : c = b
    · subst hcb
      rw [Function.update_self, h.symm hab, Option.filter_none, Option.filter_some_neg ha]
    · rw [Function.update_of_ne hcb]

/-- The survivor takes over: its heir is the heir of the one that left. -/
lemma heir_taken (h : Matching fits p role) (hab : p a = some b) (ha : alive a = false) :
    heir alive (Matching.part p b a) b = heir alive p a := by
  rw [heir_part h hab ha (h.ne hab).symm]
  unfold heir
  rw [ha, if_neg Bool.false_ne_true, hab, h.symm hab]
  cases hb : alive b with
  | true => rw [if_pos rfl, Option.filter_some_pos hb]
  | false =>
    rw [if_neg Bool.false_ne_true, Option.filter_some_neg ha,
      Option.filter_some_neg hb]

/-- A partner that is alive stays. -/
lemma partner_part (h : Matching fits p role) (hab : p a = some b) (ha : alive a = false) (hc : c ≠ a) :
    (Matching.part p b a c).filter alive = (p c).filter alive := by
  unfold Matching.part
  rw [Function.update_of_ne hc]
  by_cases hcb : c = b
  · subst hcb
    rw [Function.update_self, h.symm hab, Option.filter_none, Option.filter_some_neg ha]
  · rw [Function.update_of_ne hcb]

end Part

/-! ### The places -/

section Places

variable [DecidableEq K] {β : Type*} {g g' : K → Option β} {l : List K}

/-- One place changes hands. -/
lemma filterMap_set_idxOf (hl : l.Nodup) (ha : a ∈ l) (hb : g' b = g a) (hrest : ∀ c ∈ l, c ≠ a → g' c = g c) :
    (l.set (l.idxOf a) b).filterMap g' = l.filterMap g := by
  induction l with
  | nil => exact absurd ha List.not_mem_nil
  | cons x l ih =>
    obtain ⟨hx, hl⟩ := List.nodup_cons.mp hl
    by_cases hxa : x = a
    · subst hxa
      have htail : l.filterMap g' = l.filterMap g :=
        List.filterMap_congr fun c hc => hrest c (List.mem_cons_of_mem _ hc) (ne_of_mem_of_not_mem hc hx)
      rw [List.idxOf_cons_self, List.set_cons_zero, List.filterMap_cons, List.filterMap_cons, hb, htail]
    · have hmem : a ∈ l := (List.mem_cons.mp ha).resolve_left (Ne.symm hxa)
      have htail := ih hl hmem fun c hc => hrest c (List.mem_cons_of_mem _ hc)
      rw [List.idxOf_cons_ne _ hxa, List.set_cons_succ, List.filterMap_cons, List.filterMap_cons,
        hrest x List.mem_cons_self hxa, htail]

/-- A place that comes to nobody goes. -/
lemma filterMap_erase_of_none (ha : g a = none) : (l.erase a).filterMap g = l.filterMap g := by
  induction l with
  | nil => rfl
  | cons x l ih =>
    by_cases hxa : x = a
    · subst hxa
      rw [List.erase_cons_head, List.filterMap_cons, ha]
    · rw [List.erase_cons_tail (by simpa using hxa), List.filterMap_cons, List.filterMap_cons, ih]

end Places

/-- When all are alive, every place is held by its heir. -/
lemma filterMap_heir_of_alive {l : List K} (h : ∀ a ∈ l, alive a = true) : l.filterMap (heir alive p) = l := by
  induction l with
  | nil => rfl
  | cons x l ih =>
    rw [List.filterMap_cons, heir_of_alive (h x List.mem_cons_self)]
    dsimp only
    rw [ih fun a ha => h a (List.mem_cons_of_mem _ ha)]

end DistCache.Lib
