import Mathlib.Data.List.Nodup
import Mathlib.Logic.Function.Basic

/-!
Loops over a list of addresses that change the object at each of them, in a memory that is a function of
the address.  When no address comes twice, every object of the list is changed once, and the others stay.
A loop that also collects the addresses of some of the objects collects those that were such before it.
-/

namespace DistCache.Lib

variable {α β : Type*} [DecidableEq α]

/-- A loop that writes `g` of what it reads at each address. -/
def sweep (g : β → β) (l : List α) (object : α → β) : α → β :=
  l.foldl (fun object a => Function.update object a (g (object a))) object

variable {g : β → β} {l : List α} {object : α → β} {a : α}

lemma sweep_of_not_mem (h : a ∉ l) : sweep g l object a = object a := by
  induction l generalizing object with
  | nil => rfl
  | cons b l ih =>
    rw [List.mem_cons, not_or] at h
    rw [sweep, List.foldl_cons]
    exact (ih h.2).trans (Function.update_of_ne h.1 _ _)

lemma sweep_of_mem (hl : l.Nodup) (h : a ∈ l) : sweep g l object a = g (object a) := by
  induction l generalizing object with
  | nil => exact absurd h List.not_mem_nil
  | cons b l ih =>
    obtain ⟨hb, hl⟩ := List.nodup_cons.mp hl
    rw [sweep, List.foldl_cons]
    rcases List.mem_cons.mp h with rfl | h
    · exact (sweep_of_not_mem hb).trans (Function.update_self _ _ _)
    · have hne : a ≠ b := fun heq => hb (heq ▸ h)
      refine (ih hl h).trans ?_
      rw [Function.update_of_ne hne]

/-- The loop that collects on its way what meets `p` when the loop comes to it. -/
def sweepCollect (g : β → β) (p : β → Bool) (l : List α) (object : α → β) : (α → β) × List α :=
  l.foldl (fun acc a => (Function.update acc.1 a (g (acc.1 a)), if p (acc.1 a) then acc.2 ++ [a] else acc.2))
    (object, [])

lemma sweepCollect_eq (p : β → Bool) (hl : l.Nodup) :
    sweepCollect g p l object = (sweep g l object, l.filter fun a => p (object a)) := by
  have hloop (object : α → β) (acc : List α) :
      l.foldl (fun acc a => (Function.update acc.1 a (g (acc.1 a)),
        if p (acc.1 a) then acc.2 ++ [a] else acc.2)) (object, acc) =
      (sweep g l object, acc ++ l.filter fun a => p (object a)) := by
    induction l generalizing object acc with
    | nil => simp [sweep]
    | cons b l ih =>
      obtain ⟨hb, hl⟩ := List.nodup_cons.mp hl
      have hrest : (l.filter fun a => p (Function.update object b (g (object b)) a)) =
          l.filter fun a => p (object a) := by
        refine List.filter_congr fun a ha => ?_
        rw [Function.update_of_ne (ne_of_mem_of_not_mem ha hb)]
      rw [List.foldl_cons, ih hl, hrest, List.filter_cons]
      dsimp only
      split_ifs
      · rw [List.append_assoc, List.singleton_append]
        rfl
      · rfl
  exact hloop object []

end DistCache.Lib
