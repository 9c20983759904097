import Mathlib.Algebra.BigOperators.Group.List.Basic
import Mathlib.Algebra.GroupWithZero.Nat
import Mathlib.Data.List.Perm.Basic

/-!
A list of threads, one of which moves: `l.set i b` is the list after the thread at `i` has gone from `a`
to `b`.  What is counted, summed or collected over the threads changes by what `a` and `b` give.
-/

namespace DistCache.Lib

variable {α : Type*} {l : List α} {i : ℕ} {a : α}

/-- Up to the order, `b` takes the place of `a`. -/
lemma cons_set_perm (h : l[i]? = some a) (b : α) : (a :: l.set i b).Perm (b :: l) := by
  obtain ⟨hi, rfl⟩ := List.getElem?_eq_some_iff.mp h
  have hset : (l[i] :: l.set i b).Perm (l[i] :: b :: l.eraseIdx i) :=
    (List.set_perm_cons_eraseIdx hi b).cons _
  have hback : (b :: l[i] :: l.eraseIdx i).Perm (b :: l) := (List.getElem_cons_eraseIdx_perm hi).cons _
  exact (hset.trans (List.Perm.swap _ _ _)).trans hback

lemma countP_set_add (h : l[i]? = some a) (b : α) (q : α → Bool) :
    (l.set i b).countP q + (if q a then 1 else 0) = l.countP q + if q b then 1 else 0 := by
  have hcount := (cons_set_perm h b).countP_eq q
  rwa [List.countP_cons, List.countP_cons] at hcount

lemma sum_set_add (h : l[i]? = some a) (b : α) (f : α → ℕ) :
    f a + ((l.set i b).map f).sum = f b + (l.map f).sum := by
  have hsum := ((cons_set_perm h b).map f).sum_eq
  rwa [List.map_cons, List.map_cons, List.sum_cons, List.sum_cons] at hsum

lemma filterMap_set_perm {β : Type*} (h : l[i]? = some a) (b : α) (f : α → Option β) :
    ((f a).toList ++ (l.set i b).filterMap f).Perm ((f b).toList ++ l.filterMap f) := by
  have hcons : ∀ c l, List.filterMap f (c :: l) = (f c).toList ++ l.filterMap f := by
    intro c l
    rw [List.filterMap_cons]
    cases f c <;> rfl
  have hperm := (cons_set_perm h b).filterMap f
  rwa [hcons, hcons] at hperm

/-- A thread that is at `c` after another place has been taken was there before. -/
lemma mem_of_mem_set {c b : α} (hmem : c ∈ l.set i b) (hne : c ≠ b) : c ∈ l :=
  (List.mem_or_eq_of_mem_set hmem).resolve_right hne

end DistCache.Lib
