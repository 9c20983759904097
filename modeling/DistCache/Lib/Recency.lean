import Mathlib.Data.List.Dedup
import Mathlib.Data.List.Induction
import Mathlib.Data.List.Nodup

/-!
The order in which the elements of a list were used last, and its first `n` elements.

A least recently used map with room for `n` keys brings a key that is used to the front and forgets what
comes after the `n`-th one.  Forgetting commutes with using (`take_front_take`), so what it holds are the
first `n` keys of the list that forgets nothing; and a key is among them iff fewer than `n` other keys have
been used since it was used last (`mem_take_recent`).
-/

namespace DistCache.Lib

variable {α : Type*} [DecidableEq α] {a : α} {l pre post : List α} {n : ℕ}

/-- The elements of a list without repetition, the one that occurs last first. -/
def recent (l : List α) : List α := l.dedup.reverse

lemma dedup_concat (l : List α) (a : α) : (l ++ [a]).dedup = l.dedup.filter (· ≠ a) ++ [a] := by
  induction l with
  | nil => rfl
  | cons x l ih =>
    rw [List.cons_append]
    by_cases hmem : x ∈ l
    · rw [List.dedup_cons_of_mem (List.mem_append_left _ hmem), List.dedup_cons_of_mem hmem, ih]
    · by_cases hx : x = a
      · rw [List.dedup_cons_of_mem (by simp [hx]), List.dedup_cons_of_notMem hmem, ih,
          List.filter_cons_of_neg (by simp [hx])]
      · rw [List.dedup_cons_of_notMem (by simp [hmem, hx]), List.dedup_cons_of_notMem hmem, ih,
          List.filter_cons_of_pos (by simp [hx]), List.cons_append]

/-- The element that is used comes first. -/
lemma recent_concat (l : List α) (a : α) : recent (l ++ [a]) = a :: (recent l).filter (· ≠ a) := by
  unfold recent
  rw [dedup_concat, List.reverse_append, List.filter_reverse]
  rfl

lemma mem_recent : a ∈ recent l ↔ a ∈ l := by
  rw [recent, List.mem_reverse, List.mem_dedup]

lemma nodup_recent (l : List α) : (recent l).Nodup := List.nodup_reverse.mpr (List.nodup_dedup l)

lemma length_recent (l : List α) : (recent l).length = l.dedup.length := List.length_reverse

/-! ### Forgetting -/

lemma take_filter_take (hl : l.Nodup) (a : α) (n : ℕ) :
    ((l.take (n + 1)).filter (· ≠ a)).take n = (l.filter (· ≠ a)).take n := by
  induction l generalizing n with
  | nil => simp
  | cons x l ih =>
    rw [List.nodup_cons] at hl
    rw [List.take_succ_cons]
    by_cases hx : x = a
    · -- the rest is free of `a`
      have hfree : ∀ y ∈ l, decide (y ≠ a) = true := fun y hy => by
        simpa [← hx] using ne_of_mem_of_not_mem hy hl.1
      rw [List.filter_cons_of_neg (by simp [hx]), List.filter_cons_of_neg (by simp [hx]),
        List.filter_eq_self.mpr hfree, List.filter_eq_self.mpr fun y hy => hfree y (List.mem_of_mem_take hy),
        List.take_take, Nat.min_self]
    · rw [List.filter_cons_of_pos (by simp [hx]), List.filter_cons_of_pos (by simp [hx])]
      cases n with
      | zero => rfl
      | succ n => rw [List.take_succ_cons, List.take_succ_cons, ih hl.2]

/-- What has been forgotten does not come back. -/
lemma take_front_take (l : List α) (a : α) (n : ℕ) :
    (a :: ((recent l).take n).filter (· ≠ a)).take n = (recent (l ++ [a])).take n := by
  rw [recent_concat]
  cases n with
  | zero => rfl
  | succ n => rw [List.take_succ_cons, List.take_succ_cons, take_filter_take (nodup_recent l)]

/-! ### Who is among the first -/

/-- Behind what has been used since comes `a`. -/
lemma recent_split (h : a ∉ post) (pre : List α) :
    ∃ rest, recent (pre ++ a :: post) = recent post ++ a :: rest := by
  induction post using List.reverseRecOn with
  | nil => exact ⟨_, recent_concat pre a⟩
  | append_singleton post b ih =>
    rw [List.mem_append, List.mem_singleton, not_or] at h
    obtain ⟨rest, hrest⟩ := ih h.1
    refine ⟨rest.filter (· ≠ b), ?_⟩
    rw [← List.cons_append, ← List.append_assoc, recent_concat, recent_concat, hrest, List.filter_append,
      List.filter_cons_of_pos (by simp [h.2]), List.cons_append]

omit [DecidableEq α] in
lemma exists_last (h : a ∈ l) : ∃ pre post, l = pre ++ a :: post ∧ a ∉ post := by
  obtain ⟨as, bs, hsplit, hmem⟩ := List.eq_append_cons_of_mem (List.mem_reverse.mpr h)
  refine ⟨bs.reverse, as.reverse, ?_, fun hmem' => hmem (List.mem_reverse.mp hmem')⟩
  have hl := congrArg List.reverse hsplit
  rw [List.reverse_reverse, List.reverse_append, List.reverse_cons, List.append_assoc] at hl
  exact hl

omit [DecidableEq α] in
lemma mem_take_append (h : a ∉ pre) : a ∈ (pre ++ a :: post).take n ↔ pre.length < n := by
  rw [List.take_append, List.mem_append]
  constructor
  · rintro (hmem | hmem)
    · exact absurd (List.mem_of_mem_take hmem) h
    · by_contra hle
      rw [Nat.sub_eq_zero_of_le (Nat.not_lt.mp hle)] at hmem
      exact absurd hmem List.not_mem_nil
  · intro hlt
    obtain ⟨k, hk⟩ := Nat.exists_eq_add_of_lt hlt
    right
    rw [hk, Nat.add_assoc, Nat.add_sub_cancel_left, List.take_succ_cons]
    exact List.mem_cons_self

/-- **Reuse distance.**  An element is among the first `n` iff fewer than `n` others have been used since its
last use. -/
theorem mem_take_recent : a ∈ (recent l).take n ↔
    ∃ pre post, l = pre ++ a :: post ∧ a ∉ post ∧ post.dedup.length < n := by
  constructor
  · intro hmem
    obtain ⟨pre, post, rfl, hpost⟩ := exists_last (mem_recent.mp (List.mem_of_mem_take hmem))
    obtain ⟨rest, hrest⟩ := recent_split hpost pre
    rw [hrest, mem_take_append (fun h => hpost (mem_recent.mp h)), length_recent] at hmem
    exact ⟨pre, post, rfl, hpost, hmem⟩
  · rintro ⟨pre, post, rfl, hpost, hlt⟩
    obtain ⟨rest, hrest⟩ := recent_split hpost pre
    rw [hrest, mem_take_append (fun h => hpost (mem_recent.mp h)), length_recent]
    exact hlt

end DistCache.Lib
