import Mathlib.Order.Lattice.Nat
import DistCache.Cache.LruNodes

/-!
Two stores of different capacities under the same calls.

A get that misses in the small store reorders only the large one, and a put may update an entry there
that it inserts in the small one, with an eviction.  All the same the entries of the small store are a
subsequence of those of the large one: as long as the small one has room the two hold the same, and once
it is full whatever comes to its head comes to the head of the other too (`lruNodes_inclusion`).
-/

namespace DistCache

open Lib

namespace LruCache

variable {K V : Type} [DecidableEq K] {r r' : LruCache K V} {k key : K} {v val : V}

/-! ### What an operation does to the entries -/

lemma entries_put_of_not_mem [Inhabited K] (h : key ∉ r.keys) : (r.put key val).2.entries =
    if r.capacity ≤ r.entries.length then ((key, val) :: r.entries).dropLast
    else (key, val) :: r.entries := by
  have htouch : (r.touch key val).entries = (key, val) :: r.entries := by
    rw [entries_touch, others_of_not_mem h]
  split_ifs with hfull
  · rw [put_of_full h hfull, ← htouch]
    rfl
  · rw [put_of_room h (not_le.mp hfull), htouch]

/-! ### One store within the other -/

/-- The entries of `r` are entries of `r'` in the same order, and all of them as long as `r` has room. -/
structure Within (r r' : LruCache K V) : Prop where
  sublist : r.entries.Sublist r'.entries
  full : r.entries = r'.entries ∨ r.capacity ≤ r.entries.length
  capacity : r.capacity ≤ r'.capacity

omit [DecidableEq K] in
lemma Within.mem_keys (h : Within r r') (hk : k ∈ r.keys) : k ∈ r'.keys :=
  (h.sublist.map Prod.fst).subset hk

lemma Within.lookup (h : Within r r') (hv : r.lookup k = some v) : r'.lookup k = some v :=
  lookup_of_mem (h.sublist.subset (mem_of_lookup hv))

lemma Within.others (h : Within r r') : (r.others key).Sublist (r'.others key) := h.sublist.filter _

/-- An entry that both have comes to both heads. -/
lemma Within.touch (h : Within r r') (hkey : key ∈ r.keys) (val : V) :
    Within (r.touch key val) (r'.touch key val) where
  sublist := h.others.cons_cons _
  full := by
    rw [length_touch_of_mem hkey]
    refine h.full.imp_left fun heq => ?_
    rw [entries_touch, entries_touch, LruCache.others, LruCache.others, heq]
  capacity := h.capacity

omit [DecidableEq K] in
/-- The keys of the small store are those of the large one only while they are equal. -/
lemma Within.full_of_not_mem (h : Within r r') (hkey : key ∉ r.keys) (hkey' : key ∈ r'.keys) :
    r.capacity ≤ r.entries.length := by
  refine h.full.resolve_left fun heq => hkey ?_
  rw [keys, heq]
  exact hkey'

/-- A get. -/
lemma Within.get [Inhabited V] (h : Within r r') (key : K) : Within (r.get key).2 (r'.get key).2 := by
  by_cases hkey : key ∈ r.keys
  · obtain ⟨v, hv⟩ := exists_lookup hkey
    rw [get_of_lookup hv, get_of_lookup (h.lookup hv)]
    exact h.touch hkey v
  · rw [get_of_not_mem hkey]
    by_cases hkey' : key ∈ r'.keys
    · -- the large store alone is reordered
      obtain ⟨v, hv⟩ := exists_lookup hkey'
      rw [get_of_lookup hv]
      refine ⟨?_, .inr (h.full_of_not_mem hkey hkey'), h.capacity⟩
      rw [entries_touch, ← others_of_not_mem hkey]
      exact h.others.cons _
    · rw [get_of_not_mem hkey']
      exact h

/-- A put of a key that neither has. -/
lemma Within.insert [Inhabited K] (h : Within r r') (hkey' : key ∉ r'.keys) (val : V) :
    Within (r.put key val).2 (r'.put key val).2 := by
  have hkey : key ∉ r.keys := fun hk => hkey' (h.mem_keys hk)
  have hcons : ((key, val) :: r.entries).Sublist ((key, val) :: r'.entries) := h.sublist.cons_cons _
  have hcap : (r.put key val).2.capacity ≤ (r'.put key val).2.capacity := by
    rw [capacity_put, capacity_put]
    exact h.capacity
  by_cases hfull : r.capacity ≤ r.entries.length
  · have hentries : (r.put key val).2.entries = ((key, val) :: r.entries).dropLast := by
      rw [entries_put_of_not_mem hkey, if_pos hfull]
    refine ⟨?_, .inr ?_, hcap⟩
    · rw [hentries, entries_put_of_not_mem hkey']
      split_ifs
      · -- the last entry of the large store is not among the others of the small one
        have htails := hcons.reverse.tail.reverse
        rw [List.tail_reverse, List.tail_reverse, List.reverse_reverse, List.reverse_reverse] at htails
        exact htails
      · exact (List.dropLast_sublist _).trans hcons
    · rw [hentries, capacity_put, List.length_dropLast, List.length_cons, Nat.add_sub_cancel]
      exact hfull
  · -- with room in the small store the two are equal
    have heq : r.entries = r'.entries := h.full.resolve_right hfull
    have hroom : ¬ r'.capacity ≤ r'.entries.length := by
      rw [← heq]
      have hle := h.capacity
      omega
    have hentries : (r.put key val).2.entries = (r'.put key val).2.entries := by
      rw [entries_put_of_not_mem hkey, entries_put_of_not_mem hkey', if_neg hfull, if_neg hroom, heq]
    exact ⟨by rw [hentries], .inl hentries, hcap⟩

/-- A put. -/
lemma Within.put [Inhabited K] (h : Within r r') (key : K) (val : V) :
    Within (r.put key val).2 (r'.put key val).2 := by
  by_cases hkey' : key ∈ r'.keys
  · rw [put_of_mem hkey']
    by_cases hkey : key ∈ r.keys
    · rw [put_of_mem hkey]
      exact h.touch hkey val
    · -- an update of the large store, an insertion and an eviction in the small one
      have hfull := h.full_of_not_mem hkey hkey'
      have hentries : (r.put key val).2.entries = ((key, val) :: r.entries).dropLast := by
        rw [entries_put_of_not_mem hkey, if_pos hfull]
      refine ⟨?_, .inr ?_, ?_⟩
      · rw [hentries, entries_touch, ← others_of_not_mem hkey]
        exact (List.dropLast_sublist _).trans (h.others.cons_cons _)
      · rw [hentries, capacity_put, List.length_dropLast, List.length_cons, Nat.add_sub_cancel]
        exact hfull
      · rw [capacity_put]
        exact h.capacity
  · exact h.insert hkey' val

variable [Inhabited K] [Inhabited V]

lemma Within.call (h : Within r r') (call : LruCall K V) : Within (r.call call).2 (r'.call call).2 := by
  cases call with
  | put key val => exact h.put key val
  | get key => exact h.get key
  | check key => exact h
  | allKey => exact h

lemma Within.run (h : Within r r') (calls : List (LruCall K V)) :
    Within (r.run calls).2 (r'.run calls).2 := by
  induction calls generalizing r r' with
  | nil => exact h
  | cons call calls ih => exact ih (h.call call)

end LruCache

variable {K V : Type} [DecidableEq K] [Inhabited K] [Inhabited V]

/-- **No anomaly of a larger store.**  Under the same calls the entries of the store with the smaller
capacity, read from head to tail, are a subsequence of those of the other.  So whatever the smaller one
holds is a hit in both, with the same value. -/
theorem lruNodes_inclusion (alloc₁ alloc₂ : Allocator) {c₁ c₂ : ℤ} (hle : c₁ ≤ c₂)
    (calls : List (LruCall K V)) : ∃ (s₁ s₂ : LruNodes K V) (l₁ l₂ : List Ptr),
      ((LruNodes.new alloc₁ c₁).run alloc₁ calls).map Prod.snd = some s₁ ∧
      ((LruNodes.new alloc₂ c₂).run alloc₂ calls).map Prod.snd = some s₂ ∧
      Walk s₁.next s₁.head l₁ s₁.tail ∧ Walk s₂.next s₂.head l₂ s₂.tail ∧
      (l₁.map s₁.entry).Sublist (l₂.map s₂.entry) ∧
      ∀ k, s₁.check k = true → s₂.check k = true ∧ ∃ v s₁' s₂',
        s₁.get k = some (v, s₁') ∧ s₂.get k = some (v, s₂') := by
  obtain ⟨s₁, l₁, hrun₁, h₁⟩ := (LruNodes.repr_new alloc₁ c₁).run alloc₁ calls
  obtain ⟨s₂, l₂, hrun₂, h₂⟩ := (LruNodes.repr_new alloc₂ c₂).run alloc₂ calls
  have hnew : LruCache.Within (LruCache.new c₁ : LruCache K V) (LruCache.new c₂) :=
    ⟨List.Sublist.refl _, .inl rfl, hle⟩
  have hwithin := hnew.run calls
  refine ⟨s₁, s₂, l₁, l₂, by rw [hrun₁]; rfl, by rw [hrun₂]; rfl, h₁.linked.walk_next,
    h₂.linked.walk_next, ?_, fun k hk => ?_⟩
  · rw [h₁.entries, h₂.entries]
    exact hwithin.sublist.map some
  · rw [h₁.check] at hk
    obtain ⟨v, hv⟩ := Option.isSome_iff_exists.mp hk
    have hv' := hwithin.lookup hv
    obtain ⟨s₁', -, hget₁, -⟩ := h₁.get k
    obtain ⟨s₂', -, hget₂, -⟩ := h₂.get k
    rw [LruCache.get_fst, hv] at hget₁
    rw [LruCache.get_fst, hv'] at hget₂
    refine ⟨?_, v, s₁', s₂', hget₁, hget₂⟩
    rw [h₂.check, LruCache.check, hv']
    rfl

/-- An allocator that takes the address behind all others. -/
def Allocator.behind : Allocator :=
  ⟨fun s => s.sup id + 1, fun s hmem => by
    have hle : s.sup id + 1 ≤ s.sup id := Finset.le_sup (f := id) hmem
    exact Nat.not_succ_le_self _ hle⟩

/-- A get brings the first key back to the head of a store with room for two, and the next put evicts
the second key in it and in the store with room for one. -/
theorem lruNodes_inclusion_one_two : ∃ s₁ s₂ : LruNodes ℕ ℕ,
    ((LruNodes.new .behind 1).run .behind [.put 1 10, .put 2 20, .get 1, .put 3 30]).map Prod.snd =
      some s₁ ∧
    ((LruNodes.new .behind 2).run .behind [.put 1 10, .put 2 20, .get 1, .put 3 30]).map Prod.snd =
      some s₂ ∧
    ∀ k, s₁.check k = true → s₂.check k = true := by
  have hle : (1 : ℤ) ≤ 2 := by decide
  obtain ⟨s₁, s₂, -, -, h₁, h₂, -, -, -, hcheck⟩ := lruNodes_inclusion .behind .behind hle
    [.put 1 10, .put 2 20, .get 1, .put (3 : ℕ) (30 : ℕ)]
  exact ⟨s₁, s₂, h₁, h₂, fun k hk => (hcheck k hk).1⟩

end DistCache
