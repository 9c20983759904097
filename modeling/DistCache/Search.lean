import DistCache.ConsistentHash

/-!
What `GetServer` dereferences.

It prints `it->first` before it asks whether `it` is `end()`.  What it returns does not depend on what
is printed, so it is the right point for every key; but for the keys behind the largest point of the ring
the iterator that it dereferences designates nothing (`searchSound_iff`).
-/

namespace DistCache

open Lib

namespace ConsistentHash

variable {c : ConsistentHash} {key : Str} {p : UInt32}

/-- An iterator of `key2Index`: the point that it designates, or `end()`. -/
abbrev Iter := Option UInt32

/-- `key2Index.begin()`. -/
def begin (c : ConsistentHash) : Iter := least c.key2Index.keys

/-- `key2Index.lower_bound(key1)`. -/
def found (c : ConsistentHash) (key : Str) : Iter := lowerBound c.key2Index.keys (murmur3_32 key)

/-- The iterators that `GetServer` dereferences: for what it prints, and for what it returns. -/
def dereferenced (c : ConsistentHash) (key : Str) : List Iter :=
  [c.found key, if c.found key = none then c.begin else c.found key]

/-- The point it returns is the one that it reads last. -/
lemma getLast_dereferenced : (c.dereferenced key).getLast? = some (c.getServer key) := by
  have hlast : (if c.found key = none then c.begin else c.found key) = c.getServer key := by
    unfold getServer clockwise begin
    cases hfound : c.found key with
    | none =>
      rw [if_pos rfl, show lowerBound c.key2Index.keys (murmur3_32 key) = none from hfound, Option.none_or]
    | some p =>
      rw [if_neg (Option.some_ne_none p),
        show lowerBound c.key2Index.keys (murmur3_32 key) = some p from hfound, Option.some_or]
  rw [dereferenced, hlast]
  rfl

/-- The smallest point of the ring that is not below `h`, or the smallest one when all are below. -/
def FirstFrom (c : ConsistentHash) (h p : UInt32) : Prop :=
  p ∈ c.key2Index.keys ∧
    ((h.toNat ≤ p.toNat ∧ ∀ q ∈ c.key2Index.keys, h.toNat ≤ q.toNat → p.toNat ≤ q.toNat) ∨
      (∀ q ∈ c.key2Index.keys, q.toNat < h.toNat) ∧ ∀ q ∈ c.key2Index.keys, p.toNat ≤ q.toNat)

/-- What is asked of a search: it dereferences only iterators that designate a point, it returns the first
point from the hash of the key on, and reading `key2Index` there leaves it alone. -/
structure SearchSound (c : ConsistentHash) (key : Str) : Prop where
  designates : ∀ it ∈ c.dereferenced key, ∃ p ∈ c.key2Index.keys, it = some p
  returns : ∃ p, c.getServer key = some p ∧ c.FirstFrom (murmur3_32 key) p ∧
    (subscript c.key2Index p 0).1 = c.key2Index

/-- What is returned is right for every key. -/
lemma exists_firstFrom (hne : c.key2Index.keys.Nonempty) (key : Str) :
    ∃ p, c.getServer key = some p ∧ c.FirstFrom (murmur3_32 key) p ∧
      (subscript c.key2Index p 0).1 = c.key2Index := by
  obtain ⟨p, hp⟩ := exists_clockwise hne (murmur3_32 key)
  have hfirst : c.FirstFrom (murmur3_32 key) p := clockwise_eq_some_iff.mp hp
  exact ⟨p, hp, hfirst, subscript_fst_eq_iff.mpr (Finmap.mem_keys.mp hfirst.1)⟩

/-- `lower_bound` finds a point exactly when the hash is not behind all of them. -/
lemma found_ne_none_iff :
    c.found key ≠ none ↔ ∃ p ∈ c.key2Index.keys, (murmur3_32 key).toNat ≤ p.toNat := by
  have hnone : c.found key = none ↔ ∀ p ∈ c.key2Index.keys, p.toNat < (murmur3_32 key).toNat :=
    lowerBound_eq_none_iff
  rw [Ne, hnone]
  push Not
  rfl

/-- A search is sound when `lower_bound` finds a point. -/
lemma searchSound_iff_found (hne : c.key2Index.keys.Nonempty) :
    c.SearchSound key ↔ c.found key ≠ none := by
  constructor
  · intro h hend
    obtain ⟨p, -, hp⟩ := h.designates (c.found key) List.mem_cons_self
    rw [hend] at hp
    cases hp
  · intro hfound
    obtain ⟨p, hp⟩ := Option.ne_none_iff_exists'.mp hfound
    have hmem : p ∈ c.key2Index.keys := (lowerBound_eq_some_iff.mp hp).1
    refine ⟨fun it hit => ⟨p, hmem, ?_⟩, exists_firstFrom hne key⟩
    rw [dereferenced, if_neg hfound, hp] at hit
    simpa using hit

/-- **The search.**  On a ring that is not empty `GetServer` dereferences only iterators that designate a
point, besides returning the right one, exactly when the hash of the key is not behind the largest point. -/
theorem searchSound_iff (hne : c.key2Index.keys.Nonempty) :
    c.SearchSound key ↔ ∃ p ∈ c.key2Index.keys, (murmur3_32 key).toNat ≤ p.toNat := by
  rw [searchSound_iff_found hne, found_ne_none_iff]

/-! ### The ring of one primary -/

/-- The ring of the master when one primary has joined. -/
@[irreducible] def single : ConsistentHash := (initializeRing 0 100).addNode 0

lemma mem_keys_addNode {index : ℕ} :
    p ∈ (c.addNode index).key2Index.keys ↔ p ∈ c.key2Index.keys ∨ c.IsPoint index p := by
  rw [Finmap.mem_keys, Finmap.mem_iff, Finmap.mem_keys, Finmap.mem_iff, lookup_addNode]
  unfold IsPoint
  cases c.key2Index.lookup p with
  | some v => simp
  | none => split_ifs with hp <;> simp [hp]

lemma mem_single : p ∈ single.key2Index.keys ↔ ∃ j < 100, point ((0 : ℕ) : ℤ) j = p := by
  have hempty : p ∉ (initializeRing 0 100).key2Index.keys := Finset.notMem_empty p
  unfold single
  rw [mem_keys_addNode, or_iff_right hempty]
  rfl

lemma point_mem_single {j : ℕ} (hj : j < 100) : point ((0 : ℕ) : ℤ) j ∈ single.key2Index.keys :=
  mem_single.mpr ⟨j, hj, rfl⟩

lemma nonempty_single : single.key2Index.keys.Nonempty := by
  obtain ⟨j, hj⟩ : ∃ j, j < 100 := ⟨0, by decide⟩
  exact ⟨_, point_mem_single hj⟩

/-- A key that is itself a label is found at its own point. -/
theorem searchSound_label : single.SearchSound (lit "SHARD-0NODE-0") := by
  have hlabel : ∃ j < 100, label ((0 : ℕ) : ℤ) j = lit "SHARD-0NODE-0" := by decide +kernel
  obtain ⟨j, hj, hkey⟩ := hlabel
  refine (searchSound_iff nonempty_single).mpr ⟨_, point_mem_single hj, ?_⟩
  rw [← hkey, point]

/-- The key `ACT` lies behind all points of one primary. -/
theorem searchSound_behind :
    single.key2Index.keys.Nonempty ∧ none ∈ single.dereferenced (lit "ACT") ∧
      ¬ single.SearchSound (lit "ACT") := by
  have hbehind : ∀ j < 100, (point ((0 : ℕ) : ℤ) j).toNat < (murmur3_32 (lit "ACT")).toNat := by
    decide +kernel
  have hend : single.found (lit "ACT") = none := by
    by_contra hfound
    obtain ⟨p, hp, hle⟩ := found_ne_none_iff.mp hfound
    obtain ⟨j, hj, rfl⟩ := mem_single.mp hp
    exact absurd (hbehind j hj) (not_lt.mpr hle)
  refine ⟨nonempty_single, ?_, fun h => (searchSound_iff_found nonempty_single).mp h hend⟩
  rw [dereferenced, hend]
  exact List.mem_cons_self

end ConsistentHash

end DistCache
