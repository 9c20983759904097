import DistCache.Cache.Lru

/-!
A capacity that changes.

`put` of a new key takes out one entry when there are too many, and `set_capacity` takes out none.  So a
store that holds more than a new capacity allows goes on holding as many, whatever is put
(`length_put_of_not_mem`), until the capacity is raised again.
-/

namespace DistCache

/-- A call that puts, gets or changes the capacity. -/
inductive SizedCall (K V : Type) where
  | put (key : K) (val : V)
  | get (key : K)
  | setCapacity (capacity : ℕ)

namespace LruCache

variable {K V : Type}

/-- `set_capacity`. -/
def setCapacity (c : LruCache K V) (capacity : ℤ) : LruCache K V := { c with capacity := capacity }

variable [DecidableEq K] [Inhabited K] [Inhabited V]

/-- The store after a call. -/
def afterSized (c : LruCache K V) : SizedCall K V → LruCache K V
  | .put key val => (c.put key val).2
  | .get key => (c.get key).2
  | .setCapacity capacity => c.setCapacity capacity

/-- After every `put` of a key that was absent, the entries are within the capacity. -/
def PutsBounded : LruCache K V → List (SizedCall K V) → Prop
  | _, [] => True
  | c, call :: calls =>
    (∀ key val, call = .put key val → c.check key = false →
      ((c.afterSized call).entries.length : ℤ) ≤ (c.afterSized call).capacity) ∧
      PutsBounded (c.afterSized call) calls

/-- No key that is absent is put into a store that holds more than the capacity. -/
def NeverOverfull : LruCache K V → List (SizedCall K V) → Prop
  | _, [] => True
  | c, call :: calls =>
    (∀ key val, call = .put key val → c.check key = false → (c.entries.length : ℤ) ≤ c.capacity) ∧
      NeverOverfull (c.afterSized call) calls

variable {c : LruCache K V} {key : K} {val : V}

omit [Inhabited V] in
/-- A new key makes the store larger, or takes the place of one entry. -/
lemma length_put_of_not_mem (h : key ∉ c.keys) (val : V) : (c.put key val).2.entries.length =
    if (c.entries.length : ℤ) < c.capacity then c.entries.length + 1 else c.entries.length := by
  split_ifs with hroom
  · rw [put_of_room h hroom, length_touch_of_not_mem h]
  · rw [put_of_full h (not_lt.mp hroom), removeTail, List.length_dropLast, length_touch_of_not_mem h,
      Nat.add_sub_cancel]

omit [Inhabited V] in
lemma put_bounded_iff (h : key ∉ c.keys) (val : V) :
    ((c.put key val).2.entries.length : ℤ) ≤ (c.put key val).2.capacity ↔
      (c.entries.length : ℤ) ≤ c.capacity := by
  rw [capacity_put, length_put_of_not_mem h]
  split_ifs with hroom
  · exact iff_of_true (by omega) hroom.le
  · exact Iff.rfl

/-- **The capacity in force** bounds the entries after every `put` of an absent key, in a run of any calls,
exactly when none is put while the store holds more than the capacity. -/
theorem putsBounded_iff (capacity : ℕ) (calls : List (SizedCall K V)) :
    (new capacity : LruCache K V).PutsBounded calls ↔
      (new capacity : LruCache K V).NeverOverfull calls := by
  have hrun (c : LruCache K V) : c.PutsBounded calls ↔ c.NeverOverfull calls := by
    induction calls generalizing c with
    | nil => exact Iff.rfl
    | cons call calls ih =>
      rw [PutsBounded, NeverOverfull, ih]
      refine and_congr_left fun _ => ?_
      refine forall_congr' fun key => forall_congr' fun val => ?_
      refine imp_congr_right fun hcall => imp_congr_right fun habsent => ?_
      subst hcall
      have hmem : key ∉ c.keys := fun hmem => by
        rw [check_iff.mpr hmem] at habsent
        cases habsent
      exact put_bounded_iff hmem val
  exact hrun _

/-- Three entries, room for one, and a fourth key. -/
theorem putsBounded_not : ¬ (new 3 : LruCache ℕ ℕ).PutsBounded
    [.put 1 0, .put 2 0, .put 3 0, .setCapacity 1, .put 4 0] := by
  intro h
  exact absurd (h.2.2.2.2.1 4 0 rfl (by decide)) (by decide)

end LruCache

end DistCache
