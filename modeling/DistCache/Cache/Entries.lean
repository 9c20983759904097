import DistCache.Cache.Replica

/-!
The keys of a store have no separator in them.

A key gets into the store by three routines, and each cuts a message at its first separator.  So a migration
message, which is cut there again, gives the entry back, whatever is in the value.
-/

namespace DistCache

open Lib

/-- The keys of a store are free of separators. -/
def LruCache.SharpFree (store : LruCache Str Str) : Prop := ∀ k ∈ store.keys, sharp ∉ k

/-- A message that reaches the store. -/
inductive EntryEvent where
  /-- `LRU_handle_task` handles a request. -/
  | request (message : Str)
  /-- `from_single_cache` receives an entry. -/
  | migrated (message : Str)
  /-- `replica_cache` receives what its primary sends. -/
  | replicated (message : Str)

namespace LruCache

variable {store : LruCache Str Str} {key val message : Str}

lemma SharpFree.get (h : store.SharpFree) (key : Str) : (store.get key).2.SharpFree := by
  intro k hk
  rw [mem_keys_iff, lookup_get, ← mem_keys_iff] at hk
  exact h k hk

lemma SharpFree.put (h : store.SharpFree) (hkey : sharp ∉ key) (val : Str) :
    (store.put key val).2.SharpFree := by
  intro k hk
  obtain ⟨v, hv⟩ := exists_lookup hk
  obtain ⟨rfl, -⟩ | ⟨-, hold⟩ := lookup_put hv
  · exact hkey
  · exact h k (mem_keys_of_lookup hold)

/-- A request reads, or writes under a key that ends at the first separator. -/
lemma SharpFree.serve (h : store.SharpFree) (message : Str) : (store.serve message).SharpFree := by
  unfold LruCache.serve
  cases hw : writeOf message with
  | none => exact h.get message
  | some w => exact h.put (sharp_not_mem_of_writeOf hw) w.2

end LruCache

namespace Cache

/-- The cache after a message. -/
def entryStep (c : Cache) : EntryEvent → Option Cache
  | .request message => (c.lruHandleTask message).map Prod.fst
  | .migrated message => c.fromSingleCache message
  | .replicated message => c.replicaCache message

variable {c c' : Cache} {e : EntryEvent}

/-- Each of the three routines. -/
lemma sharpFree_of_entryStep (h : c.mainCache.SharpFree) (hs : c.entryStep e = some c') :
    c'.mainCache.SharpFree := by
  cases e with
  | request message =>
    obtain ⟨buffer, heq⟩ := c.lruHandleTask_eq message
    rw [entryStep, heq] at hs
    cases hs
    exact h.serve message
  | migrated message =>
    rw [entryStep, fromSingleCache, slice_eq_writeOf] at hs
    obtain ⟨w, hw, hs⟩ := Option.bind_eq_some_iff.mp hs
    cases hs
    exact h.put (sharp_not_mem_of_writeOf hw) w.2
  | replicated message =>
    rw [entryStep, replicaCache] at hs
    by_cases hlist : message.head? = some sharp
    · rw [if_pos hlist] at hs
      dsimp only at hs
      split_ifs at hs
      cases hs
      exact h
    · rw [if_neg hlist, handleFromPrimary_eq] at hs
      cases hs
      exact h.serve message

/-- **Entries migrate unchanged.**  In every run of the three routines from an empty store no key has a
separator in it, and what `slice` makes of the message of an entry is the entry. -/
theorem slice_toSingleCache
    (h : Reach (fun c : Cache => c.mainCache.keys = []) entryStep (fun _ _ => True) c) :
    (∀ k ∈ c.mainCache.keys, sharp ∉ k) ∧
      ∀ k v, c.mainCache.lookup k = some v →
        (c.toSingleCache k).1 = k ++ sharp :: v ∧ slice (c.toSingleCache k).1 = some (k, v) := by
  have hfree : c.mainCache.SharpFree := by
    refine h.invariant (I := fun c => c.mainCache.SharpFree) ?_ ?_
    · intro c hempty k hk
      rw [hempty] at hk
      exact absurd hk List.not_mem_nil
    · rintro c e c' - hfree - hs
      exact sharpFree_of_entryStep hfree hs
  refine ⟨hfree, fun k v hv => ?_⟩
  have hmessage : (c.toSingleCache k).1 = k ++ sharp :: v := by
    rw [toSingleCache_fst, hv, Option.getD_some]
  rw [hmessage]
  exact ⟨rfl, slice_append (hfree k (LruCache.mem_keys_of_lookup hv)) v⟩

/-- A value with separators, an empty key and an empty value. -/
theorem slice_toSingleCache_three : ∃ c,
    Reach (fun c : Cache => c.mainCache.keys = []) entryStep (fun _ _ => True) c ∧
      slice (c.toSingleCache (lit "a")).1 = some (lit "a", lit "b#c") ∧
      slice (c.toSingleCache []).1 = some ([], lit "d") ∧
      slice (c.toSingleCache (lit "e")).1 = some (lit "e", []) := by
  obtain ⟨c, hc, ha, hd, he⟩ : ∃ c, path entryStep (fun _ _ => True) newReplica
      [.request (lit "a#b#c"), .migrated (lit "#d"), .replicated (lit "e#")] = some c ∧
      c.mainCache.lookup (lit "a") = some (lit "b#c") ∧ c.mainCache.lookup [] = some (lit "d") ∧
      c.mainCache.lookup (lit "e") = some [] := ⟨_, rfl, by decide +kernel⟩
  have hr : Reach (fun c : Cache => c.mainCache.keys = []) entryStep (fun _ _ => True) c :=
    reach_of_path rfl hc
  obtain ⟨-, hslice⟩ := slice_toSingleCache hr
  exact ⟨c, hr, (hslice _ _ ha).2, (hslice _ _ hd).2, (hslice _ _ he).2⟩

end Cache

end DistCache
