import Mathlib.Data.Finset.Card
import DistCache.Cache.Migration

/-!
How many entries a cache server holds.

The constructor keeps `cache_size_local` and does not tell it to `MainCache`, which is default-constructed
and has room for ten entries whatever is asked for.  So the number of entries is that of the keys written
so far, up to ten (`length_of_run`), and the bound that was asked for holds in a run exactly when it is at
least ten, or no more keys than that are written.
-/

namespace DistCache

open Lib

/-- What reaches the store from outside. -/
inductive StoreEvent where
  /-- `Client_chat` handles a request. -/
  | request (message : Str)
  /-- `from_single_cache` receives an entry that migrates. -/
  | migrated (message : Str)

/-- The key that is written, if there is one. -/
def StoreEvent.key : StoreEvent → Option Str
  | request message => (writeOf message).map Prod.fst
  | migrated message => (writeOf message).map Prod.fst

/-- The keys that are written. -/
def writtenKeys (es : List StoreEvent) : Finset Str := (es.filterMap StoreEvent.key).toFinset

namespace Cache

/-- The cache after an event. -/
def storeStep (c : Cache) : StoreEvent → Option Cache
  | .request message => (c.clientChat message).map Prod.fst
  | .migrated message => c.fromSingleCache message

/-- The cache after the events. -/
def storeRun (c : Cache) (es : List StoreEvent) : Option Cache := es.foldlM storeStep c

variable {c c' : Cache} {e : StoreEvent} {es : List StoreEvent} {W : Finset Str}

/-! ### The number of entries -/

/-- The store has room for ten, its keys are among those written, and it holds all of them or is full. -/
structure Filled (W : Finset Str) (c : Cache) : Prop where
  capacity : c.mainCache.capacity = 10
  keys : ∀ k ∈ c.mainCache.keys, k ∈ W
  length : c.mainCache.keys.length = min 10 W.card

/-- A read moves a key. -/
lemma Filled.get (h : Filled W c) (key : Str) (hc : c'.mainCache = (c.mainCache.get key).2) :
    Filled W c' := by
  refine ⟨?_, ?_, ?_⟩
  · rw [hc, LruCache.capacity_get, h.capacity]
  · intro k hk
    rw [hc, LruCache.mem_keys_iff, LruCache.lookup_get, ← LruCache.mem_keys_iff] at hk
    exact h.keys k hk
  · rw [hc, LruCache.length_keys, LruCache.length_get, ← LruCache.length_keys, h.length]

/-- A write adds its key.  One that was written before and is not there any more has made the store
full. -/
lemma Filled.put (h : Filled W c) (key val : Str) (hc : c'.mainCache = (c.mainCache.put key val).2) :
    Filled (insert key W) c' := by
  have hten : c.mainCache.keys.length ≤ 10 := by
    rw [h.length]
    exact min_le_left _ _
  have hkeys : (c.mainCache.put key val).2.keys
      = (key :: c.mainCache.keys.filter (· ≠ key)).take 10 := LruCache.keys_put h.capacity hten
  refine ⟨by rw [hc, LruCache.capacity_put, h.capacity], ?_, ?_⟩
  · intro k hk
    rw [hc, hkeys] at hk
    rcases List.mem_cons.mp (List.mem_of_mem_take hk) with rfl | hk
    · exact Finset.mem_insert_self _ _
    · exact Finset.mem_insert_of_mem (h.keys k (List.mem_filter.mp hk).1)
  · have hnodup : c.mainCache.keys.Nodup := c.mainCache.nodup
    have hlen := h.length
    rw [hc, hkeys, List.length_take, List.length_cons]
    by_cases hmem : key ∈ c.mainCache.keys
    · rw [LruCache.length_filter_keys hmem, Finset.insert_eq_of_mem (h.keys key hmem)]
      omega
    · have hfilter : c.mainCache.keys.filter (· ≠ key) = c.mainCache.keys :=
        List.filter_eq_self.mpr fun k hk => by simpa using ne_of_mem_of_not_mem hk hmem
      rw [hfilter]
      by_cases hold : key ∈ W
      · -- a key is missing, so there are more than ten
        have hlt : c.mainCache.keys.toFinset.card < W.card :=
          Finset.card_lt_card ⟨fun k hk => h.keys k (List.mem_toFinset.mp hk),
            fun hsub => hmem (List.mem_toFinset.mp (hsub hold))⟩
        rw [List.toFinset_card_of_nodup hnodup] at hlt
        rw [Finset.insert_eq_of_mem hold]
        omega
      · rw [Finset.card_insert_of_notMem hold]
        omega

lemma Filled.step (h : Filled W c) (hs : c.storeStep e = some c') :
    Filled (W ∪ e.key.toFinset) c' := by
  have hserve : ∀ message, c'.mainCache = c.mainCache.serve message →
      Filled (W ∪ ((writeOf message).map Prod.fst).toFinset) c' := by
    intro message hc
    unfold LruCache.serve at hc
    cases hw : writeOf message with
    | none =>
      rw [hw] at hc
      simpa using h.get message hc
    | some w =>
      rw [hw] at hc
      simpa [Finset.union_comm] using h.put w.1 w.2 hc
  cases e with
  | request message =>
    obtain ⟨buffer, heq⟩ := c.clientChat_eq message
    rw [storeStep, heq, Option.map_some, Option.some.injEq] at hs
    exact hserve message (by rw [← hs])
  | migrated message =>
    simp only [storeStep, fromSingleCache, slice_eq_writeOf, Option.bind_eq_bind,
      Option.bind_eq_some_iff, Option.pure_def, Option.some.injEq] at hs
    obtain ⟨w, hw, rfl⟩ := hs
    refine hserve message ?_
    rw [LruCache.serve, hw]

lemma writtenKeys_cons : writtenKeys (e :: es) = e.key.toFinset ∪ writtenKeys es := by
  ext k
  unfold writtenKeys
  cases hk : e.key <;> simp [hk]

lemma Filled.run (h : Filled W c) (hr : c.storeRun es = some c') : Filled (W ∪ writtenKeys es) c' := by
  induction es generalizing W c with
  | nil =>
    cases hr
    simpa [writtenKeys] using h
  | cons e es ih =>
    rw [storeRun, List.foldlM_cons, Option.bind_eq_bind, Option.bind_eq_some_iff] at hr
    obtain ⟨c₁, hs, hr⟩ := hr
    rw [writtenKeys_cons, ← Finset.union_assoc]
    exact ih (h.step hs) hr

/-- **The number of entries** is that of the keys written, up to ten. -/
lemma length_of_run {n : ℤ} {status ip portForClient portForCache : Str}
    (hr : (Cache.new n status ip portForClient portForCache).storeRun es = some c) :
    c.mainCache.entries.length = min 10 (writtenKeys es).card := by
  have hnew : Filled ∅ (Cache.new n status ip portForClient portForCache) :=
    ⟨rfl, fun k hk => absurd hk List.not_mem_nil, rfl⟩
  have hlen := (hnew.run hr).length
  rwa [Finset.empty_union, LruCache.keys, List.length_map] at hlen

/-- The size that was asked for bounds the store throughout a run exactly when it is at least the default
capacity, or no more keys than that are written. -/
theorem mainCache_within_iff {n : ℤ} {status ip portForClient portForCache : Str}
    (hr : (Cache.new n status ip portForClient portForCache).storeRun es = some c) :
    (∀ i c', (Cache.new n status ip portForClient portForCache).storeRun (es.take i) = some c' →
      (c'.mainCache.entries.length : ℤ) ≤ n) ↔
    LruCache.defaultCapacity ≤ n ∨ ((writtenKeys es).card : ℤ) ≤ n := by
  have hdefault : LruCache.defaultCapacity = 10 := rfl
  rw [hdefault]
  constructor
  · intro hall
    have hlast := hall es.length c (by rw [List.take_length]; exact hr)
    rw [length_of_run hr] at hlast
    omega
  · intro hcond i c' hc'
    have hsub : writtenKeys (es.take i) ⊆ writtenKeys es := by
      intro k hk
      unfold writtenKeys at hk ⊢
      rw [List.mem_toFinset] at hk ⊢
      exact ((List.take_sublist i es).filterMap _).subset hk
    have hcard := Finset.card_le_card hsub
    rw [length_of_run hc']
    omega

/-- With room for twelve asked for, eleven keys are written and ten are held. -/
theorem mainCache_within_twelve : ∃ c,
    (Cache.new 12 (lit "P") (lit "127.0.0.1") (lit "8001") (lit "9001")).storeRun
      ((List.range 11).map fun i => .request (dec i ++ lit "#v")) = some c ∧
    c.mainCache.entries.length = 10 ∧ (c.mainCache.entries.length : ℤ) ≤ 12 := by
  have hrun : ((Cache.new 12 (lit "P") (lit "127.0.0.1") (lit "8001") (lit "9001")).storeRun
      ((List.range 11).map fun i => .request (dec i ++ lit "#v"))).map
        (fun c => c.mainCache.entries.length) = some 10 := by
    decide +kernel
  obtain ⟨c, hc, hlen⟩ := Option.map_eq_some_iff.mp hrun
  exact ⟨c, hc, hlen, (mainCache_within_iff hc).mpr (.inl (by decide)) 11 c hc⟩

/-- With room for one asked for, two keys are written and two are held. -/
theorem mainCache_exceeds_size : ∃ c,
    (Cache.new 1 (lit "P") (lit "127.0.0.1") (lit "8001") (lit "9001")).storeRun
      [.request (lit "a#1"), .request (lit "b#2")] = some c ∧
    ¬ (c.mainCache.entries.length : ℤ) ≤ 1 := by
  have hrun : ((Cache.new 1 (lit "P") (lit "127.0.0.1") (lit "8001") (lit "9001")).storeRun
      [.request (lit "a#1"), .request (lit "b#2")]).map (fun c => c.mainCache.entries.length) =
        some 2 := by
    decide +kernel
  obtain ⟨c, hc, hlen⟩ := Option.map_eq_some_iff.mp hrun
  exact ⟨c, hc, by rw [hlen]; decide⟩

end Cache

end DistCache
