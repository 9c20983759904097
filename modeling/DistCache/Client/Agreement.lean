import DistCache.Cache.LruNodes
import DistCache.Client.LocalLru

/-!
The local cache of a client beside the store of a server of the same size, under the same puts and gets.

One puts a new item in front before it takes out the old one of the key and counts the entries of its map,
the other moves nodes by hand and keeps a counter.  Without `erase` no node is left over in the first, so
both follow the same list of entries (`localLru_agrees_lruNodes`).
-/

namespace DistCache

open Lib

/-- A call that both have. -/
inductive CommonCall (K V : Type) where
  | put (key : K) (value : V)
  | get (key : K)

namespace CommonCall

variable {K V : Type}

/-- The call on `lru_cache`. -/
def client : CommonCall K V → LocalCall K V
  | put key value => .put key value
  | get key => .get key

/-- The call on `LRU_Cache`. -/
def server : CommonCall K V → LruCall K V
  | put key value => .put key value
  | get key => .get key

end CommonCall

namespace LocalLru

variable {K V : Type} [DecidableEq K]

/-- The cache after the calls. -/
def after [Inhabited K] (c : LocalLru K V) (calls : List (CommonCall K V)) : LocalLru K V :=
  calls.foldl (fun c call => (c.call call.client).2) c

variable {c : LocalLru K V} {r : LruCache K V} {key : K} {value : V}

/-! ### Nothing is left over -/

/-- The map leads to every node. -/
def NoLeftOver (c : LocalLru K V) : Prop :=
  ∀ n ∈ c.cacheItemsList, c.cacheItemsMap.lookup n.key = some n.id

lemma NoLeftOver.live (h : c.NoLeftOver) : c.live = c.cacheItemsList :=
  List.filter_eq_self.mpr fun n hn => by simpa using h n hn

lemma NoLeftOver.keys (h : c.NoLeftOver) (hr : c.Repr r) : c.cacheItemsList.map Item.key = r.keys := by
  rw [← h.live, hr.keys]

lemma NoLeftOver.lastIsLive [Inhabited K] (h : c.NoLeftOver) (call : LocalCall K V) :
    c.LastIsLive call := by
  cases call with
  | put key value =>
    intro _ _
    rw [lastKey, lastLiveKey, h.live]
  | get key => trivial
  | erase key => trivial
  | exists' key => trivial

lemma NoLeftOver.get (h : c.NoLeftOver) (key : K) : (c.get key).2.NoLeftOver := by
  unfold LocalLru.get
  split
  · exact h
  · split
    · exact h
    next n hfind =>
      intro n' hn'
      rcases List.mem_cons.mp hn' with rfl | hn'
      · exact h n' (List.mem_of_find?_eq_some hfind)
      · exact h n' (List.mem_filter.mp hn').1

/-- The node of the key that was there goes, so the map leads to the new one rightly. -/
lemma NoLeftOver.pushItem (h : c.NoLeftOver) (hr : c.Repr r) (key : K) (value : V) :
    (c.pushItem key value).NoLeftOver := by
  rw [pushItem_eq c (fun k p => hr.made_of_lookup)]
  intro n hn
  dsimp only at hn ⊢
  rw [lookup_insert_ite]
  rcases List.mem_cons.mp hn with rfl | hn
  · rw [if_pos rfl]
  · obtain ⟨hn, hid⟩ := List.mem_filter.mp hn
    rw [decide_eq_true_iff] at hid
    have hlookup := h n hn
    have hne : n.key ≠ key := by
      rintro rfl
      exact hid hlookup
    rw [if_neg hne, hlookup]

/-- The last node goes with its key, and no other node has that key. -/
lemma NoLeftOver.trim (h : c.NoLeftOver) (hr : c.Repr r) : c.trim.NoLeftOver := by
  unfold LocalLru.trim
  split_ifs
  · split
    · exact h
    next last hlast =>
      have hsplit : c.cacheItemsList.dropLast ++ [last] = c.cacheItemsList :=
        List.dropLast_append_getLast? last hlast
      have hnodup : (c.cacheItemsList.map Item.key).Nodup := by
        rw [h.keys hr]
        exact r.nodup
      rw [← hsplit, List.map_append, List.nodup_append] at hnodup
      intro n hn
      dsimp only at hn ⊢
      have hne : n.key ≠ last.key := hnodup.2.2 n.key (List.mem_map_of_mem hn) last.key
        (List.mem_map_of_mem (List.mem_singleton_self last))
      rw [lookup_erase_ite, if_neg hne]
      exact h n ((List.dropLast_sublist _).subset hn)
  · exact h

lemma NoLeftOver.put (h : c.NoLeftOver) (hr : c.Repr r) (key : K) (value : V) :
    (c.put key value).NoLeftOver :=
  (h.pushItem hr key value).trim (hr.pushItem key value)

end LocalLru

/-! ### The two under the same calls -/

section Calls

variable {K V : Type} [DecidableEq K] [Inhabited K] [Inhabited V]
variable {c : LocalLru K V} {s : LruNodes K V} {l : List Ptr} {r : LruCache K V}

/-- Both hold the entries of `r`, and nothing is left over in the client's cache. -/
structure Twins (c : LocalLru K V) (s : LruNodes K V) (l : List Ptr) (r : LruCache K V) : Prop where
  client : c.Repr r
  noLeftOver : c.NoLeftOver
  bounded : r.Bounded
  server : s.Repr l r

lemma twins_new (alloc : Allocator) (n : ℕ) :
    ∃ l, Twins (LocalLru.new n : LocalLru K V) (LruNodes.new alloc n) l (LruCache.new n) :=
  ⟨_, LocalLru.repr_new n, fun _ hn => absurd hn List.not_mem_nil, le_max_right _ _,
    LruNodes.repr_new alloc n⟩

omit [Inhabited K] in
/-- `get` leaves the same entries on both sides. -/
lemma LruCache.localGet_snd (r : LruCache K V) (key : K) : (r.localGet key).2 = (r.get key).2 := by
  unfold LruCache.localGet LruCache.get
  cases r.lookup key <;> rfl

/-- One call. -/
lemma Twins.call (h : Twins c s l r) (alloc : Allocator) (call : CommonCall K V) : ∃ s' l',
    (s.call alloc call.server).map Prod.snd = some s' ∧
      Twins (c.call call.client).2 s' l' (r.call call.server).2 := by
  obtain ⟨s', l', hcall, hserver⟩ := h.server.call alloc call.server
  have hclient := h.client.call h.bounded call.client (h.noLeftOver.lastIsLive call.client)
  have hbounded := (h.bounded.call call.server).1
  refine ⟨s', l', by rw [hcall]; rfl, ?_⟩
  cases call with
  | put key value => exact ⟨hclient, h.noLeftOver.put h.client key value, hbounded, hserver⟩
  | get key =>
    have hget : (r.localCall (.get key)).2 = (r.call (.get key)).2 := r.localGet_snd key
    refine ⟨?_, h.noLeftOver.get key, hbounded, hserver⟩
    show (c.call (.get key)).2.Repr (r.call (.get key)).2
    rw [← hget]
    exact hclient

/-- Calls, one after the other. -/
lemma Twins.run (h : Twins c s l r) (alloc : Allocator) (calls : List (CommonCall K V)) :
    ∃ s' l' r', (s.run alloc (calls.map CommonCall.server)).map Prod.snd = some s' ∧
      Twins (c.after calls) s' l' r' := by
  induction calls generalizing c s l r with
  | nil => exact ⟨s, l, r, rfl, h⟩
  | cons call calls ih =>
    obtain ⟨s₁, l₁, hcall, h₁⟩ := h.call alloc call
    obtain ⟨s₂, l₂, r₂, hrun, h₂⟩ := ih h₁
    refine ⟨s₂, l₂, r₂, ?_, h₂⟩
    obtain ⟨⟨answer, s₁'⟩, hanswer, rfl⟩ := Option.map_eq_some_iff.mp hcall
    obtain ⟨⟨answers, s₂'⟩, hanswers, rfl⟩ := Option.map_eq_some_iff.mp hrun
    rw [List.map_cons, LruNodes.run, hanswer, Option.bind_eq_bind, Option.bind_some]
    dsimp only at hanswers ⊢
    rw [hanswers]
    rfl

omit [Inhabited K] in
/-- A get is a hit in both with the same value, or a miss in both. -/
lemma Twins.get (h : Twins c s l r) (k : K) :
    (∃ v s', (c.get k).1 = some v ∧ s.check k = true ∧ s.get k = some (v, s')) ∨
      (c.get k).1 = none ∧ s.check k = false ∧ s.get k = some (default, s) := by
  have hlocal := (h.client.get k).1
  obtain ⟨s', l', hget, -⟩ := h.server.get k
  have hcheck := h.server.check k
  rw [LruCache.get_fst] at hget
  unfold LruCache.localGet at hlocal
  unfold LruCache.check at hcheck
  cases hv : r.lookup k with
  | some v =>
    rw [hv] at hlocal hget hcheck
    exact .inl ⟨v, s', hlocal, hcheck, hget⟩
  | none =>
    rw [hv] at hlocal hcheck
    refine .inr ⟨hlocal, hcheck, ?_⟩
    rw [LruNodes.check, Option.isSome_none, decide_eq_false_iff_not] at hcheck
    rw [LruNodes.get, if_neg hcheck]

/-- **The client's cache and the server's store agree.**  After the same puts and gets, from empty ones
of the same size, the keys stand in the same order in the list of the one and from head to tail of the
other, `exists` answers what `check` answers, and the next get hits in both with the same value or
misses in both. -/
theorem localLru_agrees_lruNodes (alloc : Allocator) (n : ℕ) (calls : List (CommonCall K V)) :
    ∃ (s : LruNodes K V) (l : List Ptr),
      ((LruNodes.new alloc n).run alloc (calls.map CommonCall.server)).map Prod.snd = some s ∧
      Walk s.next s.head l s.tail ∧
      l.map s.key = ((LocalLru.new n).after calls).cacheItemsList.map (fun item => some item.key) ∧
      (∀ k, ((LocalLru.new n).after calls).exists' k = s.check k) ∧
      ∀ k, (∃ v s', (((LocalLru.new n).after calls).get k).1 = some v ∧ s.check k = true ∧
          s.get k = some (v, s')) ∨
        (((LocalLru.new n).after calls).get k).1 = none ∧ s.check k = false ∧
          s.get k = some (default, s) := by
  obtain ⟨l₀, hnew⟩ := twins_new (K := K) (V := V) alloc n
  obtain ⟨s, l, r, hrun, h⟩ := hnew.run alloc calls
  refine ⟨s, l, hrun, h.server.linked.walk_next, ?_, fun k => ?_, h.get⟩
  · have hkeys := h.noLeftOver.keys h.client
    rw [h.server.keys, ← hkeys, List.map_map]
    rfl
  · rw [h.client.exists', h.server.check]

end Calls

end DistCache
