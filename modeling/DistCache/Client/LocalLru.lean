import DistCache.Cache.Lru
import DistCache.Lib.MapLoop

/-!
`lru_cache`, the local cache of a client: a list of items, and a map from the keys to iterators into it.

`erase` takes a key out of the map and leaves its node in the list.  What `put` discards is the key of the
last node, and that may be such a left-over.  So a run agrees with a cache that forgets erased keys exactly
when the last node is never a left-over of another key at the moment something has to go
(`localLru_agrees_iff`).
-/

namespace DistCache

open Lib

/-- A node of `_cache_items_list`.  `id` says which `push_front` made it: an iterator to the node is its
`id`. -/
structure Item (K V : Type) where
  id : ℕ
  key : K
  value : V

/-- `key_value_pair_t`, what a node holds. -/
def Item.entry {K V : Type} (n : Item K V) : K × V := (n.key, n.value)

/-- `lru_cache`.  The front of the list comes first; `made` is the number of nodes made so far. -/
structure LocalLru (K V : Type) where
  cacheItemsList : List (Item K V)
  cacheItemsMap : Map K ℕ
  maxSize : ℕ
  made : ℕ

namespace LocalLru

variable {K V : Type}

/-- `lru_cache(max_size)`. -/
def new (maxSize : ℕ) : LocalLru K V := ⟨[], ∅, maxSize, 0⟩

/-- `size`. -/
def size (c : LocalLru K V) : ℕ := c.cacheItemsMap.keys.card

variable [DecidableEq K]

/-- `exists`. -/
def exists' (c : LocalLru K V) (key : K) : Bool := decide (key ∈ c.cacheItemsMap)

/-- `erase`. -/
def erase (c : LocalLru K V) (key : K) : LocalLru K V :=
  { c with cacheItemsMap := c.cacheItemsMap.erase key }

/-- `get`.  Without the key it throws. -/
def get (c : LocalLru K V) (key : K) : Option V × LocalLru K V :=
  match c.cacheItemsMap.lookup key with
  | none => (none, c)
  | some p =>
    match c.cacheItemsList.find? fun n => n.id = p with
    | none => (none, c)
    | some n => (some n.value, { c with
        cacheItemsList := n :: c.cacheItemsList.filter fun n => n.id ≠ p })

/-- The first half of `put`: a new node in front, the old one of the key taken out. -/
def pushItem (c : LocalLru K V) (key : K) (value : V) : LocalLru K V :=
  let items := ⟨c.made, key, value⟩ :: c.cacheItemsList
  match c.cacheItemsMap.lookup key with
  | none => { c with
      cacheItemsList := items
      cacheItemsMap := c.cacheItemsMap.insert key c.made
      made := c.made + 1 }
  | some p => { c with
      cacheItemsList := items.filter fun n => n.id ≠ p
      cacheItemsMap := (c.cacheItemsMap.erase key).insert key c.made
      made := c.made + 1 }

/-- The second half of `put`: when the map is too large, the last node goes, and its key. -/
def trim (c : LocalLru K V) : LocalLru K V :=
  if c.size > c.maxSize then
    match c.cacheItemsList.getLast? with
    | none => c
    | some last => { c with
        cacheItemsMap := c.cacheItemsMap.erase last.key
        cacheItemsList := c.cacheItemsList.dropLast }
  else c

/-- `put`. -/
def put (c : LocalLru K V) (key : K) (value : V) : LocalLru K V := (c.pushItem key value).trim

end LocalLru

/-- A cache of the same kind in which `erase` leaves nothing of the key. -/
def LruCache.erase {K V : Type} [DecidableEq K] (c : LruCache K V) (key : K) : LruCache K V :=
  ⟨c.others key, c.capacity, c.nodup.sublist (List.filter_sublist.map _)⟩

/-- `get` on the list of entries: without the key it throws. -/
def LruCache.localGet {K V : Type} [DecidableEq K] (c : LruCache K V) (key : K) :
    Option V × LruCache K V :=
  match c.lookup key with
  | none => (none, c)
  | some v => (some v, c.touch key v)

/-! ### Calls -/

/-- A call of a public function. -/
inductive LocalCall (K V : Type) where
  | put (key : K) (value : V)
  | get (key : K)
  | erase (key : K)
  | exists' (key : K)

/-- What is seen of a call: what it returns, and which keys a `put` discards. -/
inductive LocalAnswer (K V : Type) where
  | discarded (keys : Finset K)
  | value (value : Option V)
  | erased
  | found (b : Bool)

section Calls

variable {K V : Type} [DecidableEq K] [Inhabited K]

/-- A call on the client's cache. -/
def LocalLru.call (c : LocalLru K V) : LocalCall K V → LocalAnswer K V × LocalLru K V
  | .put key value =>
    let c' := c.put key value
    (.discarded (insert key c.cacheItemsMap.keys \ c'.cacheItemsMap.keys), c')
  | .get key => (.value (c.get key).1, (c.get key).2)
  | .erase key => (.erased, c.erase key)
  | .exists' key => (.found (c.exists' key), c)

/-- A call on the list of entries. -/
def LruCache.localCall (r : LruCache K V) : LocalCall K V → LocalAnswer K V × LruCache K V
  | .put key value =>
    let r' := (r.put key value).2
    (.discarded (insert key r.keys.toFinset \ r'.keys.toFinset), r')
  | .get key => (.value (r.localGet key).1, (r.localGet key).2)
  | .erase key => (.erased, r.erase key)
  | .exists' key => (.found (r.check key), r)

/-- What is seen of each call, and the size after it. -/
def LocalLru.run : LocalLru K V → List (LocalCall K V) → List (LocalAnswer K V × ℕ)
  | _, [] => []
  | c, call :: calls =>
    let (answer, c) := c.call call
    (answer, c.size) :: LocalLru.run c calls

/-- The same for the list of entries. -/
def LruCache.localRun : LruCache K V → List (LocalCall K V) → List (LocalAnswer K V × ℕ)
  | _, [] => []
  | r, call :: calls =>
    let (answer, r) := r.localCall call
    (answer, r.entries.length) :: LruCache.localRun r calls

end Calls

/-! ### Nodes that the map leads to -/

namespace LocalLru

variable {K V : Type} [DecidableEq K]

/-- The nodes that the map leads to.  The others are left over from `erase`. -/
def live (c : LocalLru K V) : List (Item K V) :=
  c.cacheItemsList.filter fun n => c.cacheItemsMap.lookup n.key = some n.id

/-- The key of the last node, when there is one of `key` in front. -/
def lastKey (c : LocalLru K V) (key : K) : K := (c.cacheItemsList.getLast?.map Item.key).getD key

/-- The key of the last node that the map leads to, when there is one of `key` in front. -/
def lastLiveKey (c : LocalLru K V) (key : K) : K := (c.live.getLast?.map Item.key).getD key

/-- When a new key does not fit, the last node has the key of the last one that the map leads to. -/
def LastIsLive (c : LocalLru K V) : LocalCall K V → Prop
  | .put key _ => key ∉ c.cacheItemsMap → c.maxSize ≤ c.size → c.lastKey key = c.lastLiveKey key
  | _ => True

/-- It is so at every call of a run. -/
def LastsAreLive : LocalLru K V → List (LocalCall K V) → Prop
  | _, [] => True
  | c, call :: calls => c.LastIsLive call ∧ (c.call call).2.LastsAreLive calls

variable {c c' : LocalLru K V} {r : LruCache K V} {n : Item K V} {k key : K} {v value : V} {p : ℕ}

/-- The nodes are different, the map leads to nodes of its keys, and the nodes that it leads to hold the
entries of `r`. -/
structure Repr (c : LocalLru K V) (r : LruCache K V) : Prop where
  ids : (c.cacheItemsList.map Item.id).Nodup
  made : ∀ n ∈ c.cacheItemsList, n.id < c.made
  node : ∀ k p, c.cacheItemsMap.lookup k = some p → ∃ n ∈ c.cacheItemsList, n.id = p ∧ n.key = k
  live : c.live.map Item.entry = r.entries
  maxSize : (c.maxSize : ℤ) = r.capacity

lemma repr_new (maxSize : ℕ) : (new maxSize : LocalLru K V).Repr (LruCache.new maxSize) where
  ids := List.nodup_nil
  made n hn := absurd hn List.not_mem_nil
  node k p hp := by simp [new] at hp
  live := rfl
  maxSize := rfl

lemma mem_live : n ∈ c.live ↔ n ∈ c.cacheItemsList ∧ c.cacheItemsMap.lookup n.key = some n.id := by
  rw [live, List.mem_filter, decide_eq_true_iff]

lemma Repr.keys (h : c.Repr r) : c.live.map Item.key = r.keys := by
  rw [LruCache.keys, ← h.live, List.map_map]
  rfl

lemma Repr.mem_map (h : c.Repr r) : k ∈ c.cacheItemsMap ↔ k ∈ r.keys := by
  rw [← h.keys, List.mem_map, Finmap.mem_iff]
  constructor
  · rintro ⟨p, hp⟩
    obtain ⟨n, hn, rfl, rfl⟩ := h.node k p hp
    exact ⟨n, mem_live.mpr ⟨hn, hp⟩, rfl⟩
  · rintro ⟨n, hn, rfl⟩
    exact ⟨n.id, (mem_live.mp hn).2⟩

lemma Repr.keys_map (h : c.Repr r) : c.cacheItemsMap.keys = r.keys.toFinset := by
  ext k
  rw [Finmap.mem_keys, h.mem_map, List.mem_toFinset]

lemma Repr.size (h : c.Repr r) : c.size = r.entries.length := by
  have hnodup : r.keys.Nodup := r.nodup
  rw [LocalLru.size, h.keys_map, List.toFinset_card_of_nodup hnodup, LruCache.keys, List.length_map]

/-- `exists`. -/
lemma Repr.exists' (h : c.Repr r) (k : K) : c.exists' k = r.check k := by
  rw [Bool.eq_iff_iff, LocalLru.exists', decide_eq_true_iff, h.mem_map, LruCache.mem_keys_iff]
  rfl

/-- The entries of the other keys, on both sides. -/
lemma Repr.others (h : c.Repr r) (k : K) :
    (c.live.filter fun n => n.key ≠ k).map Item.entry = r.others k := by
  rw [LruCache.others, ← h.live, List.filter_map]
  rfl

/-- The nodes that the map still leads to without a key. -/
lemma live_erase (c : LocalLru K V) (k : K) : (c.erase k).live = c.live.filter fun n => n.key ≠ k := by
  unfold live erase
  rw [List.filter_filter]
  refine List.filter_congr fun n _ => ?_
  rw [lookup_erase_ite]
  split_ifs with hn
  · simp [hn]
  · simp [hn]

/-- `erase`. -/
lemma Repr.erase (h : c.Repr r) (k : K) : (c.erase k).Repr (r.erase k) where
  ids := h.ids
  made := h.made
  node k' p hp := by
    refine h.node k' p ?_
    rw [LocalLru.erase, lookup_erase_ite] at hp
    split_ifs at hp
    exact hp
  live := by
    rw [live_erase, h.others]
    rfl
  maxSize := h.maxSize

/-- The node that the map leads to from `k`, and its entry. -/
lemma Repr.node_entry (h : c.Repr r) (hp : c.cacheItemsMap.lookup k = some p) : ∃ n ∈ c.cacheItemsList,
    n.id = p ∧ n.key = k ∧ r.lookup k = some n.value := by
  obtain ⟨n, hn, rfl, rfl⟩ := h.node k p hp
  have hlive : (n.key, n.value) ∈ r.entries := by
    rw [← h.live]
    exact List.mem_map_of_mem (mem_live.mpr ⟨hn, hp⟩)
  exact ⟨n, hn, rfl, rfl, LruCache.lookup_of_mem hlive⟩

/-- Two nodes of the list with one `id` are one node. -/
lemma Repr.id_inj {n n' : Item K V} (h : c.Repr r) (hn : n ∈ c.cacheItemsList)
    (hn' : n' ∈ c.cacheItemsList) (hid : n.id = n'.id) : n = n' :=
  List.inj_on_of_nodup_map h.ids hn hn' hid

/-- The map leads to `p` from `k`: of the nodes that it leads to, `p` is the one of `k`. -/
lemma Repr.live_id_iff (h : c.Repr r) (hp : c.cacheItemsMap.lookup k = some p) (hn : n ∈ c.live) :
    n.id = p ↔ n.key = k := by
  obtain ⟨hmem, hlookup⟩ := mem_live.mp hn
  constructor
  · rintro rfl
    obtain ⟨n', hn', hid, rfl⟩ := h.node k n.id hp
    rw [h.id_inj hmem hn' hid.symm]
  · rintro rfl
    rw [hp, Option.some.injEq] at hlookup
    exact hlookup.symm

/-! ### The operations on the nodes -/

/-- A key that is there: `get` answers its value and brings its node to the front. -/
lemma Repr.get_of_lookup (h : c.Repr r) (hv : r.lookup k = some v) :
    (c.get k).1 = some v ∧ (c.get k).2.Repr (r.touch k v) := by
  have hk : k ∈ c.cacheItemsMap := h.mem_map.mpr (LruCache.mem_keys_of_lookup hv)
  obtain ⟨p, hp⟩ := Finmap.mem_iff.mp hk
  obtain ⟨n, hn, hid, hkey, hval⟩ := h.node_entry hp
  have hfind : (c.cacheItemsList.find? fun n => n.id = p) = some n := by
    have hsome : (c.cacheItemsList.find? fun n => n.id = p).isSome = true :=
      List.find?_isSome.mpr ⟨n, hn, by simpa using hid⟩
    obtain ⟨n', hn'⟩ := Option.isSome_iff_exists.mp hsome
    have hid' : n'.id = p := by simpa using List.find?_some hn'
    rw [hn', h.id_inj (List.mem_of_find?_eq_some hn') hn (hid'.trans hid.symm)]
  have hget : c.get k = (some n.value, { c with
      cacheItemsList := n :: c.cacheItemsList.filter fun n => n.id ≠ p }) := by
    rw [LocalLru.get, hp]
    dsimp only
    rw [hfind]
  rw [hval, Option.some.injEq] at hv
  subst hv
  rw [hget]
  refine ⟨rfl, ?_, ?_, ?_, ?_, h.maxSize⟩
  · dsimp only
    rw [List.map_cons, List.nodup_cons]
    refine ⟨?_, h.ids.sublist (List.filter_sublist.map _)⟩
    simp [hid]
  · intro n' hn'
    rcases List.mem_cons.mp hn' with rfl | hn'
    · exact h.made n' hn
    · exact h.made n' (List.mem_filter.mp hn').1
  · intro k' p' hp'
    obtain ⟨n', hmem, hid', hkey'⟩ := h.node k' p' hp'
    refine ⟨n', ?_, hid', hkey'⟩
    by_cases heq : n'.id = p
    · rw [h.id_inj hmem hn (heq.trans hid.symm)]
      exact List.mem_cons_self
    · exact List.mem_cons_of_mem n (List.mem_filter.mpr ⟨hmem, by simpa using heq⟩)
  · have hlive : LocalLru.live { c with cacheItemsList := n :: c.cacheItemsList.filter fun n => n.id ≠ p } =
        n :: c.live.filter fun n => n.key ≠ k := by
      have hfilter : (c.live.filter fun n => n.key ≠ k) = c.live.filter fun n => n.id ≠ p :=
        List.filter_congr fun n' hn' => by simp [h.live_id_iff hp hn']
      have hn' : c.cacheItemsMap.lookup n.key = some n.id := by rw [hkey, hid, hp]
      rw [hfilter, LocalLru.live, LocalLru.live, List.filter_cons_of_pos (by simpa using hn'),
        List.filter_comm]
    rw [hlive, List.map_cons, h.others, Item.entry, hkey]
    rfl

/-- `get`. -/
lemma Repr.get (h : c.Repr r) (k : K) :
    (c.get k).1 = (r.localGet k).1 ∧ (c.get k).2.Repr (r.localGet k).2 := by
  unfold LruCache.localGet
  cases hv : r.lookup k with
  | none =>
    have hnone : c.cacheItemsMap.lookup k = none := by
      rw [Finmap.lookup_eq_none, h.mem_map]
      exact LruCache.not_mem_keys_iff.mpr hv
    have hget : c.get k = (none, c) := by rw [LocalLru.get, hnone]
    rw [hget]
    exact ⟨rfl, h⟩
  | some v => exact h.get_of_lookup hv

/-- `pushItem`, both branches at once. -/
lemma pushItem_eq (c : LocalLru K V) (hmade : ∀ k p, c.cacheItemsMap.lookup k = some p → p < c.made)
    (key : K) (value : V) : c.pushItem key value = { c with
      cacheItemsList := ⟨c.made, key, value⟩ ::
        c.cacheItemsList.filter fun n => c.cacheItemsMap.lookup key ≠ some n.id
      cacheItemsMap := c.cacheItemsMap.insert key c.made
      made := c.made + 1 } := by
  unfold pushItem
  split
  next hnone => simp [hnone]
  next p hp =>
    have hmap : (c.cacheItemsMap.erase key).insert key c.made = c.cacheItemsMap.insert key c.made := by
      refine Finmap.ext_lookup fun a => ?_
      rw [lookup_insert_ite, lookup_insert_ite, lookup_erase_ite]
      split_ifs <;> rfl
    have hne : c.made ≠ p := (hmade key p hp).ne'
    have hfilter : (c.cacheItemsList.filter fun n => n.id ≠ p) =
        c.cacheItemsList.filter fun n => c.cacheItemsMap.lookup key ≠ some n.id :=
      List.filter_congr fun n _ => by simp [hp, eq_comm]
    dsimp only
    rw [hmap, List.filter_cons_of_pos (by simpa using hne), hfilter]

lemma Repr.made_of_lookup (h : c.Repr r) (hp : c.cacheItemsMap.lookup k = some p) : p < c.made := by
  obtain ⟨n, hn, rfl, -⟩ := h.node k p hp
  exact h.made n hn

/-- The new node comes in front, and the old one of its key goes. -/
lemma Repr.pushItem (h : c.Repr r) (key : K) (value : V) :
    (c.pushItem key value).Repr (r.touch key value) := by
  rw [pushItem_eq c (fun k p => h.made_of_lookup) key value]
  refine ⟨?_, ?_, ?_, ?_, h.maxSize⟩
  · dsimp only
    rw [List.map_cons, List.nodup_cons]
    refine ⟨fun hmem => ?_, h.ids.sublist (List.filter_sublist.map _)⟩
    obtain ⟨n, hn, hid⟩ := List.mem_map.mp hmem
    have hlt : n.id < c.made := h.made n (List.mem_filter.mp hn).1
    exact hlt.ne hid
  · intro n hn
    rcases List.mem_cons.mp hn with rfl | hn
    · exact Nat.lt_succ_self _
    · exact Nat.lt_succ_of_lt (h.made n (List.mem_filter.mp hn).1)
  · intro k p hp
    dsimp only at hp ⊢
    rw [lookup_insert_ite] at hp
    split_ifs at hp with hk
    · rw [Option.some.injEq] at hp
      exact ⟨_, List.mem_cons_self, hp, hk.symm⟩
    · obtain ⟨n, hn, rfl, rfl⟩ := h.node k p hp
      refine ⟨n, List.mem_cons_of_mem _ (List.mem_filter.mpr ⟨hn, ?_⟩), rfl, rfl⟩
      rw [decide_eq_true_iff]
      intro hkey
      exact hk ((h.live_id_iff hkey (mem_live.mpr ⟨hn, hp⟩)).mp rfl)
  · unfold LocalLru.live
    dsimp only
    rw [List.filter_cons_of_pos (by simp), List.filter_filter, List.map_cons, LruCache.entries_touch,
      ← h.others, LocalLru.live, List.filter_filter]
    congr 2
    refine List.filter_congr fun n hn => ?_
    rw [lookup_insert_ite]
    by_cases hk : n.key = key
    · have hne : c.made ≠ n.id := (h.made n hn).ne'
      simp [hk, hne]
    · rw [if_neg hk]
      by_cases hlive : c.cacheItemsMap.lookup n.key = some n.id
      · have hother : c.cacheItemsMap.lookup key ≠ some n.id := fun hkey =>
          hk ((h.live_id_iff hkey (mem_live.mpr ⟨hn, hlive⟩)).mp rfl)
        simp [hk, hlive, hother]
      · simp [hk, hlive]

/-- When the map is too large, the key of the last node goes, whether or not it is there. -/
lemma Repr.trim (h : c.Repr r) (hfull : c.size > c.maxSize) (hn : c.cacheItemsList.getLast? = some n) :
    c.trim.Repr (r.erase n.key) := by
  have herase := h.erase n.key
  have htrim : c.trim = { c.erase n.key with cacheItemsList := c.cacheItemsList.dropLast } := by
    rw [LocalLru.trim, if_pos hfull, hn]
    rfl
  have hsplit : c.cacheItemsList.dropLast ++ [n] = c.cacheItemsList :=
    List.dropLast_append_getLast? n hn
  have hsub := List.dropLast_sublist c.cacheItemsList
  rw [htrim]
  refine ⟨h.ids.sublist (hsub.map _), fun n' hn' => h.made n' (hsub.subset hn'), ?_, ?_, h.maxSize⟩
  · intro k p hp
    obtain ⟨n', hn', hid, hkey⟩ := herase.node k p hp
    refine ⟨n', ?_, hid, hkey⟩
    have hmem : n' ∈ c.cacheItemsList.dropLast ++ [n] := by
      rw [hsplit]
      exact hn'
    refine (List.mem_append.mp hmem).resolve_right fun heq => ?_
    rw [← hkey, List.mem_singleton.mp heq] at hp
    simp [LocalLru.erase] at hp
  · rw [← herase.live]
    congr 1
    have hlast : ¬ (c.erase n.key).cacheItemsMap.lookup n.key = some n.id := by
      simp [LocalLru.erase]
    have hlive : (c.erase n.key).live = (c.cacheItemsList.dropLast ++ [n]).filter
        fun n' => (c.erase n.key).cacheItemsMap.lookup n'.key = some n'.id := by
      rw [hsplit]
      rfl
    rw [hlive, List.filter_append, List.filter_singleton, decide_eq_false hlast]
    exact (List.append_nil _).symm

/-! ### Agreement -/

/-- The entry at the tail goes when its key does. -/
lemma removeTail_eq_erase {e : K × V} (h : r.entries.getLast? = some e) : r.removeTail = r.erase e.1 := by
  have hsplit := List.dropLast_append_getLast? e h
  have hothers : r.others e.1 = r.entries.dropLast ++ [] :=
    LruCache.others_of_split (v := e.2) hsplit.symm
  rw [List.append_nil] at hothers
  unfold LruCache.removeTail LruCache.erase
  congr 1
  exact hothers.symm

variable [Inhabited K]

/-- A `put` that finds room. -/
lemma Repr.put_of_room (h : c.Repr r) (hroom : key ∈ c.cacheItemsMap ∨ c.size < c.maxSize)
    (hb : r.Bounded) (value : V) : (c.put key value).Repr (r.put key value).2 := by
  have hpush := h.pushItem key value
  have hsize := hpush.size
  have hold := h.size
  have hmax : (c.pushItem key value).maxSize = c.maxSize := by
    rw [pushItem_eq c (fun k p => h.made_of_lookup)]
  have hcap := h.maxSize
  by_cases hkey : key ∈ c.cacheItemsMap
  · have hmem := h.mem_map.mp hkey
    have hlen := LruCache.length_touch_of_mem hmem value
    unfold LruCache.Bounded at hb
    rw [LocalLru.put, LocalLru.trim, if_neg (by omega), LruCache.put_of_mem hmem]
    exact hpush
  · have hmem : key ∉ r.keys := fun hc => hkey (h.mem_map.mpr hc)
    have hlen := LruCache.length_touch_of_not_mem hmem value
    have hlt := hroom.resolve_left hkey
    rw [LocalLru.put, LocalLru.trim, if_neg (by omega), LruCache.put_of_room hmem (by omega)]
    exact hpush

/-- A `put` that finds no room: the key of the last node goes, and on the list of entries that of the
last entry. -/
lemma Repr.put_of_full (h : c.Repr r) (hkey : key ∉ c.cacheItemsMap) (hfull : c.maxSize ≤ c.size)
    (value : V) :
    (c.put key value).Repr ((r.touch key value).erase (c.lastKey key)) ∧
      (r.put key value).2 = (r.touch key value).erase (c.lastLiveKey key) ∧
      c.lastLiveKey key ∈ (r.touch key value).keys := by
  have hpush := h.pushItem key value
  have hsize := hpush.size
  have hold := h.size
  have hcap := h.maxSize
  have hkeys : key ∉ r.keys := fun hc => hkey (h.mem_map.mpr hc)
  have hlen := LruCache.length_touch_of_not_mem hkeys value
  have hlist : (c.pushItem key value).cacheItemsList = ⟨c.made, key, value⟩ :: c.cacheItemsList := by
    have hnone : c.cacheItemsMap.lookup key = none := Finmap.lookup_eq_none.mpr hkey
    rw [LocalLru.pushItem, hnone]
  have hmax : (c.pushItem key value).maxSize = c.maxSize := by
    rw [pushItem_eq c (fun k p => h.made_of_lookup)]
  have hentries : (r.touch key value).entries.getLast? =
      some (((c.live.map Item.entry).getLast?).getD (key, value)) := by
    rw [LruCache.entries_touch, LruCache.others_of_not_mem hkeys, ← h.live, List.getLast?_cons]
  have hlast : (((c.live.map Item.entry).getLast?).getD (key, value)).1 = c.lastLiveKey key := by
    rw [lastLiveKey, List.getLast?_map]
    cases c.live.getLast? <;> rfl
  refine ⟨?_, ?_, ?_⟩
  · have hcode : (c.pushItem key value).cacheItemsList.getLast? =
        some (c.cacheItemsList.getLast?.getD ⟨c.made, key, value⟩) := by
      rw [hlist, List.getLast?_cons]
    have hkey' : (c.cacheItemsList.getLast?.getD ⟨c.made, key, value⟩).key = c.lastKey key := by
      rw [lastKey]
      cases c.cacheItemsList.getLast? <;> rfl
    rw [← hkey']
    exact hpush.trim (by omega) hcode
  · rw [LruCache.put_of_full hkeys (by omega), ← hlast]
    exact removeTail_eq_erase hentries
  · rw [← hlast]
    exact List.mem_map_of_mem (List.mem_of_getLast? hentries)

omit [Inhabited K] in
lemma mem_keys_erase : k ∈ (r.erase key).keys ↔ k ∈ r.keys ∧ k ≠ key := by
  unfold LruCache.keys LruCache.erase LruCache.others
  simp only [List.mem_map, List.mem_filter, decide_eq_true_eq]
  constructor
  · rintro ⟨e, ⟨he, hne⟩, rfl⟩
    exact ⟨⟨e, he, rfl⟩, hne⟩
  · rintro ⟨⟨e, he, rfl⟩, hne⟩
    exact ⟨e, ⟨he, hne⟩, rfl⟩

/-- The answers to one call agree exactly when the last node is not a left-over. -/
theorem Repr.call_iff (h : c.Repr r) (hb : r.Bounded) (call : LocalCall K V) :
    (c.call call).1 = (r.localCall call).1 ↔ c.LastIsLive call := by
  cases call with
  | get key => exact iff_of_true (congrArg LocalAnswer.value (h.get key).1) trivial
  | erase key => exact iff_of_true rfl trivial
  | exists' key => exact iff_of_true (congrArg LocalAnswer.found (h.exists' key)) trivial
  | put key value =>
    unfold LocalLru.call LruCache.localCall LastIsLive
    dsimp only
    rw [h.keys_map]
    by_cases hroom : key ∈ c.cacheItemsMap ∨ c.size < c.maxSize
    · rw [(h.put_of_room hroom hb value).keys_map]
      refine iff_of_true rfl fun hkey hfull => ?_
      exact absurd hfull (not_le.mpr (hroom.resolve_left hkey))
    · rw [not_or, not_lt] at hroom
      obtain ⟨hrepr, hput, hmem⟩ := h.put_of_full hroom.1 hroom.2 value
      rw [hrepr.keys_map, hput, LocalAnswer.discarded.injEq]
      constructor
      · intro heq _ _
        -- the key that goes on the list of entries has to go here
        have hgone : c.lastLiveKey key ∈ insert key r.keys.toFinset \
            ((r.touch key value).erase (c.lastKey key)).keys.toFinset := by
          rw [heq, Finset.mem_sdiff, List.mem_toFinset, mem_keys_erase]
          refine ⟨?_, fun hc => hc.2 rfl⟩
          rw [LruCache.mem_keys_iff, LruCache.lookup_touch] at hmem
          rw [Finset.mem_insert, List.mem_toFinset, LruCache.mem_keys_iff]
          split_ifs at hmem with hk
          · exact .inl hk
          · exact .inr hmem
        rw [Finset.mem_sdiff, List.mem_toFinset, mem_keys_erase] at hgone
        by_contra hne
        exact hgone.2 ⟨hmem, Ne.symm hne⟩
      · intro heq
        rw [heq hroom.1 hroom.2]

/-- And then the list of entries is followed. -/
lemma Repr.call (h : c.Repr r) (hb : r.Bounded) (call : LocalCall K V) (hlast : c.LastIsLive call) :
    (c.call call).2.Repr (r.localCall call).2 := by
  cases call with
  | get key => exact (h.get key).2
  | erase key => exact h.erase key
  | exists' key => exact h
  | put key value =>
    by_cases hroom : key ∈ c.cacheItemsMap ∨ c.size < c.maxSize
    · exact h.put_of_room hroom hb value
    · rw [not_or, not_lt] at hroom
      obtain ⟨hrepr, hput, -⟩ := h.put_of_full hroom.1 hroom.2 value
      rw [← hlast hroom.1 hroom.2] at hput
      unfold LocalLru.call LruCache.localCall
      dsimp only
      rw [hput]
      exact hrepr

end LocalLru

section Calls

variable {K V : Type} [DecidableEq K] [Inhabited K]

omit [Inhabited K] in
lemma LruCache.Bounded.localGet {r : LruCache K V} (h : r.Bounded) {key : K} :
    (r.localGet key).2.Bounded := by
  unfold LruCache.localGet
  split
  next => exact h
  next v hv =>
    unfold LruCache.Bounded
    rw [LruCache.length_touch_of_mem (LruCache.mem_keys_of_lookup hv)]
    exact h

lemma LruCache.Bounded.localCall {r : LruCache K V} (h : r.Bounded) (call : LocalCall K V) :
    (r.localCall call).2.Bounded := by
  cases call with
  | put key value => exact h.put
  | get key => exact h.localGet
  | erase key =>
    refine le_trans ?_ h
    exact Int.ofNat_le.mpr (List.length_filter_le _ _)
  | exists' key => exact h

lemma LruCache.capacity_localCall (r : LruCache K V) (call : LocalCall K V) :
    (r.localCall call).2.capacity = r.capacity := by
  cases call with
  | put key value => exact LruCache.capacity_put
  | get key =>
    change (r.localGet key).2.capacity = r.capacity
    unfold LruCache.localGet
    split <;> rfl
  | erase key => rfl
  | exists' key => rfl

lemma LocalLru.Repr.run_iff {c : LocalLru K V} {r : LruCache K V} (h : c.Repr r) (hb : r.Bounded)
    (calls : List (LocalCall K V)) :
    c.run calls = r.localRun calls ↔ c.LastsAreLive calls := by
  induction calls generalizing c r with
  | nil => exact iff_of_true rfl trivial
  | cons call calls ih =>
    have hcall := h.call_iff hb call
    rw [LocalLru.run, LruCache.localRun, LocalLru.LastsAreLive, List.cons.injEq, Prod.mk.injEq, hcall]
    constructor
    · rintro ⟨⟨hlast, -⟩, hrun⟩
      exact ⟨hlast, (ih (h.call hb call hlast) (hb.localCall call)).mp hrun⟩
    · rintro ⟨hlast, hlasts⟩
      have hnext := h.call hb call hlast
      exact ⟨⟨hlast, hnext.size⟩, (ih hnext (hb.localCall call)).mpr hlasts⟩

/-- On the list of entries the size stays within `max_size`. -/
lemma LruCache.Bounded.localRun {r : LruCache K V} (h : r.Bounded) {maxSize : ℕ}
    (hcap : r.capacity = maxSize) (calls : List (LocalCall K V)) :
    ∀ o ∈ r.localRun calls, o.2 ≤ maxSize := by
  induction calls generalizing r with
  | nil => exact fun o ho => absurd ho List.not_mem_nil
  | cons call calls ih =>
    have hcap' : (r.localCall call).2.capacity = maxSize := (r.capacity_localCall call).trans hcap
    have hnext := h.localCall call
    intro o ho
    rw [LruCache.localRun, List.mem_cons] at ho
    rcases ho with rfl | ho
    · unfold LruCache.Bounded at hnext
      rw [hcap'] at hnext
      dsimp only
      omega
    · exact ih hnext hcap' o ho

/-- The client's cache answers as one that forgets erased keys, and stays within `max_size`, in exactly
the runs in which the last node has the key of the last one that the map leads to whenever something has
to go. -/
theorem localLru_agrees_iff (maxSize : ℕ) (calls : List (LocalCall K V)) :
    ((LocalLru.new maxSize).run calls = (LruCache.new maxSize).localRun calls ∧
        ∀ o ∈ (LocalLru.new maxSize).run calls, o.2 ≤ maxSize) ↔
      (LocalLru.new maxSize : LocalLru K V).LastsAreLive calls := by
  have hempty : (LruCache.new maxSize : LruCache K V).Bounded := le_max_right _ _
  have hiff := (LocalLru.repr_new maxSize).run_iff hempty calls
  rw [← hiff, and_iff_left_iff_imp]
  intro hrun
  rw [hrun]
  exact hempty.localRun rfl calls

/-- A key is erased, and its node is the last one when the second key after it is put: that one is not
put in place of another, and the cache is larger than `max_size`. -/
theorem localLru_exceeds_maxSize :
    ¬ ((LocalLru.new 1).run [.put 0 (), .erase 0, .put 1 (), .put 2 ()] =
        (LruCache.new 1).localRun [.put 0 (), .erase 0, .put 1 (), .put (2 : ℕ) ()] ∧
      ∀ o ∈ (LocalLru.new 1).run [.put 0 (), .erase 0, .put 1 (), .put (2 : ℕ) ()], o.2 ≤ 1) := by
  intro h
  exact absurd h.2 (by decide)

end Calls

end DistCache
