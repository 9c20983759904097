import DistCache.Client.LocalLru
import DistCache.Lib.Faults

/-!
The nodes of `lru_cache` under any calls.

`erase` leaves its node in the list, and `put` may discard a key whose node stays.  Still the map leads from
each key to a node of that key, whatever was called, so no call touches a node that is gone
(`iterators_valid`).  But nothing counts the nodes that are left: there are as many of them as keys in
exactly the runs in which no key is erased that is there (`nodes_eq_keys_iff`).
-/

namespace DistCache

open Lib

/-- What a call must not do to `_cache_items_list`. -/
inductive ItemFault where
  /-- The iterator leads to a node that has been removed. -/
  | removedNode
  /-- `last--` on an empty list. -/
  | emptyList
  deriving DecidableEq

namespace LocalLru

variable {K V : Type} [DecidableEq K]

/-! ### The functions with their faults -/

/-- `_cache_items_list.erase(it->second)`. -/
def eraseItem (items : List (Item K V)) (p : ℕ) : Except ItemFault (List (Item K V)) := do
  let _ ← orFault (items.find? fun n => n.id = p) .removedNode
  return items.filter fun n => n.id ≠ p

/-- The first half of `put`. -/
def checkedPush (c : LocalLru K V) (key : K) (value : V) : Except ItemFault (LocalLru K V) := do
  let items := ⟨c.made, key, value⟩ :: c.cacheItemsList
  match c.cacheItemsMap.lookup key with
  | none => return { c with
      cacheItemsList := items
      cacheItemsMap := c.cacheItemsMap.insert key c.made
      made := c.made + 1 }
  | some p =>
    let items ← eraseItem items p
    return { c with
      cacheItemsList := items
      cacheItemsMap := (c.cacheItemsMap.erase key).insert key c.made
      made := c.made + 1 }

/-- The second half. -/
def checkedTrim (c : LocalLru K V) : Except ItemFault (LocalLru K V) := do
  if c.size > c.maxSize then
    let last ← orFault c.cacheItemsList.getLast? .emptyList
    return { c with
      cacheItemsMap := c.cacheItemsMap.erase last.key
      cacheItemsList := c.cacheItemsList.dropLast }
  else return c

/-- `put`. -/
def checkedPut (c : LocalLru K V) (key : K) (value : V) : Except ItemFault (LocalLru K V) := do
  let c ← c.checkedPush key value
  c.checkedTrim

/-- `get`.  The `range_error` that it throws is no fault. -/
def checkedGet (c : LocalLru K V) (key : K) : Except ItemFault (Option V × LocalLru K V) := do
  match c.cacheItemsMap.lookup key with
  | none => return (none, c)
  | some p =>
    let n ← orFault (c.cacheItemsList.find? fun n => n.id = p) .removedNode
    return (some n.value, { c with cacheItemsList := n :: c.cacheItemsList.filter fun n => n.id ≠ p })

/-- A call. -/
def checkedCall (c : LocalLru K V) : LocalCall K V → Except ItemFault (LocalLru K V)
  | .put key value => c.checkedPut key value
  | .get key => (c.checkedGet key).map Prod.snd
  | .erase key => .ok (c.erase key)
  | .exists' _ => .ok c

/-- The cache after some calls. -/
def afterCalls (c : LocalLru K V) (calls : List (LocalCall K V)) : LocalLru K V :=
  calls.foldl (fun c call => (c.call call).2) c

variable {c : LocalLru K V} {r : LruCache K V} {k key : K} {value : V} {p : ℕ} {n : Item K V}
  {call : LocalCall K V} {calls : List (LocalCall K V)}

/-! ### Iterators -/

/-- The iterator of a key finds its node. -/
lemma Repr.find_of_lookup (h : c.Repr r) (hp : c.cacheItemsMap.lookup k = some p) :
    ∃ n, (c.cacheItemsList.find? fun n => n.id = p) = some n := by
  obtain ⟨n, hn, hid, -⟩ := h.node k p hp
  exact Option.isSome_iff_exists.mp (List.find?_isSome.mpr ⟨n, hn, by simpa using hid⟩)

/-- A cache that is too large has a last node. -/
lemma Repr.exists_last (h : c.Repr r) (hfull : c.size > c.maxSize) :
    ∃ n, c.cacheItemsList.getLast? = some n := by
  have hsize := h.size
  rw [← h.live, List.length_map] at hsize
  have hle := List.length_filter_le (fun n => decide (c.cacheItemsMap.lookup n.key = some n.id))
    c.cacheItemsList
  have hne : c.cacheItemsList ≠ [] := by
    intro hnil
    rw [LocalLru.live, hnil] at hsize
    rw [hsize] at hfull
    exact Nat.not_lt_zero _ hfull
  exact ⟨_, List.getLast?_eq_some_getLast hne⟩

lemma Repr.checkedPush (h : c.Repr r) (key : K) (value : V) :
    c.checkedPush key value = .ok (c.pushItem key value) := by
  unfold LocalLru.checkedPush LocalLru.pushItem
  cases hp : c.cacheItemsMap.lookup key with
  | none => rfl
  | some p =>
    obtain ⟨n, hn, hid, -⟩ := h.node key p hp
    have hfind : ∃ n', ((⟨c.made, key, value⟩ :: c.cacheItemsList).find? fun n => n.id = p) = some n' :=
      Option.isSome_iff_exists.mp
        (List.find?_isSome.mpr ⟨n, List.mem_cons_of_mem _ hn, by simpa using hid⟩)
    obtain ⟨n', hn'⟩ := hfind
    dsimp only
    rw [eraseItem, hn', orFault_some]
    rfl

lemma Repr.checkedTrim (h : c.Repr r) : c.checkedTrim = .ok c.trim := by
  unfold LocalLru.checkedTrim LocalLru.trim
  by_cases hfull : c.size > c.maxSize
  · obtain ⟨n, hn⟩ := h.exists_last hfull
    rw [if_pos hfull, if_pos hfull, hn, orFault_some]
    rfl
  · rw [if_neg hfull, if_neg hfull]
    rfl

lemma Repr.checkedGet (h : c.Repr r) (key : K) : c.checkedGet key = .ok (c.get key) := by
  unfold LocalLru.checkedGet LocalLru.get
  cases hp : c.cacheItemsMap.lookup key with
  | none => rfl
  | some p =>
    obtain ⟨n, hn⟩ := h.find_of_lookup hp
    dsimp only
    rw [hn, orFault_some]
    rfl

/-- No call touches a node that is gone. -/
lemma Repr.checkedCall (h : c.Repr r) (call : LocalCall K V) : c.checkedCall call = .ok (c.call call).2 := by
  cases call with
  | put key value =>
    rw [LocalLru.checkedCall, checkedPut, h.checkedPush, ok_bind]
    exact (h.pushItem key value).checkedTrim
  | get key =>
    rw [LocalLru.checkedCall, h.checkedGet]
    rfl
  | erase key => rfl
  | exists' key => rfl

/-- The nodes that the map leads to hold some entries, whatever is called. -/
lemma Repr.exists_call (h : c.Repr r) (call : LocalCall K V) : ∃ r, (c.call call).2.Repr r := by
  cases call with
  | put key value =>
    have hpush := h.pushItem key value
    by_cases hfull : (c.pushItem key value).size > (c.pushItem key value).maxSize
    · obtain ⟨n, hn⟩ := hpush.exists_last hfull
      exact ⟨_, hpush.trim hfull hn⟩
    · have htrim : c.put key value = c.pushItem key value := by
        rw [LocalLru.put, LocalLru.trim, if_neg hfull]
      exact ⟨_, show (c.put key value).Repr _ from htrim ▸ hpush⟩
  | get key => exact ⟨_, (h.get key).2⟩
  | erase key => exact ⟨_, h.erase key⟩
  | exists' key => exact ⟨r, h⟩

lemma exists_repr_afterCalls (maxSize : ℕ) (calls : List (LocalCall K V)) :
    ∃ r, ((new maxSize).afterCalls calls).Repr r := by
  have hrun (c : LocalLru K V) (h : ∃ r, c.Repr r) : ∃ r, (c.afterCalls calls).Repr r := by
    induction calls generalizing c with
    | nil => exact h
    | cons call calls ih =>
      obtain ⟨r, hr⟩ := h
      exact ih _ (hr.exists_call call)
  exact hrun _ ⟨_, repr_new maxSize⟩

/-- **Iterators.**  After any calls, the iterator that the map has for a key leads to a node that is in the
list, the only one there, and has the key; and no further call acts on a node that has been removed or on an
empty list. -/
theorem iterators_valid (maxSize : ℕ) (calls : List (LocalCall K V)) :
    (∀ k p, ((new maxSize).afterCalls calls).cacheItemsMap.lookup k = some p →
      ∃ n ∈ ((new maxSize).afterCalls calls).cacheItemsList, n.id = p ∧ n.key = k ∧
        ∀ n' ∈ ((new maxSize).afterCalls calls).cacheItemsList, n'.id = p → n' = n) ∧
    ∀ call, ((new maxSize).afterCalls calls).checkedCall call =
      .ok (((new maxSize).afterCalls calls).call call).2 := by
  obtain ⟨r, h⟩ := exists_repr_afterCalls maxSize calls
  refine ⟨fun k p hp => ?_, h.checkedCall⟩
  obtain ⟨n, hn, hid, hkey⟩ := h.node k p hp
  exact ⟨n, hn, hid, hkey, fun n' hn' hid' => h.id_inj hn' hn (hid'.trans hid.symm)⟩

/-! ### The number of nodes -/

/-- After each of the calls. -/
def Always (P : LocalLru K V → Prop) : LocalLru K V → List (LocalCall K V) → Prop
  | _, [] => True
  | c, call :: calls => P (c.call call).2 ∧ Always P (c.call call).2 calls

/-- There are as many nodes as keys, and not more than `max_size`. -/
def Balanced (c : LocalLru K V) : Prop :=
  c.cacheItemsList.length = c.size ∧ c.cacheItemsList.length ≤ c.maxSize

/-- The call does not erase a key that is there. -/
def Misses (c : LocalLru K V) : LocalCall K V → Prop
  | .erase key => c.exists' key = false
  | _ => True

/-- No call of the run does. -/
def ErasesMiss : LocalLru K V → List (LocalCall K V) → Prop
  | _, [] => True
  | c, call :: calls => c.Misses call ∧ ErasesMiss (c.call call).2 calls

lemma Repr.length_filter (h : c.Repr r) (hp : c.cacheItemsMap.lookup k = some p) :
    (c.cacheItemsList.filter fun n => n.id ≠ p).length + 1 = c.cacheItemsList.length := by
  obtain ⟨n, hn, hid, -⟩ := h.node k p hp
  have hmem : p ∈ c.cacheItemsList.map Item.id := List.mem_map.mpr ⟨n, hn, hid⟩
  have hfilter : (c.cacheItemsList.filter fun n => n.id ≠ p).map Item.id =
      (c.cacheItemsList.map Item.id).erase p := by
    rw [h.ids.erase_eq_filter, List.filter_map]
    congr 1
    refine List.filter_congr fun n _ => ?_
    by_cases hn : n.id = p <;> simp [hn]
  have hlen := congrArg List.length hfilter
  have hpos := List.length_pos_of_mem hmem
  rw [List.length_map, List.length_erase_of_mem hmem, List.length_map] at hlen
  rw [List.length_map] at hpos
  omega

/-- All nodes are live when there are as many as keys. -/
lemma Repr.live_eq (h : c.Repr r) (hlen : c.cacheItemsList.length = c.size) : c.live = c.cacheItemsList := by
  have hsize := h.size
  rw [← h.live, List.length_map, ← hlen] at hsize
  exact List.filter_eq_self.mpr (List.length_filter_eq_length_iff.mp hsize.symm)

lemma Repr.get_length (h : c.Repr r) (k : K) :
    (c.get k).2.cacheItemsList.length = c.cacheItemsList.length := by
  unfold LocalLru.get
  cases hp : c.cacheItemsMap.lookup k with
  | none => rfl
  | some p =>
    obtain ⟨n, hn⟩ := h.find_of_lookup hp
    dsimp only
    rw [hn]
    exact h.length_filter hp

lemma size_get (c : LocalLru K V) (k : K) : (c.get k).2.size = c.size := by
  unfold LocalLru.get
  split
  next => rfl
  next => split <;> rfl

lemma maxSize_get (c : LocalLru K V) (k : K) : (c.get k).2.maxSize = c.maxSize := by
  unfold LocalLru.get
  split
  next => rfl
  next => split <;> rfl

/-- A new node, and with it a new key or in place of another node. -/
lemma Repr.pushItem_length (h : c.Repr r) (hlen : c.cacheItemsList.length = c.size) (key : K) (value : V) :
    (c.pushItem key value).cacheItemsList.length = (c.pushItem key value).size ∧
      (c.pushItem key value).size ≤ c.size + 1 := by
  have hpush := (h.pushItem key value).size
  have hold := h.size
  by_cases hkey : key ∈ r.keys
  · obtain ⟨p, hp⟩ := Finmap.mem_iff.mp (h.mem_map.mpr hkey)
    have hne : c.made ≠ p := (h.made_of_lookup hp).ne'
    have htouch := LruCache.length_touch_of_mem hkey value
    have hfilter := h.length_filter hp
    have hlist : (c.pushItem key value).cacheItemsList.length = c.cacheItemsList.length := by
      rw [LocalLru.pushItem, hp]
      dsimp only
      rw [List.filter_cons_of_pos (by simpa using hne), List.length_cons, hfilter]
    omega
  · have hnone : c.cacheItemsMap.lookup key = none :=
      Finmap.lookup_eq_none.mpr fun hmem => hkey (h.mem_map.mp hmem)
    have htouch := LruCache.length_touch_of_not_mem hkey value
    have hlist : (c.pushItem key value).cacheItemsList.length = c.cacheItemsList.length + 1 := by
      rw [LocalLru.pushItem, hnone]
      rfl
    omega

lemma maxSize_pushItem (c : LocalLru K V) (key : K) (value : V) :
    (c.pushItem key value).maxSize = c.maxSize := by
  unfold LocalLru.pushItem
  split <;> rfl

lemma maxSize_trim (c : LocalLru K V) : c.trim.maxSize = c.maxSize := by
  unfold LocalLru.trim
  split_ifs
  · split <;> rfl
  · rfl

/-- A node that goes takes its key with it, when all nodes are live. -/
lemma Repr.trim_length (h : c.Repr r) (hlen : c.cacheItemsList.length = c.size)
    (hle : c.size ≤ c.maxSize + 1) : c.trim.Balanced := by
  unfold Balanced
  rw [maxSize_trim]
  by_cases hfull : c.size > c.maxSize
  · obtain ⟨n, hn⟩ := h.exists_last hfull
    have htrim := (h.trim hfull hn).size
    have hkey : n.key ∈ r.keys := by
      rw [← h.keys, h.live_eq hlen]
      exact List.mem_map_of_mem (List.mem_of_getLast? hn)
    have hothers := LruCache.length_touch_of_mem hkey n.value
    have herase : (r.erase n.key).entries = r.others n.key := rfl
    have hlist : c.trim.cacheItemsList = c.cacheItemsList.dropLast := by
      rw [LocalLru.trim, if_pos hfull, hn]
    have hold := h.size
    rw [LruCache.entries_touch, List.length_cons] at hothers
    rw [htrim, herase, hlist, List.length_dropLast]
    omega
  · have htrim : c.trim = c := by rw [LocalLru.trim, if_neg hfull]
    rw [htrim]
    omega

lemma Repr.erase_size (h : c.Repr r) (k : K) : (c.erase k).size = c.size ↔ c.exists' k = false := by
  have herase := (h.erase k).size
  have hold := h.size
  have hentries : (r.erase k).entries = r.others k := rfl
  rw [herase, hold, hentries, h.exists', Bool.eq_false_iff, ne_eq, LruCache.check_iff]
  constructor
  · rintro heq hmem
    obtain ⟨v, -⟩ := LruCache.exists_lookup hmem
    have htouch := LruCache.length_touch_of_mem hmem v
    rw [LruCache.entries_touch, List.length_cons] at htouch
    omega
  · intro hmem
    rw [LruCache.others_of_not_mem hmem]

/-- One call. -/
lemma Repr.call_balanced_iff (h : c.Repr r) (hb : c.Balanced) (call : LocalCall K V) :
    (c.call call).2.Balanced ↔ c.Misses call := by
  cases call with
  | put key value =>
    refine iff_of_true ?_ trivial
    obtain ⟨hlen, hle⟩ := h.pushItem_length hb.1 key value
    have hroom : (c.pushItem key value).size ≤ (c.pushItem key value).maxSize + 1 := by
      have hsize := hb.1
      have hbound := hb.2
      rw [maxSize_pushItem]
      omega
    exact (h.pushItem key value).trim_length hlen hroom
  | get key =>
    refine iff_of_true ?_ trivial
    show (c.get key).2.Balanced
    unfold Balanced
    rw [h.get_length, size_get, maxSize_get]
    exact hb
  | erase key =>
    have hlist : (c.erase key).cacheItemsList = c.cacheItemsList := rfl
    show (c.erase key).Balanced ↔ c.exists' key = false
    rw [← h.erase_size, Balanced, hlist, hb.1]
    exact ⟨fun hbal => hbal.1.symm, fun hsize => ⟨hsize.symm, hb.1 ▸ hb.2⟩⟩
  | exists' key => exact iff_of_true hb trivial

/-- **The number of nodes** is that of the keys after each of the calls, and within `max_size`, exactly when
no call erases a key that is there. -/
theorem nodes_eq_keys_iff (maxSize : ℕ) (calls : List (LocalCall K V)) :
    (new maxSize).Always Balanced calls ↔ (new maxSize).ErasesMiss calls := by
  have hrun (c : LocalLru K V) (h : ∃ r, c.Repr r) (hb : c.Balanced) :
      c.Always Balanced calls ↔ c.ErasesMiss calls := by
    induction calls generalizing c with
    | nil => exact Iff.rfl
    | cons call calls ih =>
      obtain ⟨r, hr⟩ := h
      have hcall := hr.call_balanced_iff hb call
      rw [Always, ErasesMiss, hcall]
      refine and_congr_right fun hmiss => ?_
      exact ih _ (hr.exists_call call) (hcall.mpr hmiss)
  exact hrun _ ⟨_, repr_new maxSize⟩ ⟨rfl, Nat.zero_le _⟩

/-- A key that is put and erased leaves a node. -/
lemma put_erase_length (hmap : c.cacheItemsMap = ∅) (hpos : 0 < c.maxSize) (key : K) (value : V) :
    ((c.put key value).erase key).cacheItemsMap = ∅ ∧
    ((c.put key value).erase key).maxSize = c.maxSize ∧
    ((c.put key value).erase key).cacheItemsList.length = c.cacheItemsList.length + 1 := by
  have hnone : c.cacheItemsMap.lookup key = none := by
    rw [hmap]
    exact Finmap.lookup_empty key
  have hpush : c.pushItem key value = { c with
      cacheItemsList := ⟨c.made, key, value⟩ :: c.cacheItemsList
      cacheItemsMap := c.cacheItemsMap.insert key c.made
      made := c.made + 1 } := by
    rw [pushItem, hnone]
  have hone : (c.pushItem key value).size = 1 := by
    have hkeys : (c.cacheItemsMap.insert key c.made).keys = {key} := by
      ext a
      rw [Finmap.mem_keys, Finmap.mem_insert, hmap, Finset.mem_singleton, or_iff_left Finmap.notMem_empty]
    rw [hpush, size, hkeys, Finset.card_singleton]
  have hroom : ¬ (c.pushItem key value).size > (c.pushItem key value).maxSize := by
    rw [hone, maxSize_pushItem]
    omega
  rw [LocalLru.put, LocalLru.trim, if_neg hroom, hpush]
  refine ⟨Finmap.ext_lookup fun a => ?_, rfl, rfl⟩
  simp [LocalLru.erase, hmap]

/-- A key that is put and erased again and again leaves a node each time, while the map stays empty. -/
theorem nodes_unbounded {maxSize : ℕ} (hpos : 0 < maxSize) (key : K) (value : V) (n : ℕ) :
    ∃ calls : List (LocalCall K V), ((new maxSize).afterCalls calls).cacheItemsMap = ∅ ∧
      ((new maxSize).afterCalls calls).maxSize = maxSize ∧
      ((new maxSize).afterCalls calls).cacheItemsList.length = n := by
  induction n with
  | zero => exact ⟨[], rfl, rfl, rfl⟩
  | succ n ih =>
    obtain ⟨calls, hmap, hmax, hlen⟩ := ih
    refine ⟨calls ++ [.put key value, .erase key], ?_⟩
    have hround := put_erase_length hmap (hmax.symm ▸ hpos) key value
    rw [hmax, hlen] at hround
    rw [afterCalls, List.foldl_append]
    exact hround

/-- It does so the first time. -/
theorem nodes_eq_keys_not : ¬ (new 1 : LocalLru ℕ Unit).Always Balanced [.put 0 (), .erase 0] := by
  intro h
  exact absurd h.2.1.1 (by decide)

/-! ### What the entries have in common -/

/-- What a lookup finds is so. -/
def Each (P : K → V → Prop) (c : LocalLru K V) : Prop := ∃ r, c.Repr r ∧ ∀ k v, r.lookup k = some v → P k v

variable {P Q : K → V → Prop} {c : LocalLru K V} {k : K} {v : V}

lemma each_new (P : K → V → Prop) (maxSize : ℕ) : (new maxSize).Each P :=
  ⟨_, repr_new maxSize, fun _ _ h => by cases h⟩

lemma Each.mono (h : c.Each P) (hPQ : ∀ k v, P k v → Q k v) : c.Each Q := by
  obtain ⟨r, hr, hall⟩ := h
  exact ⟨r, hr, fun k v hv => hPQ k v (hall k v hv)⟩

lemma Each.of_get (h : c.Each P) (hget : (c.get k).1 = some v) : P k v := by
  obtain ⟨r, hr, hall⟩ := h
  rw [(hr.get k).1] at hget
  unfold LruCache.localGet at hget
  split at hget
  next => cases hget
  next w hw =>
    cases hget
    exact hall k v hw

lemma Each.get (h : c.Each P) (k : K) : (c.get k).2.Each P := by
  obtain ⟨r, hr, hall⟩ := h
  refine ⟨_, (hr.get k).2, fun k' v hv => hall k' v ?_⟩
  unfold LruCache.localGet at hv
  split at hv
  next => exact hv
  next w hw =>
    rw [LruCache.lookup_touch] at hv
    split_ifs at hv with heq
    · rw [heq, hw]
      exact hv
    · exact hv

lemma lookup_of_erase {r : LruCache K V} {k' : K} (h : (r.erase k).lookup k' = some v) :
    r.lookup k' = some v :=
  LruCache.lookup_of_mem (List.mem_of_mem_filter (LruCache.mem_of_lookup h))

lemma Each.erase (h : c.Each P) (k : K) : (c.erase k).Each P := by
  obtain ⟨r, hr, hall⟩ := h
  exact ⟨_, hr.erase k, fun k' v hv => hall k' v (lookup_of_erase hv)⟩

/-- An entry is put in, whatever goes for it. -/
lemma Each.put (h : c.Each P) (hother : ∀ k' w, k' ≠ k → P k' w → Q k' w) (hnew : Q k v) :
    (c.put k v).Each Q := by
  obtain ⟨r, hr, hall⟩ := h
  have hpush := hr.pushItem k v
  have htouch : ∀ k' w, (r.touch k v).lookup k' = some w → Q k' w := by
    intro k' w hw
    rw [LruCache.lookup_touch] at hw
    split_ifs at hw with heq
    · cases hw
      exact heq ▸ hnew
    · exact hother k' w heq (hall k' w hw)
  by_cases hfull : (c.pushItem k v).size > (c.pushItem k v).maxSize
  · obtain ⟨n, hn⟩ := hpush.exists_last hfull
    exact ⟨_, hpush.trim hfull hn, fun k' w hw => htouch k' w (lookup_of_erase hw)⟩
  · rw [LocalLru.put, LocalLru.trim, if_neg hfull]
    exact ⟨_, hpush, htouch⟩

end LocalLru

end DistCache
