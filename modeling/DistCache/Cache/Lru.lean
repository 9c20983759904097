import Mathlib.Data.Int.Order.Basic
import Mathlib.Data.List.Nodup
import Mathlib.Order.MinMax
import Mathlib.Tactic.SplitIfs
import DistCache.Text

/-!
`LRU_Cache`, the store of a cache server, as the list of its entries with the most recently touched
first: the nodes of the linked list from `head` to `tail`, on which `map` is a shortcut.  An entry
has one key and a key one entry, so `map` is a function of the list.
-/

namespace DistCache

variable {K V : Type}

/-- `LRU_Cache`.  The entries are those between the dummy nodes; `size` is their number. -/
structure LruCache (K V : Type) where
  /-- most recently touched first -/
  entries : List (K × V)
  capacity : ℤ
  nodup : (entries.map Prod.fst).Nodup

namespace LruCache

/-- `LRU_Cache(capacity__)`. -/
def new (capacity : ℤ) : LruCache K V := ⟨[], capacity, List.nodup_nil⟩

/-- `DEFAULT_CAPACITY`, the capacity of a default-constructed cache. -/
def defaultCapacity : ℤ := 10

/-- `all_key`, in some order: an `unordered_map` is iterated in no specified one. -/
def keys (c : LruCache K V) : List K := c.entries.map Prod.fst

variable [DecidableEq K]

/-- The value that `map` leads to. -/
def lookup (c : LruCache K V) (key : K) : Option V :=
  (c.entries.find? fun e => e.1 = key).map Prod.snd

/-- `check`. -/
def check (c : LruCache K V) (key : K) : Bool := (c.lookup key).isSome

/-- The entries of the other keys. -/
def others (c : LruCache K V) (key : K) : List (K × V) := c.entries.filter fun e => e.1 ≠ key

lemma nodup_others (c : LruCache K V) (key : K) (v : V) :
    (((key, v) :: c.others key).map Prod.fst).Nodup := by
  rw [List.map_cons, List.nodup_cons]
  constructor
  · simp [others]
  · exact c.nodup.sublist (List.filter_sublist.map _)

/-- The entry of `key` at the head, with the value `v`. -/
def touch (c : LruCache K V) (key : K) (v : V) : LruCache K V :=
  ⟨(key, v) :: c.others key, c.capacity, c.nodup_others key v⟩

/-- `get`: an entry moves to the head; without one the answer is a default value. -/
def get [Inhabited V] (c : LruCache K V) (key : K) : V × LruCache K V :=
  match c.lookup key with
  | some v => (v, c.touch key v)
  | none => (default, c)

/-- The list without the entry at the tail. -/
def removeTail (c : LruCache K V) : LruCache K V :=
  ⟨c.entries.dropLast, c.capacity, c.nodup.sublist ((List.dropLast_sublist _).map _)⟩

/-- `put`: an entry moves to the head with its new value; a new entry is inserted there, and when
there are too many the one at the tail goes.  The key of that one is the result. -/
def put [Inhabited K] (c : LruCache K V) (key : K) (val : V) : K × LruCache K V :=
  if c.check key then (default, c.touch key val)
  else if ((c.touch key val).entries.length : ℤ) > c.capacity then
    (((c.touch key val).entries.getLast (List.cons_ne_nil _ _)).1, (c.touch key val).removeTail)
  else (default, c.touch key val)

variable {c : LruCache K V} {k key : K} {v val : V}

lemma entries_touch : (c.touch key v).entries = (key, v) :: c.others key := rfl

@[simp] lemma lookup_touch : (c.touch key v).lookup k = if k = key then some v else c.lookup k := by
  unfold lookup touch others
  rw [List.find?_cons]
  by_cases h : k = key
  · subst h
    simp
  · have hne : ¬ key = k := fun h' => h h'.symm
    simp only [hne, h, decide_false, if_false, List.find?_filter]
    congr 2
    funext e
    by_cases he : e.1 = k
    · simp [he, h]
    · simp [he]

lemma mem_keys_iff : k ∈ c.keys ↔ (c.lookup k).isSome = true := by
  unfold keys lookup
  rw [Option.isSome_map, List.find?_isSome]
  simp

lemma check_iff : c.check k = true ↔ k ∈ c.keys := mem_keys_iff.symm

lemma not_mem_keys_iff : k ∉ c.keys ↔ c.lookup k = none := by
  rw [mem_keys_iff, Bool.not_eq_true, Option.isSome_eq_false_iff, Option.isNone_iff_eq_none]

lemma mem_keys_of_lookup (h : c.lookup k = some v) : k ∈ c.keys := mem_keys_iff.mpr (by rw [h]; rfl)

lemma exists_lookup (h : k ∈ c.keys) : ∃ v, c.lookup k = some v :=
  Option.isSome_iff_exists.mp (mem_keys_iff.mp h)

lemma lookup_of_mem (h : (k, v) ∈ c.entries) : c.lookup k = some v := by
  obtain ⟨entries, capacity, hnodup⟩ := c
  unfold lookup
  dsimp only at h hnodup ⊢
  induction entries with
  | nil => simp at h
  | cons e entries ih =>
    rw [List.map_cons, List.nodup_cons] at hnodup
    rw [List.find?_cons]
    rcases List.mem_cons.mp h with rfl | h
    · simp
    · have hne : e.1 ≠ k := fun he => hnodup.1 (he ▸ List.mem_map_of_mem h)
      simp only [hne, decide_false]
      exact ih hnodup.2 h

lemma mem_of_lookup (h : c.lookup k = some v) : (k, v) ∈ c.entries := by
  obtain ⟨e, he, rfl⟩ := Option.map_eq_some_iff.mp h
  have hk : e.1 = k := by simpa using List.find?_some he
  exact hk ▸ List.mem_of_find?_eq_some he

/-- The entries of the other keys, when the entry of `key` is seen in the list. -/
lemma others_of_split {e₁ e₂ : List (K × V)} (h : c.entries = e₁ ++ (key, v) :: e₂) :
    c.others key = e₁ ++ e₂ := by
  have hnodup := c.nodup
  rw [h, List.map_append, List.map_cons, List.nodup_append, List.nodup_cons] at hnodup
  obtain ⟨-, ⟨hright, -⟩, hleft⟩ := hnodup
  have h₁ : ∀ e ∈ e₁, decide (e.1 ≠ key) = true := fun e he => by
    simpa using hleft e.1 (List.mem_map_of_mem he) key List.mem_cons_self
  have h₂ : ∀ e ∈ e₂, decide (e.1 ≠ key) = true := fun e he => by
    simpa using ne_of_mem_of_not_mem (List.mem_map_of_mem he) hright
  unfold others
  rw [h, List.filter_append, List.filter_cons_of_neg (by simp), List.filter_eq_self.mpr h₁,
    List.filter_eq_self.mpr h₂]

lemma others_of_not_mem (h : key ∉ c.keys) : c.others key = c.entries := by
  refine List.filter_eq_self.mpr fun e he => ?_
  simpa using ne_of_mem_of_not_mem (List.mem_map_of_mem he) h

omit [DecidableEq K] in
lemma length_keys : c.keys.length = c.entries.length := List.length_map ..

lemma length_touch_of_mem (h : key ∈ c.keys) (val : V) :
    (c.touch key val).entries.length = c.entries.length := by
  obtain ⟨⟨k, v⟩, he, rfl⟩ := List.mem_map.mp h
  obtain ⟨e₁, e₂, hsplit⟩ := List.append_of_mem he
  rw [entries_touch, others_of_split hsplit, hsplit]
  simp
  omega

lemma length_touch_of_not_mem (h : key ∉ c.keys) (val : V) :
    (c.touch key val).entries.length = c.entries.length + 1 := by
  rw [entries_touch, others_of_not_mem h, List.length_cons]

/-! ### What the operations leave of the entries -/

/-- The tail that goes takes its own entry only. -/
lemma lookup_removeTail (h : c.removeTail.lookup k = some v) : c.lookup k = some v :=
  lookup_of_mem ((List.dropLast_sublist _).subset (mem_of_lookup h))

section Get

variable [Inhabited V]

lemma get_of_lookup (h : c.lookup key = some v) : (c.get key).2 = c.touch key v := by
  rw [get, h]

lemma get_of_not_mem (h : key ∉ c.keys) : (c.get key).2 = c := by
  rw [get, not_mem_keys_iff.mp h]

/-- Reading changes no value. -/
@[simp] lemma lookup_get : (c.get key).2.lookup k = c.lookup k := by
  unfold get
  split
  next v hv =>
    rw [lookup_touch]
    split_ifs with h
    · rw [h, hv]
    · rfl
  next => rfl

lemma length_get : (c.get key).2.entries.length = c.entries.length := by
  by_cases hmem : key ∈ c.keys
  · obtain ⟨v, hv⟩ := exists_lookup hmem
    rw [get_of_lookup hv, length_touch_of_mem hmem]
  · rw [get_of_not_mem hmem]

lemma get_fst : (c.get key).1 = (c.lookup key).getD default := by
  unfold get
  split <;> simp [*]

@[simp] lemma capacity_get : (c.get key).2.capacity = c.capacity := by
  unfold get
  split <;> rfl

end Get

variable [Inhabited K]

lemma put_of_mem (h : key ∈ c.keys) : (c.put key val).2 = c.touch key val := by
  rw [put, if_pos (check_iff.mpr h)]

lemma put_of_room (h : key ∉ c.keys) (hroom : (c.entries.length : ℤ) < c.capacity) :
    (c.put key val).2 = c.touch key val := by
  have hlen := length_touch_of_not_mem h val
  rw [put, if_neg fun hcheck => h (check_iff.mp hcheck), if_neg (by omega)]

lemma put_of_full (h : key ∉ c.keys) (hfull : c.capacity ≤ c.entries.length) :
    (c.put key val).2 = (c.touch key val).removeTail := by
  have hlen := length_touch_of_not_mem h val
  rw [put, if_neg fun hcheck => h (check_iff.mp hcheck), if_pos (by omega)]

lemma put_cases (c : LruCache K V) (key : K) (val : V) :
    (c.put key val).2 = c.touch key val ∨
      (c.put key val).2 = (c.touch key val).removeTail ∧
        c.capacity < (c.touch key val).entries.length := by
  unfold put
  split_ifs with hcheck hfull
  · exact .inl rfl
  · exact .inr ⟨rfl, hfull⟩
  · exact .inl rfl

@[simp] lemma capacity_put : (c.put key val).2.capacity = c.capacity := by
  rcases c.put_cases key val with h | ⟨h, -⟩ <;> rw [h] <;> rfl

/-- Writing brings in no entry but its own. -/
lemma lookup_put (h : (c.put key val).2.lookup k = some v) :
    (k = key ∧ v = val) ∨ (k ≠ key ∧ c.lookup k = some v) := by
  have htouch : (c.touch key val).lookup k = some v := by
    rcases c.put_cases key val with hput | ⟨hput, -⟩ <;> rw [hput] at h
    · exact h
    · exact lookup_removeTail h
  rw [lookup_touch] at htouch
  split_ifs at htouch with hk
  · exact .inl ⟨hk, (Option.some.inj htouch).symm⟩
  · exact .inr ⟨hk, htouch⟩

/-- The entry written is there afterwards, when there is room for one. -/
lemma lookup_put_self (hcap : 1 ≤ c.capacity) : (c.put key val).2.lookup key = some val := by
  rcases c.put_cases key val with hput | ⟨hput, hfull⟩ <;> rw [hput]
  · simp
  · -- the head of the list is not its tail, for there are at least two entries
    have hne : c.others key ≠ [] := by
      intro hnil
      simp only [touch, hnil, List.length_singleton] at hfull
      omega
    have hmem : (key, val) ∈ ((key, val) :: c.others key).dropLast := by
      rw [List.dropLast_cons_of_ne_nil hne]
      exact List.mem_cons_self
    exact lookup_of_mem hmem

/-! ### The keys in order -/

section Keys

omit [Inhabited K]

lemma keys_touch : (c.touch key v).keys = key :: c.keys.filter (· ≠ key) := by
  unfold keys
  rw [entries_touch, List.map_cons, others, List.filter_map]
  rfl

lemma keys_get [Inhabited V] :
    (c.get key).2.keys = if key ∈ c.keys then key :: c.keys.filter (· ≠ key) else c.keys := by
  split_ifs with hmem
  · obtain ⟨v, hv⟩ := exists_lookup hmem
    rw [get_of_lookup hv, keys_touch]
  · rw [get_of_not_mem hmem]

lemma length_filter_keys (h : key ∈ c.keys) : (c.keys.filter (· ≠ key)).length + 1 = c.keys.length := by
  obtain ⟨v, -⟩ := exists_lookup h
  have hlen := length_touch_of_mem h v
  rw [← length_keys, keys_touch, List.length_cons] at hlen
  rw [hlen, length_keys]

/-- With room for `n` entries and no more than that many, a new one pushes the last one out. -/
lemma keys_put [Inhabited K] {n : ℕ} (hcap : c.capacity = n) (hlen : c.keys.length ≤ n) :
    (c.put key val).2.keys = (key :: c.keys.filter (· ≠ key)).take n := by
  have hlength : (c.touch key val).entries.length = (key :: c.keys.filter (· ≠ key)).length := by
    rw [← keys_touch, length_keys]
  have hfilter := List.length_filter_le (fun k => decide (k ≠ key)) c.keys
  unfold put
  split_ifs with hcheck hfull
  · -- the key that is there already makes room for itself
    have hroom := length_filter_keys (check_iff.mp hcheck)
    rw [keys_touch, List.take_of_length_le]
    rw [List.length_cons]
    omega
  · rw [hlength, hcap, List.length_cons] at hfull
    have hn : (key :: c.keys.filter (· ≠ key)).length = n + 1 := by
      rw [List.length_cons]
      omega
    have hkeys : (c.touch key val).removeTail.keys = (c.touch key val).keys.dropLast :=
      List.map_dropLast ..
    rw [hkeys, keys_touch, List.dropLast_eq_take, hn, Nat.add_sub_cancel]
  · rw [hlength, hcap] at hfull
    rw [keys_touch, List.take_of_length_le (by omega)]

end Keys

/-! ### The capacity -/

/-- The store is never fuller than its capacity, and empty when that is negative. -/
def Bounded (c : LruCache K V) : Prop := (c.entries.length : ℤ) ≤ max c.capacity 0

lemma Bounded.put (h : c.Bounded) : (c.put key val).2.Bounded := by
  unfold Bounded at h ⊢
  rw [capacity_put]
  by_cases hmem : key ∈ c.keys
  · rw [put_of_mem hmem, length_touch_of_mem hmem]
    exact h
  · by_cases hfull : c.capacity ≤ c.entries.length
    · rw [put_of_full hmem hfull, removeTail, List.length_dropLast, length_touch_of_not_mem hmem,
        Nat.add_sub_cancel]
      exact h
    · rw [put_of_room hmem (not_le.mp hfull), length_touch_of_not_mem hmem]
      omega

omit [Inhabited K] in
lemma Bounded.get [Inhabited V] (h : c.Bounded) : (c.get key).2.Bounded := by
  unfold Bounded
  rw [length_get, capacity_get]
  exact h

end LruCache

end DistCache
