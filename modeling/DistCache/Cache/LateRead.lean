import DistCache.Cache.Inclusion

/-!
`get` of `LRU_Cache` among other threads.

It unlocks the mutex before it reads `node->val`, so the calls of other threads can come between: `put` may
have written another value, or evicted the key and deleted the node.  The node is safe as long as its key is
held without a break, and then what is read is the value of the moment of the reading
(`readVal_of_kept`); the key is held as long as fewer other keys than the capacity have been used since
(`late_read`).
-/

namespace DistCache

open Lib

section Model

variable {K V : Type} [DecidableEq K]

/-- `get` of a key that is there, up to `mutex.unlock()`: the node that is read afterwards. -/
def LruNodes.getLocked (c : LruNodes K V) (key : K) : Option (Ptr × LruNodes K V) := do
  let node ← c.map.lookup key
  let c ← c.move2head node
  return (node, c)

/-- `return node->val`. -/
def LruNodes.readVal (c : LruNodes K V) (node : Ptr) : Option V := (c.nodes.lookup node).map DNode.val

/-- The key that a call uses. -/
def LruCall.key? : LruCall K V → Option K
  | .put key _ | .get key => some key
  | .check _ | .allKey => none

/-- The keys other than `key` that the calls use. -/
def othersUsed (key : K) (calls : List (LruCall K V)) : Finset K :=
  (calls.filterMap LruCall.key?).toFinset.erase key

end Model

/-! ### The key stays -/

namespace LruCache

variable {K V : Type} [DecidableEq K] {r : LruCache K V} {key k : K} {S : Finset K}

/-- Only keys of `S` are before `key`. -/
def BehindOnly (r : LruCache K V) (key : K) (S : Finset K) : Prop :=
  ∃ pre post, r.keys = pre ++ key :: post ∧ ∀ x ∈ pre, x ∈ S

omit [DecidableEq K] in
lemma BehindOnly.mem (h : r.BehindOnly key S) : key ∈ r.keys := by
  obtain ⟨pre, post, hkeys, -⟩ := h
  rw [hkeys]
  exact List.mem_append_right _ List.mem_cons_self

/-- A key that is used comes before the others. -/
lemma exists_front {keys : List K} (h : ∃ pre post, keys = pre ++ key :: post ∧ ∀ x ∈ pre, x ∈ S)
    (hk : k = key ∨ k ∈ S) : ∃ pre post, k :: keys.filter (· ≠ k) = pre ++ key :: post ∧ ∀ x ∈ pre, x ∈ S := by
  by_cases heq : k = key
  · exact ⟨[], keys.filter (· ≠ k), by rw [heq]; rfl, fun x hx => absurd hx List.not_mem_nil⟩
  · obtain ⟨pre, post, rfl, hpre⟩ := h
    refine ⟨k :: pre.filter (· ≠ k), post.filter (· ≠ k), ?_, fun x hx => ?_⟩
    · rw [List.filter_append, List.filter_cons_of_pos (by simpa using Ne.symm heq), List.cons_append]
    · rcases List.mem_cons.mp hx with rfl | hx
      · exact hk.resolve_left heq
      · exact hpre x (List.mem_of_mem_filter hx)

omit [DecidableEq K] in
/-- Fewer keys than the capacity are no reason to go. -/
lemma exists_take {keys : List K} {n : ℕ} (hnodup : (keys.take n).Nodup)
    (h : ∃ pre post, keys = pre ++ key :: post ∧ ∀ x ∈ pre, x ∈ S) (hcard : S.card < n) :
    ∃ pre post, keys.take n = pre ++ key :: post ∧ ∀ x ∈ pre, x ∈ S := by
  classical
  obtain ⟨pre, post, rfl, hpre⟩ := h
  have hlen : pre.length < n := by
    by_contra hle
    have htake : ((pre ++ key :: post).take n) = pre.take n := List.take_append_of_le_length (Nat.not_lt.mp hle)
    rw [htake] at hnodup
    have hsub : (pre.take n).toFinset ⊆ S := fun x hx =>
      hpre x (List.mem_of_mem_take (List.mem_toFinset.mp hx))
    have hcard' := Finset.card_le_card hsub
    rw [List.toFinset_card_of_nodup hnodup, List.length_take, Nat.min_eq_left (Nat.not_lt.mp hle)] at hcard'
    omega
  obtain ⟨m, hm⟩ := Nat.exists_eq_add_of_lt hlen
  refine ⟨pre, post.take m, ?_, hpre⟩
  rw [List.take_append, List.take_of_length_le hlen.le, hm, Nat.add_assoc, Nat.add_sub_cancel_left,
    List.take_succ_cons]

variable [Inhabited K] [Inhabited V]

/-- A call uses its key. -/
lemma BehindOnly.call {n : ℕ} (h : r.BehindOnly key S) (hcap : r.capacity = n) (hlen : r.keys.length ≤ n)
    (hcard : S.card < n) {call : LruCall K V} (hcall : ∀ x ∈ call.key?, x = key ∨ x ∈ S) :
    (r.call call).2.BehindOnly key S := by
  cases call with
  | put x val =>
    have hnodup : (r.put x val).2.keys.Nodup := (r.put x val).2.nodup
    have hkeys : (r.put x val).2.keys = (x :: r.keys.filter (· ≠ x)).take n := keys_put hcap hlen
    rw [hkeys] at hnodup
    unfold BehindOnly LruCache.call
    rw [hkeys]
    exact exists_take hnodup (exists_front h (hcall x rfl)) hcard
  | get x =>
    unfold BehindOnly LruCache.call
    rw [keys_get]
    split_ifs
    · exact exists_front h (hcall x rfl)
    · exact h
  | check x => exact h
  | allKey => exact h

end LruCache

/-! ### Its node stays -/

namespace LruNodes

variable {K V : Type} {c c' : LruNodes K V} {p node : Ptr} {q : Option Ptr} {l : List Ptr}

lemma map_setNext (h : c.setNext p q = some c') : c'.map = c.map := by
  simp only [setNext, Option.bind_eq_bind, Option.bind_eq_some_iff, Option.pure_def, Option.some.injEq] at h
  obtain ⟨n, -, rfl⟩ := h
  rfl

lemma map_setPrev (h : c.setPrev p q = some c') : c'.map = c.map := by
  simp only [setPrev, Option.bind_eq_bind, Option.bind_eq_some_iff, Option.pure_def, Option.some.injEq] at h
  obtain ⟨n, -, rfl⟩ := h
  rfl

lemma map_add2head (h : c.add2head node = some c') : c'.map = c.map := by
  simp only [add2head, Option.bind_eq_bind, Option.bind_eq_some_iff] at h
  obtain ⟨c₁, h₁, _, -, c₂, h₂, _, -, _, -, c₃, h₃, h₄⟩ := h
  rw [map_setNext h₄, map_setPrev h₃, map_setNext h₂, map_setPrev h₁]

lemma map_remove (h : c.remove node = some c') : c'.map = c.map := by
  simp only [remove, Option.bind_eq_bind, Option.bind_eq_some_iff] at h
  obtain ⟨_, -, _, -, c₁, h₁, _, -, _, -, h₂⟩ := h
  rw [map_setPrev h₂, map_setNext h₁]

lemma map_move2head (h : c.move2head node = some c') : c'.map = c.map := by
  obtain ⟨c₁, h₁, h₂⟩ := Option.bind_eq_some_iff.mp h
  rw [map_add2head h₂, map_remove h₁]

variable [DecidableEq K] {alloc : Allocator} {r r' : LruCache K V} {key k : K} {v val : V}

/-- `get` is its two blocks, one after the other. -/
lemma get_eq_blocks [Inhabited V] (hkey : key ∈ c.map) : c.get key =
    (c.getLocked key).bind fun b => (b.2.readVal b.1).map fun v => (v, b.2) := by
  rw [get, if_pos hkey]
  unfold getLocked readVal
  cases c.map.lookup key with
  | none => rfl
  | some node =>
    simp only [Option.bind_eq_bind, Option.bind_some, Option.pure_def]
    cases c.move2head node with
    | none => rfl
    | some c' =>
      simp only [Option.bind_some]
      cases c'.nodes.lookup node <;> rfl

lemma lookup_get [Inhabited V] (h : c.get k = some (v, c')) : c'.map = c.map := by
  unfold LruNodes.get at h
  split_ifs at h
  · simp only [Option.bind_eq_bind, Option.bind_eq_some_iff, Option.pure_def, Option.some.injEq] at h
    obtain ⟨node, -, c₁, hmove, n, -, h⟩ := h
    cases h
    exact map_move2head hmove
  · cases h
    rfl

/-- A key that a `put` leaves has the node that it had. -/
lemma lookup_put [Inhabited K] {x : K} (h : c.put alloc k val = some (x, c'))
    (hp : c.map.lookup key = some p) (hmem : key ∈ c'.map) : c'.map.lookup key = some p := by
  unfold LruNodes.put at h
  split_ifs at h with hk
  · simp only [Option.bind_eq_bind, Option.bind_eq_some_iff, Option.pure_def, Option.some.injEq] at h
    obtain ⟨node, -, c₁, hmove, c₂, hval, h⟩ := h
    cases h
    simp only [setVal, Option.bind_eq_bind, Option.bind_eq_some_iff, Option.pure_def,
      Option.some.injEq] at hval
    obtain ⟨n, -, rfl⟩ := hval
    rw [show ({ c₁ with nodes := _ } : LruNodes K V).map = c₁.map from rfl, map_move2head hmove, hp]
  · have hne : key ≠ k := by
      rintro rfl
      exact hk (Finmap.mem_of_lookup_eq_some hp)
    simp only [Option.bind_eq_bind, Option.bind_eq_some_iff, Option.pure_def] at h
    obtain ⟨c₁, hadd, h⟩ := h
    have hmap : c₁.map = c.map.insert k (alloc.1 c.nodes.keys) := map_add2head hadd
    split_ifs at h
    · simp only [Option.bind_eq_some_iff, Option.some.injEq] at h
      obtain ⟨⟨gone, c₂⟩, htail, n, -, h⟩ := h
      cases h
      simp only [removeTail, Option.bind_eq_bind, Option.bind_eq_some_iff, Option.pure_def,
        Option.some.injEq] at htail
      obtain ⟨t, -, before, -, c₃, hremove, htail⟩ := htail
      cases htail
      have hmap₂ : c₂.map = c₁.map := (map_remove hremove).trans rfl
      dsimp only at hmem ⊢
      have hgone : key ≠ n.key := fun hgone => by
        rw [hgone, Finmap.mem_erase] at hmem
        exact hmem.1 rfl
      rw [Finmap.lookup_erase_ne hgone, hmap₂, hmap, Finmap.lookup_insert_of_ne _ hne, hp]
    · cases h
      rw [hmap, Finmap.lookup_insert_of_ne _ hne, hp]

variable [Inhabited K] [Inhabited V]

lemma lookup_call {call : LruCall K V} {answer : LruAnswer K V} (h : c.call alloc call = some (answer, c'))
    (hp : c.map.lookup key = some p) (hmem : key ∈ c'.map) : c'.map.lookup key = some p := by
  cases call with
  | put k val =>
    obtain ⟨⟨x, c₁⟩, hput, heq⟩ := Option.map_eq_some_iff.mp h
    cases heq
    exact lookup_put hput hp hmem
  | get k =>
    obtain ⟨⟨v, c₁⟩, hget, heq⟩ := Option.map_eq_some_iff.mp h
    cases heq
    rw [lookup_get hget, hp]
  | check k =>
    cases h
    exact hp
  | allKey =>
    cases h
    exact hp

omit [Inhabited K] in
/-- The late read of a node that `map` still leads to is a `get` of that moment. -/
lemma readVal_of_kept (h : c.Repr l r) (hp : c.map.lookup key = some p) :
    ∃ v c', c.readVal p = some v ∧ c.get key = some (v, c') ∧ r.lookup key = some v := by
  obtain ⟨l₁, l₂, e₁, v, e₂, -, hr, hentry, -, -⟩ := h.split hp
  have hlookup : r.lookup key = some v := LruCache.lookup_of_mem (by rw [hr]; simp)
  obtain ⟨n, hn, hnv⟩ := Option.map_eq_some_iff.mp hentry
  rw [Prod.mk.injEq] at hnv
  obtain ⟨c', -, hget, -⟩ := h.get key
  rw [LruCache.get_fst, hlookup] at hget
  refine ⟨v, c', ?_, hget, hlookup⟩
  rw [readVal, hn, Option.map_some, hnv.2]

/-- The calls of the other threads, one after the other. -/
lemma run_kept {n : ℕ} {S : Finset K} (hcard : S.card < n) {calls : List (LruCall K V)}
    (hcalls : ∀ call ∈ calls, ∀ x ∈ call.key?, x = key ∨ x ∈ S) (h : c.Repr l r)
    (hbound : r.Bounded) (hcap : r.capacity = n) (hp : c.map.lookup key = some p)
    (hbehind : r.BehindOnly key S) : ∃ answers c' l', c.run alloc calls = some (answers, c') ∧
      c'.Repr l' (r.run calls).2 ∧ c'.map.lookup key = some p := by
  induction calls generalizing c l r with
  | nil => exact ⟨[], c, l, rfl, h, hp⟩
  | cons call calls ih =>
    obtain ⟨c₁, l₁, hcall, h₁⟩ := h.call alloc call
    obtain ⟨hbound₁, hcap₁⟩ := hbound.call call
    have hlen : r.keys.length ≤ n := by
      rw [LruCache.length_keys]
      unfold LruCache.Bounded at hbound
      omega
    have hbehind₁ := hbehind.call hcap hlen hcard (hcalls call List.mem_cons_self)
    have hp₁ : c₁.map.lookup key = some p := lookup_call hcall hp (h₁.mem_map.mpr hbehind₁.mem)
    obtain ⟨answers, c₂, l₂, hrun, h₂, hp₂⟩ := ih (fun call' hmem => hcalls call' (List.mem_cons_of_mem _ hmem))
      h₁ hbound₁ (hcap₁.trans hcap) hp₁ hbehind₁
    refine ⟨(r.call call).1 :: answers, c₂, l₂, ?_, h₂, hp₂⟩
    rw [run, hcall, Option.bind_eq_bind, Option.bind_some]
    dsimp only
    rw [hrun]
    rfl

end LruNodes

section Threads

variable {K V : Type} [DecidableEq K] [Inhabited K] [Inhabited V]

/-- **The late read of `get`.**  Whatever was called before, let a thread come to a key that is held and
release the lock, and let the calls of other threads come before it reads the node.  When these use fewer
other keys than the capacity, the node is alive, and what it reads is what a `get` of that moment returns. -/
theorem late_read (alloc : Allocator) (capacity : ℤ) (before since : List (LruCall K V)) {key : K}
    {answers : List (LruAnswer K V)} {s : LruNodes K V}
    (hbefore : (LruNodes.new alloc capacity).run alloc before = some (answers, s))
    (hheld : s.check key = true) (hfew : ((othersUsed key since).card : ℤ) < capacity) :
    ∃ node s₁ answers' s₂ v s₃, s.getLocked key = some (node, s₁) ∧
      s₁.run alloc since = some (answers', s₂) ∧ s₂.readVal node = some v ∧ s₂.get key = some (v, s₃) := by
  obtain ⟨s', l, hrun, hrepr⟩ := (LruNodes.repr_new alloc capacity).run alloc before
  cases hbefore.symm.trans hrun
  have hempty : (LruCache.new capacity : LruCache K V).Bounded := le_max_right _ _
  obtain ⟨hbound, hcap⟩ := hempty.run before
  generalize ((LruCache.new capacity).run before).2 = r at hrepr hbound hcap
  have hcap : r.capacity = capacity := hcap
  obtain ⟨node, hnode⟩ := Finmap.mem_iff.mp (of_decide_eq_true hheld)
  obtain ⟨s₁, l', v, hmove, hrepr₁, -, hv, -, hmap⟩ := hrepr.touch hnode
  have htouch : (r.get key).2 = r.touch key v := LruCache.get_of_lookup hv
  have hbound₁ : (r.touch key v).Bounded := htouch ▸ hbound.get
  have hbehind : (r.touch key v).BehindOnly key (othersUsed key since) :=
    ⟨[], r.keys.filter (· ≠ key), LruCache.keys_touch, fun x hx => absurd hx List.not_mem_nil⟩
  have hcalls : ∀ call ∈ since, ∀ x ∈ call.key?, x = key ∨ x ∈ othersUsed key since := by
    intro call hcall x hx
    by_cases hxk : x = key
    · exact .inl hxk
    · exact .inr (Finset.mem_erase.mpr ⟨hxk, List.mem_toFinset.mpr (List.mem_filterMap.mpr ⟨call, hcall, hx⟩)⟩)
  have hnat : (capacity.toNat : ℤ) = capacity := Int.toNat_of_nonneg (by omega)
  obtain ⟨answers', s₂, l₂, hrun₂, hrepr₂, hnode₂⟩ := LruNodes.run_kept (n := capacity.toNat)
    (by omega) hcalls hrepr₁ hbound₁ (by rw [hnat]; exact hcap) (by rw [hmap, hnode]) hbehind
  obtain ⟨w, s₃, hread, hget, -⟩ := LruNodes.readVal_of_kept hrepr₂ hnode₂
  refine ⟨node, s₁, answers', s₂, w, s₃, ?_, hrun₂, hread, hget⟩
  rw [LruNodes.getLocked, hnode, Option.bind_eq_bind, Option.bind_some, hmove]
  rfl

end Threads

/-- Another thread inserts a key and writes the one that is read, in a store with room for two. -/
theorem late_read_two : ∃ s : LruNodes ℕ ℕ, ∃ node s₁ s₂ v s₃,
    ((LruNodes.new .behind 2).run .behind [.put 1 10, .put 2 20]).map Prod.snd = some s ∧
    s.getLocked 1 = some (node, s₁) ∧ (s₁.run .behind [.put 3 30, .put 1 11]).map Prod.snd = some s₂ ∧
    s₂.readVal node = some v ∧ s₂.get 1 = some (v, s₃) := by
  have hrun : ((LruNodes.new .behind 2 : LruNodes ℕ ℕ).run .behind [.put 1 10, .put 2 20]).map
      (fun r => r.2.check 1) = some true := by
    decide +kernel
  obtain ⟨⟨answers, s⟩, hs, hheld⟩ := Option.map_eq_some_iff.mp hrun
  have hfew : ((othersUsed 1 [.put 3 30, .put 1 11] : Finset ℕ).card : ℤ) < 2 := by decide +kernel
  obtain ⟨node, s₁, answers', s₂, v, s₃, hlocked, hrun₂, hread, hget⟩ :=
    late_read .behind 2 [.put 1 10, .put 2 20] [.put 3 30, .put (1 : ℕ) (11 : ℕ)] hs hheld hfew
  exact ⟨s, node, s₁, s₂, v, s₃, by rw [hs]; rfl, hlocked, by rw [hrun₂]; rfl, hread, hget⟩

/-- With as many other keys as the capacity the node is deleted before it is read. -/
example : (do
    let (_, s) ← (LruNodes.new .behind 2 : LruNodes ℕ ℕ).run .behind [.put 1 10, .put 2 20]
    let (node, s) ← s.getLocked 1
    let (_, s) ← s.run .behind [.put 3 30, .put 4 40]
    return s.readVal node) = some none := by
  decide +kernel

end DistCache
