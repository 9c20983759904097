import DistCache.Cache.Lru
import DistCache.Lib.LinkedList
import DistCache.Lib.MapLoop

/-!
`LRU_Cache` as it lies in memory: nodes with two pointers, the two dummy nodes at the ends, the table
`map` from the keys to their nodes, and the counter `size`.

`Repr` relates it to the list of entries of `LruCache`: the nodes between the dummies hold the entries,
in order, and `map` leads to each of them from its key.  Every operation keeps that, and answers what the
operation on the list answers (`lruNodes_refines_lruCache`).
-/

namespace DistCache

open Lib

/-- The address of a node. -/
abbrev Ptr := ℕ

/-- `DNode`. -/
structure DNode (K V : Type) where
  prev : Option Ptr
  next : Option Ptr
  key : K
  val : V

/-- What `new` does: it returns the address of no node that is alive. -/
def Allocator := { new : Finset Ptr → Ptr // ∀ s, new s ∉ s }

/-- The members of `LRU_Cache`, and the nodes that are alive.  (`size` is an `int`; it is never above
`max capacity 0 + 1`.) -/
structure LruNodes (K V : Type) where
  nodes : Map Ptr (DNode K V)
  map : Map K Ptr
  head : Ptr
  tail : Ptr
  size : ℤ
  capacity : ℤ

namespace LruNodes

variable {K V : Type}

/-! ### The operations -/

/-- `LRU_Cache(capacity__)`. -/
def new [Inhabited K] [Inhabited V] (alloc : Allocator) (capacity : ℤ) : LruNodes K V :=
  let head := alloc.1 ∅
  let tail := alloc.1 {head}
  { nodes := ((∅ : Map Ptr (DNode K V)).insert head ⟨none, some tail, default, default⟩).insert tail
      ⟨some head, none, default, default⟩
    map := ∅
    head := head
    tail := tail
    size := 0
    capacity := capacity }

/-- `p->next = q`. -/
def setNext (c : LruNodes K V) (p : Ptr) (q : Option Ptr) : Option (LruNodes K V) := do
  let n ← c.nodes.lookup p
  return { c with nodes := c.nodes.insert p { n with next := q } }

/-- `p->prev = q`. -/
def setPrev (c : LruNodes K V) (p : Ptr) (q : Option Ptr) : Option (LruNodes K V) := do
  let n ← c.nodes.lookup p
  return { c with nodes := c.nodes.insert p { n with prev := q } }

/-- `p->val = v`. -/
def setVal (c : LruNodes K V) (p : Ptr) (v : V) : Option (LruNodes K V) := do
  let n ← c.nodes.lookup p
  return { c with nodes := c.nodes.insert p { n with val := v } }

/-- `add2head`, one assignment after the other. -/
def add2head (c : LruNodes K V) (node : Ptr) : Option (LruNodes K V) := do
  let c ← c.setPrev node (some c.head)
  let h ← c.nodes.lookup c.head
  let c ← c.setNext node h.next
  let h ← c.nodes.lookup c.head
  let first ← h.next
  let c ← c.setPrev first (some node)
  c.setNext c.head (some node)

/-- `remove`: the node's own pointers are left as they are. -/
def remove (c : LruNodes K V) (node : Ptr) : Option (LruNodes K V) := do
  let n ← c.nodes.lookup node
  let before ← n.prev
  let c ← c.setNext before n.next
  let n ← c.nodes.lookup node
  let after ← n.next
  c.setPrev after n.prev

/-- `move2head`. -/
def move2head (c : LruNodes K V) (node : Ptr) : Option (LruNodes K V) := do
  let c ← c.remove node
  c.add2head node

/-- `remove_tail`. -/
def removeTail (c : LruNodes K V) : Option (Ptr × LruNodes K V) := do
  let t ← c.nodes.lookup c.tail
  let node ← t.prev
  let c ← c.remove node
  return (node, c)

/-- `all_key`: each key once, in the order of an `unordered_map`, which is not specified. -/
def allKey (c : LruNodes K V) : Finset K := c.map.keys

variable [DecidableEq K]

/-- `check`. -/
def check (c : LruNodes K V) (key : K) : Bool := decide (key ∈ c.map)

/-- `get`. -/
def get [Inhabited V] (c : LruNodes K V) (key : K) : Option (V × LruNodes K V) :=
  if key ∈ c.map then do
    let node ← c.map.lookup key
    let c ← c.move2head node
    let n ← c.nodes.lookup node
    return (n.val, c)
  else some (default, c)

/-- `put`: what it returns is the key that goes, or a default one. -/
def put [Inhabited K] (alloc : Allocator) (c : LruNodes K V) (key : K) (val : V) :
    Option (K × LruNodes K V) :=
  if key ∈ c.map then do
    let node ← c.map.lookup key
    let c ← c.move2head node
    let c ← c.setVal node val
    return (default, c)
  else do
    let node := alloc.1 c.nodes.keys
    let c := { c with
      nodes := c.nodes.insert node ⟨none, none, key, val⟩
      map := c.map.insert key node }
    let c ← c.add2head node
    let c := { c with size := c.size + 1 }
    if c.size > c.capacity then do
      let (gone, c) ← c.removeTail
      let n ← c.nodes.lookup gone
      return (n.key, { c with
        map := c.map.erase n.key
        nodes := c.nodes.erase gone
        size := c.size - 1 })
    else return (default, c)

end LruNodes

/-! ### Calls -/

/-- A call of a public function. -/
inductive LruCall (K V : Type) where
  | put (key : K) (val : V)
  | get (key : K)
  | check (key : K)
  | allKey

/-- What a call returns. -/
inductive LruAnswer (K V : Type) where
  | removed (key : K)
  | value (val : V)
  | found (b : Bool)
  | keys (s : Finset K)

section Calls

variable {K V : Type} [DecidableEq K] [Inhabited K] [Inhabited V]

/-- A call on the nodes. -/
def LruNodes.call (alloc : Allocator) (c : LruNodes K V) : LruCall K V →
    Option (LruAnswer K V × LruNodes K V)
  | .put key val => (c.put alloc key val).map fun r => (.removed r.1, r.2)
  | .get key => (c.get key).map fun r => (.value r.1, r.2)
  | .check key => some (.found (c.check key), c)
  | .allKey => some (.keys c.allKey, c)

/-- A call on the list of entries. -/
def LruCache.call (c : LruCache K V) : LruCall K V → LruAnswer K V × LruCache K V
  | .put key val => (.removed (c.put key val).1, (c.put key val).2)
  | .get key => (.value (c.get key).1, (c.get key).2)
  | .check key => (.found (c.check key), c)
  | .allKey => (.keys c.keys.toFinset, c)

/-- Calls, one after the other. -/
def LruNodes.run (alloc : Allocator) : LruNodes K V → List (LruCall K V) →
    Option (List (LruAnswer K V) × LruNodes K V)
  | c, [] => some ([], c)
  | c, call :: calls => do
    let (answer, c) ← c.call alloc call
    let (answers, c) ← LruNodes.run alloc c calls
    return (answer :: answers, c)

/-- Calls on the list of entries. -/
def LruCache.run : LruCache K V → List (LruCall K V) → List (LruAnswer K V) × LruCache K V
  | c, [] => ([], c)
  | c, call :: calls =>
    let (answer, c) := c.call call
    let (answers, c) := c.run calls
    (answer :: answers, c)

end Calls

/-! ### Views of the nodes -/

namespace LruNodes

variable {K V : Type} {c c' : LruNodes K V} {p q x : Ptr} {l l₁ l₂ : List Ptr} {v : V}

/-- `p->next`. -/
def next (c : LruNodes K V) (p : Ptr) : Option Ptr := (c.nodes.lookup p).bind DNode.next

/-- `p->prev`. -/
def prev (c : LruNodes K V) (p : Ptr) : Option Ptr := (c.nodes.lookup p).bind DNode.prev

/-- The entry of a node. -/
def entry (c : LruNodes K V) (p : Ptr) : Option (K × V) :=
  (c.nodes.lookup p).map fun n => (n.key, n.val)

/-- The key of a node. -/
def key (c : LruNodes K V) (p : Ptr) : Option K := (c.entry p).map Prod.fst

lemma alive_of_next (h : c.next p = some q) : p ∈ c.nodes := by
  obtain ⟨n, hn, -⟩ := Option.bind_eq_some_iff.mp h
  exact Finmap.mem_of_lookup_eq_some hn

lemma alive_of_prev (h : c.prev p = some q) : p ∈ c.nodes := by
  obtain ⟨n, hn, -⟩ := Option.bind_eq_some_iff.mp h
  exact Finmap.mem_of_lookup_eq_some hn

lemma alive_iff : p ∈ c.nodes ↔ (c.entry p).isSome = true := by
  rw [entry, Option.isSome_map, Finmap.mem_iff, Option.isSome_iff_exists]

/-- A node and what the views tell of it. -/
lemma node_of_links (hprev : c.prev x = some p) (hnext : c.next x = some q) :
    ∃ n, c.nodes.lookup x = some n ∧ n.prev = some p ∧ n.next = some q := by
  obtain ⟨n, hn, hp⟩ := Option.bind_eq_some_iff.mp hprev
  refine ⟨n, hn, hp, ?_⟩
  rwa [next, hn, Option.bind_some] at hnext

/-- `c'` is `c` with other pointers in its nodes. -/
structure Relinks (c c' : LruNodes K V) (next prev : Ptr → Option Ptr) : Prop where
  frame : c' = { c with nodes := c'.nodes }
  entry : c'.entry = c.entry
  next : c'.next = next
  prev : c'.prev = prev

lemma Relinks.alive {next prev : Ptr → Option Ptr} (h : c.Relinks c' next prev) :
    p ∈ c'.nodes ↔ p ∈ c.nodes := by
  rw [alive_iff, alive_iff, h.entry]

section Insert

variable {n : DNode K V}

lemma next_insert : next { c with nodes := c.nodes.insert p n } = Function.update c.next p n.next := by
  funext a
  unfold LruNodes.next
  rw [lookup_insert_ite, Function.update_apply]
  split_ifs <;> rfl

lemma prev_insert : prev { c with nodes := c.nodes.insert p n } = Function.update c.prev p n.prev := by
  funext a
  unfold LruNodes.prev
  rw [lookup_insert_ite, Function.update_apply]
  split_ifs <;> rfl

lemma entry_insert :
    entry { c with nodes := c.nodes.insert p n } = Function.update c.entry p (some (n.key, n.val)) := by
  funext a
  unfold LruNodes.entry
  rw [lookup_insert_ite, Function.update_apply]
  split_ifs <;> rfl

end Insert

lemma setNext_relinks (hp : p ∈ c.nodes) (q : Option Ptr) :
    ∃ c', c.setNext p q = some c' ∧ c.Relinks c' (Function.update c.next p q) c.prev := by
  obtain ⟨n, hn⟩ := Finmap.mem_iff.mp hp
  have hprev : c.prev p = n.prev := by rw [prev, hn, Option.bind_some]
  have hentry : c.entry p = some (n.key, n.val) := by rw [entry, hn, Option.map_some]
  refine ⟨{ c with nodes := c.nodes.insert p { n with next := q } }, ?_, rfl, ?_, next_insert, ?_⟩
  · rw [setNext, hn]
    rfl
  · rw [entry_insert, ← hentry, Function.update_eq_self]
  · rw [prev_insert, ← hprev, Function.update_eq_self]

lemma setPrev_relinks (hp : p ∈ c.nodes) (q : Option Ptr) :
    ∃ c', c.setPrev p q = some c' ∧ c.Relinks c' c.next (Function.update c.prev p q) := by
  obtain ⟨n, hn⟩ := Finmap.mem_iff.mp hp
  have hnext : c.next p = n.next := by rw [next, hn, Option.bind_some]
  have hentry : c.entry p = some (n.key, n.val) := by rw [entry, hn, Option.map_some]
  refine ⟨{ c with nodes := c.nodes.insert p { n with prev := q } }, ?_, rfl, ?_, ?_, prev_insert⟩
  · rw [setPrev, hn]
    rfl
  · rw [entry_insert, ← hentry, Function.update_eq_self]
  · rw [next_insert, ← hnext, Function.update_eq_self]

/-! ### The splices -/

/-- The pointers of the nodes are edited so that `l` is linked, and nothing else is changed. -/
structure Spliced (c c' : LruNodes K V) (l : List Ptr) : Prop where
  frame : c' = { c with nodes := c'.nodes }
  entry : c'.entry = c.entry
  linked : Linked c'.next c'.prev l

/-- `remove` takes a node between two others out of the list. -/
lemma remove_spliced (hl₁ : l₁ ≠ []) (hl₂ : l₂ ≠ []) (h : Linked c.next c.prev (l₁ ++ x :: l₂)) :
    ∃ c', c.remove x = some c' ∧ c.Spliced c' (l₁ ++ l₂) := by
  obtain ⟨l₁, a, rfl⟩ := (List.eq_nil_or_concat' l₁).resolve_left hl₁
  obtain ⟨b, l₂, rfl⟩ := List.exists_cons_of_ne_nil hl₂
  rw [List.append_assoc, List.singleton_append] at h ⊢
  obtain ⟨-, hax, hright⟩ := List.isChain_append_cons_cons.mp h.chain
  obtain ⟨hxb, -⟩ := List.isChain_cons_cons.mp hright
  have hne : x ≠ a := by
    have hnodup := (List.nodup_append.mp h.nodup).2.1
    rintro rfl
    exact (List.nodup_cons.mp hnodup).1 List.mem_cons_self
  obtain ⟨n, hn, hnprev, hnnext⟩ := node_of_links hax.2 hxb.1
  obtain ⟨c₁, h₁, e₁⟩ := setNext_relinks (alive_of_next hax.1) n.next
  have hprev₁ : c₁.prev x = some a := by rw [e₁.prev, hax.2]
  have hnext₁ : c₁.next x = some b := by rw [e₁.next, Function.update_of_ne hne, hxb.1]
  obtain ⟨n₁, hn₁, hnprev₁, hnnext₁⟩ := node_of_links hprev₁ hnext₁
  obtain ⟨c₂, h₂, e₂⟩ := setPrev_relinks (e₁.alive.mpr (alive_of_prev hxb.2)) n₁.prev
  refine ⟨c₂, ?_, ?_, ?_, ?_⟩
  · simp only [remove, Option.bind_eq_bind, hn, Option.bind_some, hnprev, h₁, hn₁, hnnext₁, h₂]
  · rw [e₂.frame, e₁.frame]
  · rw [e₂.entry, e₁.entry]
  · rw [e₂.next, e₂.prev, e₁.next, e₁.prev, hnnext, hnprev₁]
    exact h.unlink

/-- `add2head` puts a node from outside behind the first dummy. -/
lemma add2head_spliced (hl : l ≠ []) (hx : x ∈ c.nodes) (hxl : x ∉ c.head :: l)
    (h : Linked c.next c.prev (c.head :: l)) :
    ∃ c', c.add2head x = some c' ∧ c.Spliced c' (c.head :: x :: l) := by
  obtain ⟨b, l, rfl⟩ := List.exists_cons_of_ne_nil hl
  obtain ⟨hab, -⟩ := List.isChain_cons_cons.mp h.chain
  have hxa : c.head ≠ x := fun heq => hxl (heq ▸ List.mem_cons_self)
  obtain ⟨c₁, h₁, e₁⟩ := setPrev_relinks hx (some c.head)
  have hhead₁ : c₁.head = c.head := by rw [e₁.frame]
  have hnext₁ : c₁.next c₁.head = some b := by rw [e₁.next, hhead₁, hab.1]
  obtain ⟨n₁, hn₁, hb₁⟩ := Option.bind_eq_some_iff.mp hnext₁
  obtain ⟨c₂, h₂, e₂⟩ := setNext_relinks (e₁.alive.mpr hx) n₁.next
  have hhead₂ : c₂.head = c.head := by rw [e₂.frame, hhead₁]
  have hnext₂ : c₂.next c₂.head = some b := by
    rw [e₂.next, hhead₂, Function.update_of_ne hxa, ← hhead₁, hnext₁]
  obtain ⟨n₂, hn₂, hb₂⟩ := Option.bind_eq_some_iff.mp hnext₂
  have hb : b ∈ c₂.nodes := e₂.alive.mpr (e₁.alive.mpr (alive_of_prev hab.2))
  obtain ⟨c₃, h₃, e₃⟩ := setPrev_relinks hb (some x)
  have hhead₃ : c₃.head = c.head := by rw [e₃.frame, hhead₂]
  have ha : c₃.head ∈ c₃.nodes := by
    rw [hhead₃]
    exact e₃.alive.mpr (e₂.alive.mpr (e₁.alive.mpr (alive_of_next hab.1)))
  obtain ⟨c₄, h₄, e₄⟩ := setNext_relinks ha (some x)
  refine ⟨c₄, ?_, ?_, ?_, ?_⟩
  · simp only [add2head, Option.bind_eq_bind, h₁, hn₁, Option.bind_some, h₂, hn₂, hb₂, h₃, h₄]
  · rw [e₄.frame, e₃.frame, e₂.frame, e₁.frame]
  · rw [e₄.entry, e₃.entry, e₂.entry, e₁.entry]
  · rw [e₄.next, e₄.prev, e₃.next, e₃.prev, e₂.next, e₂.prev, e₁.next, e₁.prev, hhead₃, hb₁]
    exact h.linkAfter hxl

/-! ### Nodes and entries -/

/-- The nodes between the dummies are `l`; they hold the entries of `r` in the same order, `map` leads
to them from their keys, and `size` is their number. -/
structure Repr (c : LruNodes K V) (l : List Ptr) (r : LruCache K V) [DecidableEq K] : Prop where
  linked : Linked c.next c.prev (c.head :: (l ++ [c.tail]))
  entries : l.map c.entry = r.entries.map some
  map : ∀ k p, c.map.lookup k = some p ↔ p ∈ l ∧ c.key p = some k
  size : c.size = l.length
  capacity : c.capacity = r.capacity

section Operations

variable [DecidableEq K] {r : LruCache K V} {k : K} {alloc : Allocator}

lemma Repr.keys (h : c.Repr l r) : l.map c.key = r.keys.map some := by
  have hkeys : l.map c.key = (l.map c.entry).map (Option.map Prod.fst) := by
    rw [List.map_map]
    rfl
  rw [hkeys, h.entries, LruCache.keys, List.map_map, List.map_map]
  rfl

/-- `map` has the keys of the entries. -/
lemma Repr.mem_map (h : c.Repr l r) : k ∈ c.map ↔ k ∈ r.keys := by
  have hmem : some k ∈ l.map c.key ↔ k ∈ r.keys := by
    rw [h.keys]
    simp
  rw [← hmem, Finmap.mem_iff, List.mem_map]
  exact exists_congr fun p => h.map k p

/-- An entry that is there, its node, and what is around the two. -/
lemma Repr.split (h : c.Repr l r) (hk : c.map.lookup k = some p) : ∃ l₁ l₂ e₁ v e₂,
    l = l₁ ++ p :: l₂ ∧ r.entries = e₁ ++ (k, v) :: e₂ ∧ c.entry p = some (k, v) ∧
      l₁.map c.entry = e₁.map some ∧ l₂.map c.entry = e₂.map some := by
  obtain ⟨hp, hkey⟩ := (h.map k p).mp hk
  obtain ⟨l₁, l₂, rfl⟩ := List.append_of_mem hp
  have hentries := h.entries
  rw [List.map_append, List.map_cons] at hentries
  obtain ⟨e₁, rest, hr, h₁, hrest⟩ := List.map_eq_append_iff.mp hentries.symm
  obtain ⟨e, e₂, rfl, he, h₂⟩ := List.map_eq_cons_iff.mp hrest
  have hfst : e.1 = k := by
    rw [key, ← he, Option.map_some, Option.some.injEq] at hkey
    exact hkey
  subst hfst
  exact ⟨l₁, l₂, e₁, e.2, e₂, rfl, hr, he.symm, h₁.symm, h₂.symm⟩

/-- The nodes of the list are alive. -/
lemma Repr.alive (h : c.Repr l r) : ∀ p ∈ c.head :: (l ++ [c.tail]), p ∈ c.nodes := by
  have hne : l ++ [c.tail] ≠ [] := by simp
  intro p hp
  rcases List.mem_cons.mp hp with rfl | hp
  · obtain ⟨b, rest, hb⟩ := List.exists_cons_of_ne_nil hne
    have hchain := h.linked.chain
    rw [hb, List.isChain_cons_cons] at hchain
    exact alive_of_next hchain.1.1
  · obtain ⟨l₁, l₂, hsplit⟩ := List.append_of_mem hp
    obtain ⟨l₀, a, ha⟩ := (List.eq_nil_or_concat' (c.head :: l₁)).resolve_left (by simp)
    have hchain := h.linked.chain
    rw [hsplit, ← List.cons_append, ha, List.append_assoc, List.singleton_append,
      List.isChain_append_cons_cons] at hchain
    exact alive_of_prev hchain.2.1.2

lemma repr_new [Inhabited K] [Inhabited V] (alloc : Allocator) (capacity : ℤ) :
    (new alloc capacity : LruNodes K V).Repr [] (LruCache.new capacity) := by
  have hne : alloc.1 ∅ ≠ alloc.1 {alloc.1 ∅} := fun h => alloc.2 {alloc.1 ∅} (by simp [← h])
  refine ⟨⟨?_, ?_⟩, rfl, ?_, rfl, rfl⟩
  · simpa [new] using hne
  · rw [List.nil_append, List.isChain_pair]
    constructor
    · simp [next, new, hne]
    · simp [prev, new]
  · intro k p
    simp [new]

/-- `move2head` on a node of the list. -/
lemma Repr.move2head (h : c.Repr (l₁ ++ p :: l₂) r) :
    ∃ c', c.move2head p = some c' ∧ c.Spliced c' (c.head :: p :: (l₁ ++ l₂ ++ [c.tail])) := by
  have hlinked := h.linked
  rw [List.append_assoc, List.cons_append, ← List.cons_append] at hlinked
  obtain ⟨c₁, h₁, s₁⟩ := remove_spliced (by simp) (by simp) hlinked
  have hhead : c₁.head = c.head := by rw [s₁.frame]
  have hp : p ∈ c₁.nodes := by
    rw [alive_iff, s₁.entry, ← alive_iff]
    exact h.alive p (by simp)
  have hlinked₁ : Linked c₁.next c₁.prev (c₁.head :: (l₁ ++ l₂ ++ [c.tail])) := by
    rw [hhead, List.append_assoc]
    exact s₁.linked
  have hnot : p ∉ c₁.head :: (l₁ ++ l₂ ++ [c.tail]) := by
    have hnodup := hlinked.nodup
    rw [List.nodup_middle, List.nodup_cons] at hnodup
    rw [hhead, List.append_assoc]
    exact hnodup.1
  obtain ⟨c₂, h₂, s₂⟩ := add2head_spliced (by simp) hp hnot hlinked₁
  refine ⟨c₂, ?_, ?_, ?_, ?_⟩
  · rw [LruNodes.move2head, h₁, Option.bind_eq_bind, Option.bind_some, h₂]
  · rw [s₂.frame, s₁.frame]
  · rw [s₂.entry, s₁.entry]
  · rw [← hhead]
    exact s₂.linked

/-- A present key: its node comes to the front, and its entry with it. -/
lemma Repr.touch (h : c.Repr l r) (hk : c.map.lookup k = some p) :
    ∃ c' l' v, c.move2head p = some c' ∧ c'.Repr (p :: l') (r.touch k v) ∧ p ∉ l' ∧
      r.lookup k = some v ∧ c'.entry p = some (k, v) ∧ c'.map = c.map := by
  obtain ⟨l₁, l₂, e₁, v, e₂, rfl, hr, hp, h₁, h₂⟩ := h.split hk
  obtain ⟨c', hc', s⟩ := h.move2head
  have hothers := LruCache.others_of_split hr
  have hkey : c'.key = c.key := by
    unfold key
    rw [s.entry]
  have hnot : p ∉ l₁ ++ l₂ := by
    have hnodup := s.linked.nodup
    rw [List.nodup_cons, List.nodup_cons, List.mem_append, not_or] at hnodup
    exact hnodup.2.1.1
  refine ⟨c', l₁ ++ l₂, v, hc', ⟨?_, ?_, fun k' q => ?_, ?_, ?_⟩, hnot,
    LruCache.lookup_of_mem (by simp [hr]), by rw [s.entry, hp], by rw [s.frame]⟩
  · have hlinked := s.linked
    rw [s.frame]
    rw [List.cons_append]
    exact hlinked
  · rw [s.entry, List.map_cons, List.map_append, hp, h₁, h₂, LruCache.entries_touch, hothers,
      List.map_cons, List.map_append]
  · rw [hkey, s.frame]
    refine (h.map k' q).trans (and_congr_left fun _ => ?_)
    simp only [List.mem_append, List.mem_cons]
    tauto
  · rw [s.frame]
    refine h.size.trans ?_
    simp
    omega
  · rw [s.frame]
    exact h.capacity

/-- `get`. -/
theorem Repr.get [Inhabited V] (h : c.Repr l r) (k : K) :
    ∃ c' l', c.get k = some ((r.get k).1, c') ∧ c'.Repr l' (r.get k).2 := by
  unfold LruNodes.get LruCache.get
  by_cases hk : k ∈ c.map
  · obtain ⟨p, hp⟩ := Finmap.mem_iff.mp hk
    obtain ⟨c', l', v, hc', hrepr, -, hv, hentry, -⟩ := h.touch hp
    obtain ⟨n, hn, hnv⟩ := Option.map_eq_some_iff.mp hentry
    rw [Prod.mk.injEq] at hnv
    refine ⟨c', p :: l', ?_, by rw [hv]; exact hrepr⟩
    simp only [if_pos hk, hp, Option.bind_eq_bind, Option.bind_some, hc', hn, hv, hnv.2,
      Option.pure_def]
  · have hnone : r.lookup k = none := by
      rw [h.mem_map] at hk
      exact LruCache.not_mem_keys_iff.mp hk
    refine ⟨c, l, ?_, by rw [hnone]; exact h⟩
    rw [if_neg hk, hnone]

/-- `check`. -/
lemma Repr.check (h : c.Repr l r) (k : K) : c.check k = r.check k := by
  rw [Bool.eq_iff_iff, LruNodes.check, decide_eq_true_iff, h.mem_map, LruCache.mem_keys_iff]
  rfl

/-- `all_key`. -/
lemma Repr.allKey (h : c.Repr l r) : c.allKey = r.keys.toFinset := by
  ext k
  rw [LruNodes.allKey, Finmap.mem_keys, h.mem_map, List.mem_toFinset]

/-- The value of the node in front is changed. -/
lemma Repr.setVal (h : c.Repr (p :: l) (r.touch k v)) (hp : p ∉ l) (val : V) :
    ∃ c', c.setVal p val = some c' ∧ c'.Repr (p :: l) (r.touch k val) := by
  obtain ⟨n, hn⟩ := Finmap.mem_iff.mp (h.alive p (by simp))
  have hentries := h.entries
  rw [LruCache.entries_touch, List.map_cons, List.map_cons, List.cons.injEq] at hentries
  have hnkey : c.entry p = some (n.key, n.val) := by rw [entry, hn, Option.map_some]
  have hkey : n.key = k := by
    rw [hentries.1, Option.some.injEq, Prod.mk.injEq] at hnkey
    exact hnkey.1.symm
  have hnext : c.next p = n.next := by rw [next, hn, Option.bind_some]
  have hprev : c.prev p = n.prev := by rw [prev, hn, Option.bind_some]
  refine ⟨{ c with nodes := c.nodes.insert p { n with val := val } }, ?_, ?_, ?_, fun k' q => ?_,
    h.size, h.capacity⟩
  · rw [LruNodes.setVal, hn]
    rfl
  · rw [next_insert, prev_insert, ← hnext, ← hprev, Function.update_eq_self, Function.update_eq_self]
    exact h.linked
  · rw [entry_insert, List.map_cons, Function.update_self, hkey, LruCache.entries_touch,
      List.map_cons, ← hentries.2]
    congr 1
    exact List.map_congr_left fun q hq => Function.update_of_ne (ne_of_mem_of_not_mem hq hp) _ _
  · refine (h.map k' q).trans (and_congr_right fun _ => ?_)
    unfold key
    rw [entry_insert, Function.update_apply]
    split_ifs with hq
    · rw [hq, hnkey]
      rfl
    · rfl

/-- With an absent key for a new node `map` leads to that node too. -/
lemma Repr.map_insert {node : Ptr} (h : c.Repr l r) (hk : k ∉ c.map) (hnode : node ∉ l) (k' : K)
    (q : Ptr) : (c.map.insert k node).lookup k' = some q ↔
      q ∈ node :: l ∧ (if q = node then some k else c.key q) = some k' := by
  rw [lookup_insert_ite, List.mem_cons]
  by_cases hq : q = node
  · subst hq
    have hno : c.map.lookup k' ≠ some q := fun hl => hnode ((h.map k' q).mp hl).1
    by_cases hk' : k' = k
    · simp [hk']
    · simp [hk', Ne.symm hk', hno]
  · by_cases hk' : k' = k
    · subst hk'
      have hno : ¬ (q ∈ l ∧ c.key q = some k') := fun hl =>
        hk (Finmap.mem_of_lookup_eq_some ((h.map k' q).mpr hl))
      simp [hq, Ne.symm hq, hno]
    · simp [hq, hk', h.map k' q]

/-- A new node for an absent key. -/
lemma Repr.insert (alloc : Allocator) (h : c.Repr l r) (hk : k ∉ c.map) (val : V) :
    ∃ c', add2head { c with
        nodes := c.nodes.insert (alloc.1 c.nodes.keys) ⟨none, none, k, val⟩
        map := c.map.insert k (alloc.1 c.nodes.keys) } (alloc.1 c.nodes.keys) = some c' ∧
      Repr { c' with size := c'.size + 1 } (alloc.1 c.nodes.keys :: l) (r.touch k val) := by
  have hfresh : alloc.1 c.nodes.keys ∉ c.nodes := fun hmem =>
    alloc.2 _ (Finmap.mem_keys.mpr hmem)
  generalize alloc.1 c.nodes.keys = node at hfresh ⊢
  have hother : ∀ p ∈ c.head :: (l ++ [c.tail]), p ≠ node :=
    fun p hp => ne_of_mem_of_not_mem (h.alive p hp) hfresh
  have hnot : node ∉ c.head :: (l ++ [c.tail]) := fun hmem => hother node hmem rfl
  have hlinked : Linked (next { c with nodes := c.nodes.insert node ⟨none, none, k, val⟩ })
      (prev { c with nodes := c.nodes.insert node ⟨none, none, k, val⟩ })
      (c.head :: (l ++ [c.tail])) := by
    rw [next_insert, prev_insert]
    exact h.linked.congr (fun p hp => Function.update_of_ne (hother p hp) _ _)
      (fun p hp => Function.update_of_ne (hother p hp) _ _)
  obtain ⟨c', hc', s⟩ := add2head_spliced (c := { c with
      nodes := c.nodes.insert node ⟨none, none, k, val⟩
      map := c.map.insert k node })
    (by simp) (Finmap.mem_insert.mpr (.inl rfl)) hnot hlinked
  have hentry : c'.entry = Function.update c.entry node (some (k, val)) :=
    s.entry.trans entry_insert
  have hl : ∀ p ∈ l, c'.entry p = c.entry p := fun p hp => by
    rw [hentry, Function.update_of_ne (hother p (by simp [hp]))]
  refine ⟨c', hc', ?_, ?_, fun k' q => ?_, ?_, ?_⟩
  · have hlinked' := s.linked
    have hhead : c'.head = c.head := by rw [s.frame]
    have htail : c'.tail = c.tail := by rw [s.frame]
    rw [← hhead, ← htail] at hlinked'
    exact hlinked'
  · have hself : c'.entry node = some (k, val) := by rw [hentry, Function.update_self]
    have hkeys : k ∉ r.keys := fun hmem => hk (h.mem_map.mpr hmem)
    rw [LruCache.entries_touch, LruCache.others_of_not_mem hkeys, List.map_cons, List.map_cons,
      ← h.entries]
    exact congrArg₂ _ hself (List.map_congr_left hl)
  · have hmap : c'.map = c.map.insert k node := by rw [s.frame]
    have hkey : c'.key q = if q = node then some k else c.key q := by
      rw [key, hentry, Function.update_apply]
      split_ifs <;> rfl
    change c'.map.lookup k' = some q ↔ q ∈ node :: l ∧ c'.key q = some k'
    rw [hmap, hkey]
    exact h.map_insert hk (fun hmem => hother node (by simp [hmem]) rfl) k' q
  · have hsize : c'.size = c.size := by rw [s.frame]
    have hold := h.size
    simp only [hsize, List.length_cons]
    omega
  · have hcap : c'.capacity = c.capacity := by rw [s.frame]
    exact hcap.trans h.capacity

/-- Without the key of the last node `map` leads to the nodes before it. -/
lemma Repr.map_erase {gone : Ptr} (h : c.Repr (l ++ [gone]) r) (hk : c.key gone = some k) (k' : K)
    (q : Ptr) : (c.map.erase k).lookup k' = some q ↔ q ∈ l ∧ c.key q = some k' := by
  have hgone : c.map.lookup k = some gone := (h.map k gone).mpr ⟨by simp, hk⟩
  have hnot : gone ∉ l := by
    have hnodup := (List.nodup_cons.mp h.linked.nodup).2
    rw [List.append_assoc, List.singleton_append, List.nodup_middle, List.nodup_cons] at hnodup
    exact fun hmem => hnodup.1 (List.mem_append_left _ hmem)
  rw [lookup_erase_ite]
  constructor
  · intro hl
    split_ifs at hl with hkk
    obtain ⟨hmem, hkey⟩ := (h.map k' q).mp hl
    refine ⟨(List.mem_append.mp hmem).resolve_right fun hq => hkk ?_, hkey⟩
    rw [List.mem_singleton.mp hq, hk] at hkey
    exact (Option.some.inj hkey).symm
  · rintro ⟨hmem, hkey⟩
    have hl := (h.map k' q).mpr ⟨List.mem_append_left _ hmem, hkey⟩
    rw [if_neg, hl]
    rintro rfl
    rw [hgone, Option.some.injEq] at hl
    exact hnot (hl ▸ hmem)

/-- The node before the second dummy goes, and the last entry with it. -/
lemma Repr.evict (h : c.Repr l r) (hne : r.entries ≠ []) : ∃ gone c₁ n l',
    c.removeTail = some (gone, c₁) ∧ c₁.nodes.lookup gone = some n ∧
      n.key = (r.entries.getLast hne).1 ∧
      Repr { c₁ with
        map := c₁.map.erase n.key
        nodes := c₁.nodes.erase gone
        size := c₁.size - 1 } l' r.removeTail := by
  have hlen : l.length = r.entries.length := by simpa using congrArg List.length h.entries
  obtain ⟨l', gone, rfl⟩ := (List.eq_nil_or_concat' l).resolve_left (by
    rintro rfl
    exact hne (List.length_eq_zero_iff.mp hlen.symm))
  have hentries := h.entries
  rw [← List.dropLast_append_getLast hne, List.map_append, List.map_append, List.map_singleton,
    List.map_singleton] at hentries
  obtain ⟨hinit, hgone⟩ := List.append_inj' hentries rfl
  rw [List.cons.injEq] at hgone
  have hlinked : Linked c.next c.prev ((c.head :: l') ++ gone :: [c.tail]) := by
    simpa using h.linked
  obtain ⟨c₁, h₁, s₁⟩ := remove_spliced (by simp) (by simp) hlinked
  have hhead : c₁.head = c.head := by rw [s₁.frame]
  have htail : c₁.tail = c.tail := by rw [s₁.frame]
  -- the node that `tail->prev` leads to
  have hprev : c.prev c.tail = some gone :=
    (List.isChain_append_cons_cons.mp hlinked.chain).2.1.2
  obtain ⟨t, ht, htprev⟩ := Option.bind_eq_some_iff.mp hprev
  have hentry : c₁.entry gone = some (r.entries.getLast hne) := by rw [s₁.entry, hgone.1]
  obtain ⟨n, hn, hnv⟩ := Option.map_eq_some_iff.mp hentry
  have hkey : n.key = (r.entries.getLast hne).1 := by rw [← hnv]
  have hgonekey : c.key gone = some n.key := by
    rw [key, hgone.1, hkey]
    rfl
  have hother : ∀ p ∈ c.head :: l' ++ [c.tail], p ≠ gone := by
    have hnodup := hlinked.nodup
    rw [List.nodup_middle, List.nodup_cons] at hnodup
    exact fun p hp => ne_of_mem_of_not_mem hp hnodup.1
  have hframe : ∀ p ∈ c.head :: l' ++ [c.tail],
      (c₁.nodes.erase gone).lookup p = c₁.nodes.lookup p :=
    fun p hp => Finmap.lookup_erase_ne (hother p hp)
  refine ⟨gone, c₁, n, l', ?_, hn, hkey, ?_, ?_, fun k' q => ?_, ?_, ?_⟩
  · simp only [LruNodes.removeTail, ht, Option.bind_eq_bind, Option.bind_some, htprev, h₁,
      Option.pure_def]
  · have hlinked₁ := s₁.linked
    rw [← hhead, ← htail] at hlinked₁ hframe
    refine hlinked₁.congr (fun p hp => ?_) fun p hp => ?_
    · exact congrArg (Option.bind · DNode.next) (hframe p hp)
    · exact congrArg (Option.bind · DNode.prev) (hframe p hp)
  · rw [LruCache.removeTail, ← hinit, ← s₁.entry]
    refine List.map_congr_left fun p hp => ?_
    exact congrArg (Option.map fun n : DNode K V => (n.key, n.val)) (hframe p (by simp [hp]))
  · have hmap : c₁.map = c.map := by rw [s₁.frame]
    dsimp only
    rw [hmap, h.map_erase hgonekey]
    refine and_congr_right fun hq => ?_
    have hkeyq : key { c₁ with nodes := c₁.nodes.erase gone } q = c.key q := by
      rw [key, entry, hframe q (by simp [hq]), key, ← s₁.entry]
      rfl
    exact (congrArg (· = some k') hkeyq).symm ▸ Iff.rfl
  · have hsize : c₁.size = c.size := by rw [s₁.frame]
    have hold := h.size
    rw [List.length_append, List.length_singleton] at hold
    dsimp only
    omega
  · have hcap : c₁.capacity = c.capacity := by rw [s₁.frame]
    exact hcap.trans h.capacity

/-- `put`. -/
theorem Repr.put [Inhabited K] (h : c.Repr l r) (alloc : Allocator) (k : K) (val : V) :
    ∃ c' l', c.put alloc k val = some ((r.put k val).1, c') ∧ c'.Repr l' (r.put k val).2 := by
  unfold LruNodes.put LruCache.put
  have hcheck := h.check k
  unfold LruNodes.check at hcheck
  by_cases hk : k ∈ c.map
  · obtain ⟨p, hp⟩ := Finmap.mem_iff.mp hk
    obtain ⟨c₁, l', v, h₁, hrepr₁, hpl, -⟩ := h.touch hp
    obtain ⟨c₂, h₂, hrepr₂⟩ := hrepr₁.setVal hpl val
    have hyes : r.check k = true := by rw [← hcheck, decide_eq_true hk]
    refine ⟨c₂, p :: l', ?_, by rw [if_pos hyes]; exact hrepr₂⟩
    simp only [if_pos hk, hp, Option.bind_eq_bind, Option.bind_some, h₁, h₂, if_pos hyes,
      Option.pure_def]
  · obtain ⟨c₁, h₁, hrepr₁⟩ := h.insert alloc hk val
    have hno : ¬ r.check k = true := by rw [← hcheck, decide_eq_false hk]; decide
    have hfull : c₁.size + 1 > c₁.capacity ↔
        ((r.touch k val).entries.length : ℤ) > r.capacity := by
      have hsize := hrepr₁.size
      have hcap := hrepr₁.capacity
      have hlen := congrArg List.length hrepr₁.entries
      rw [List.length_map, List.length_map] at hlen
      dsimp only at hsize hcap
      rw [hsize, hcap, hlen]
      rfl
    rw [if_neg hk, if_neg hno]
    dsimp only
    rw [h₁, Option.bind_eq_bind, Option.bind_some]
    by_cases hover : c₁.size + 1 > c₁.capacity
    · obtain ⟨gone, c₂, n, l', h₂, hn, hkey, hrepr₂⟩ :=
        hrepr₁.evict (by simp [LruCache.entries_touch])
      refine ⟨_, l', ?_, by rw [if_pos (hfull.mp hover)]; exact hrepr₂⟩
      simp only [if_pos hover, if_pos (hfull.mp hover), Option.bind_eq_bind, h₂, Option.bind_some,
        hn, hkey, Option.pure_def]
    · refine ⟨_, _, ?_, by rw [if_neg (fun hc => hover (hfull.mpr hc))]; exact hrepr₁⟩
      simp only [if_neg hover, if_neg (fun hc => hover (hfull.mpr hc)), Option.pure_def]

/-! ### Calls, one after the other -/

variable [Inhabited K] [Inhabited V]

/-- A call answers what it answers on the entries. -/
lemma Repr.call (h : c.Repr l r) (alloc : Allocator) (call : LruCall K V) :
    ∃ c' l', c.call alloc call = some ((r.call call).1, c') ∧ c'.Repr l' (r.call call).2 := by
  cases call with
  | put key val =>
    obtain ⟨c', l', hput, hrepr⟩ := h.put alloc key val
    exact ⟨c', l', by rw [LruNodes.call, hput]; rfl, hrepr⟩
  | get key =>
    obtain ⟨c', l', hget, hrepr⟩ := h.get key
    exact ⟨c', l', by rw [LruNodes.call, hget]; rfl, hrepr⟩
  | check key => exact ⟨c, l, by rw [LruNodes.call, h.check]; rfl, h⟩
  | allKey => exact ⟨c, l, by rw [LruNodes.call, h.allKey]; rfl, h⟩

lemma Repr.run (h : c.Repr l r) (alloc : Allocator) (calls : List (LruCall K V)) :
    ∃ c' l', c.run alloc calls = some ((r.run calls).1, c') ∧ c'.Repr l' (r.run calls).2 := by
  induction calls generalizing c l r with
  | nil => exact ⟨c, l, rfl, h⟩
  | cons call calls ih =>
    obtain ⟨c₁, l₁, hcall, h₁⟩ := h.call alloc call
    obtain ⟨c₂, l₂, hrun, h₂⟩ := ih h₁
    refine ⟨c₂, l₂, ?_, h₂⟩
    rw [LruNodes.run, hcall, Option.bind_eq_bind, Option.bind_some]
    dsimp only
    rw [hrun]
    rfl

end Operations

end LruNodes

section Calls

variable {K V : Type} [DecidableEq K] [Inhabited K] [Inhabited V]

lemma LruCache.Bounded.call {r : LruCache K V} (h : r.Bounded) (call : LruCall K V) :
    (r.call call).2.Bounded ∧ (r.call call).2.capacity = r.capacity := by
  cases call with
  | put key val => exact ⟨h.put, LruCache.capacity_put⟩
  | get key => exact ⟨h.get, LruCache.capacity_get⟩
  | check key => exact ⟨h, rfl⟩
  | allKey => exact ⟨h, rfl⟩

lemma LruCache.Bounded.run {r : LruCache K V} (h : r.Bounded) (calls : List (LruCall K V)) :
    (r.run calls).2.Bounded ∧ (r.run calls).2.capacity = r.capacity := by
  induction calls generalizing r with
  | nil => exact ⟨h, rfl⟩
  | cons call calls ih =>
    obtain ⟨hcall, hcap⟩ := h.call call
    obtain ⟨hrun, hcap'⟩ := ih hcall
    exact ⟨hrun, hcap'.trans hcap⟩

/-- Whatever is called on a new cache, the pointers it follows are there and the answers are those of
the list of entries.  Afterwards its nodes are linked both ways and hold the entries in order, their keys
differ, `map` leads from these to the nodes, and `size` counts them and is within the capacity. -/
theorem lruNodes_refines_lruCache (alloc : Allocator) (capacity : ℤ) (calls : List (LruCall K V)) :
    ∃ (c : LruNodes K V) (l : List Ptr),
      (LruNodes.new alloc capacity).run alloc calls =
        some (((LruCache.new capacity).run calls).1, c) ∧
      Walk c.next c.head l c.tail ∧ Walk c.prev c.tail l.reverse c.head ∧
      (c.head :: (l ++ [c.tail])).Nodup ∧
      l.map c.entry = ((LruCache.new capacity).run calls).2.entries.map some ∧
      (l.map c.key).Nodup ∧ (∀ k p, c.map.lookup k = some p ↔ p ∈ l ∧ c.key p = some k) ∧
      c.size = l.length ∧ c.size ≤ max capacity 0 := by
  obtain ⟨c, l, hrun, hrepr⟩ := (LruNodes.repr_new alloc capacity).run alloc calls
  have hempty : (LruCache.new capacity : LruCache K V).Bounded := le_max_right _ _
  obtain ⟨hbound, hcap⟩ := hempty.run calls
  refine ⟨c, l, hrun, hrepr.linked.walk_next, hrepr.linked.walk_prev, hrepr.linked.nodup,
    hrepr.entries, ?_, hrepr.map, hrepr.size, ?_⟩
  · rw [hrepr.keys]
    exact ((LruCache.new capacity).run calls).2.nodup.map (Option.some_injective K)
  · have hlen : l.length = ((LruCache.new capacity).run calls).2.entries.length := by
      simpa using congrArg List.length hrepr.entries
    unfold LruCache.Bounded at hbound
    rw [hcap] at hbound
    rw [hrepr.size, hlen]
    exact hbound

end Calls

end DistCache
