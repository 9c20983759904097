import Mathlib.Data.Int.Order.Basic
import Mathlib.Order.Basic
import Mathlib.Tactic.SplitIfs
import Mathlib.Tactic.IntervalCases
import DistCache.Lib.Clockwise
import DistCache.Lib.MapLoop
import DistCache.Text

/-!
`ConsistentHash`, the ring that the master and a dying cache both compute: the 32-bit hash, the
labels of the virtual nodes, and the three functions that edit and search `key2Index`.

Two invariants of a ring are stated.  `Labelled` is what every history keeps, collisions of
labels included: a point belongs to a shard that is in play and is the point of one of its
labels.  `Complete` is the ring without collisions: every label of every shard in play is there,
under its own shard.
-/

namespace DistCache

open Lib

/-- The points of the ring in the order of `std::map<uint32_t, size_t>`. -/
instance linearOrderPoint : LinearOrder UInt32 := LinearOrder.lift' UInt32.toNat fun _ _ => UInt32.toNat_inj.mp

/-! ### The hash -/

/-- A `char` as the `int` it is promoted to, converted to `uint32_t`: the sign is extended. -/
def signExtend (c : UInt8) : UInt32 := if c < 128 then c.toUInt32 else 0xFFFFFF00 ||| c.toUInt32

/-- One turn of the loop of `murmur3_32`. -/
def murmurStep (hash : UInt32) (c : UInt8) : UInt32 := (hash ^^^ signExtend c) * 16777619

/-- What `murmur3_32` does after its loop.  Its last test, `hash < 0`, is on an unsigned number. -/
def murmurFinish (hash : UInt32) : UInt32 :=
  let hash := hash + (hash <<< 13)
  let hash := hash ^^^ (hash >>> 7)
  let hash := hash + (hash <<< 3)
  let hash := hash ^^^ (hash >>> 17)
  hash + (hash <<< 5)

/-- `ConsistentHash::murmur3_32`. -/
def murmur3_32 (s : Str) : UInt32 := murmurFinish (s.foldl murmurStep 2166136261)

/-- The label `SHARD-iNODE-j` of a virtual node. -/
def label (i : ℤ) (j : ℕ) : Str := lit "SHARD-" ++ decInt i ++ lit "NODE-" ++ dec j

/-- The point of a virtual node. -/
def point (i : ℤ) (j : ℕ) : UInt32 := murmur3_32 (label i j)

/-! ### The ring -/

/-- `ConsistentHash`. -/
structure ConsistentHash where
  /-- `key2Index`: the shard of each point. -/
  key2Index : Map UInt32 ℕ
  /-- `nodes`: the number of shards in play. -/
  nodes : ℤ
  /-- `v_nodes`: the number of labels of a shard. -/
  vNodes : ℕ

namespace ConsistentHash

/-- `initialize`, on the empty map of a new object. -/
def initializeRing (nodes vNodes : ℕ) : ConsistentHash where
  key2Index := (List.range nodes).foldl
    (fun m (i : ℕ) => (List.range vNodes).foldl (fun m j => insertNew m (point i j) i) m) ∅
  nodes := nodes
  vNodes := vNodes

/-- `GetServer`: the first point clockwise from the hash of the key.  On an empty map it reads
`begin()->first`, which is no element: `none`.  (The point it prints on the way has no part in
the result.) -/
def getServer (c : ConsistentHash) (key : Str) : Option UInt32 :=
  clockwise c.key2Index.keys (murmur3_32 key)

/-- `deleteNode`: the points of the labels of the last shard are erased, whoever owns them, and
those of the shards from `index` on are written again. -/
def deleteNode (c : ConsistentHash) (index : ℕ) : ConsistentHash :=
  let erased := (List.range c.vNodes).foldl (fun m i => m.erase (point (c.nodes - 1) i)) c.key2Index
  let nodes := c.nodes - 1
  { c with
    key2Index := writeRows (fun i j => point (i : ℕ) j) (fun i => i)
      (List.range' index (nodes - index).toNat) (List.range c.vNodes) erased
    nodes := nodes }

/-- `addNode`: the labels of shard `index` are inserted where no point is yet. -/
def addNode (c : ConsistentHash) (index : ℕ) : ConsistentHash :=
  { c with
    key2Index := (List.range c.vNodes).foldl
      (fun m i => insertNew m (point index i) index) c.key2Index
    nodes := c.nodes + 1 }

variable {c : ConsistentHash} {index v : ℕ} {p : UInt32} {key : Str}

@[simp] lemma nodes_deleteNode : (c.deleteNode index).nodes = c.nodes - 1 := rfl
@[simp] lemma vNodes_deleteNode : (c.deleteNode index).vNodes = c.vNodes := rfl
@[simp] lemma nodes_addNode : (c.addNode index).nodes = c.nodes + 1 := rfl
@[simp] lemma vNodes_addNode : (c.addNode index).vNodes = c.vNodes := rfl

/-- The points of shard `i`. -/
def IsPoint (c : ConsistentHash) (i : ℤ) (p : UInt32) : Prop := ∃ j < c.vNodes, point i j = p

lemma lookup_addNode : (c.addNode index).key2Index.lookup p =
    (c.key2Index.lookup p).or (if ∃ j < c.vNodes, point index j = p then some index else none) := by
  simp only [addNode, lookup_insertNew_loop, List.mem_range]

/-- The two ways a point gets its shard in `deleteNode`: it is a label of a shard that is written
again, or no label of such a shard nor of the last one, and keeps its shard. -/
lemma lookup_deleteNode (c : ConsistentHash) (index : ℕ) (p : UInt32) :
    (∃ i : ℕ, index ≤ i ∧ (i : ℤ) < c.nodes - 1 ∧ c.IsPoint i p ∧
      (c.deleteNode index).key2Index.lookup p = some i) ∨
    (∀ i : ℕ, index ≤ i → (i : ℤ) < c.nodes - 1 → ¬ c.IsPoint i p) ∧
      (c.deleteNode index).key2Index.lookup p =
        if ∃ j < c.vNodes, point (c.nodes - 1) j = p then none else c.key2Index.lookup p := by
  have herase := lookup_erase_loop (a := p) (fun i => point (c.nodes - 1) i)
    (List.range c.vNodes) c.key2Index
  simp only [List.mem_range] at herase
  have hrows := lookup_writeRows (a := p) (fun (i : ℕ) j => point i j) (fun i => i)
    (List.range' index (c.nodes - 1 - index).toNat) (List.range c.vNodes)
    ((List.range c.vNodes).foldl (fun m i => m.erase (point (c.nodes - 1) i)) c.key2Index)
  simp only [List.mem_range'_1, List.mem_range] at hrows
  rw [herase] at hrows
  rcases hrows with ⟨i, ⟨hle, hlt⟩, hp, hl⟩ | ⟨hn, hl⟩
  · exact .inl ⟨i, hle, by omega, hp, hl⟩
  · refine .inr ⟨fun i hle hlt ⟨j, hj, hp⟩ => hn i ⟨hle, by omega⟩ j hj hp, hl⟩

/-! ### Every point is a label of the shard it belongs to -/

/-- Every point belongs to a shard in play, and is the point of one of its labels. -/
def Labelled (c : ConsistentHash) : Prop :=
  ∀ p v, c.key2Index.lookup p = some v → (v : ℤ) < c.nodes ∧ c.IsPoint v p

lemma labelled_initializeRing (vNodes : ℕ) : (initializeRing 0 vNodes).Labelled := by
  intro p v h
  simp [initializeRing] at h

/-- A shard that joins is the next one. -/
theorem Labelled.addNode (hc : c.Labelled) (hi : (index : ℤ) = c.nodes) :
    (c.addNode index).Labelled := by
  intro p v hv
  rw [lookup_addNode, Option.or_eq_some_iff] at hv
  rcases hv with hv | ⟨-, hv⟩
  · obtain ⟨hlt, hp⟩ := hc p v hv
    exact ⟨by rw [nodes_addNode]; omega, hp⟩
  · split_ifs at hv with hp
    cases hv
    exact ⟨by rw [nodes_addNode]; omega, hp⟩

/-- Whatever the index, no point of the last shard is left: a point that belongs to it is one of
its labels, and these are erased or given to another shard. -/
theorem Labelled.deleteNode (hc : c.Labelled) (index : ℕ) : (c.deleteNode index).Labelled := by
  intro p v hv
  rw [nodes_deleteNode]
  rcases c.lookup_deleteNode index p with ⟨i, -, hlt, hp, hl⟩ | ⟨-, hl⟩
  · rw [hl] at hv
    cases hv
    exact ⟨hlt, hp⟩
  · rw [hl] at hv
    split_ifs at hv with hlast
    obtain ⟨hlt, hp⟩ := hc p v hv
    refine ⟨?_, hp⟩
    by_contra hge
    have hv' : (v : ℤ) = c.nodes - 1 := by omega
    exact hlast (hv' ▸ hp)

/-- On a ring that is not empty the search ends at a point that belongs to a shard in play. -/
theorem Labelled.getServer (hc : c.Labelled) (hne : c.key2Index.keys.Nonempty) (key : Str) :
    ∃ p v, c.getServer key = some p ∧ c.key2Index.lookup p = some v ∧ (v : ℤ) < c.nodes := by
  obtain ⟨p, hp⟩ := exists_clockwise hne (murmur3_32 key)
  obtain ⟨v, hv⟩ := Finmap.mem_iff.mp (Finmap.mem_keys.mp (clockwise_mem hp))
  exact ⟨p, v, hp, hv, (hc p v hv).1⟩

/-! ### Rings without collisions -/

/-- Every label of every shard in play is on the ring under its own shard. -/
def Complete (c : ConsistentHash) : Prop :=
  ∀ (i : ℕ) (p : UInt32), (i : ℤ) < c.nodes → c.IsPoint i p → c.key2Index.lookup p = some i

/-- Without collisions `deleteNode` takes away the points of the last shard and no others, whatever
the index. -/
theorem lookup_deleteNode_of_complete (hc : c.Labelled) (hfull : c.Complete) :
    (c.deleteNode index).key2Index.lookup p =
      (c.key2Index.lookup p).filter fun v : ℕ => decide ((v : ℤ) ≠ c.nodes - 1) := by
  rcases c.lookup_deleteNode index p with ⟨i, -, hlt, hp, hl⟩ | ⟨-, hl⟩
  · have hne : (i : ℤ) ≠ c.nodes - 1 := by omega
    rw [hl, hfull i p (by omega) hp]
    simp [Option.filter, hne]
  · rw [hl]
    split_ifs with hlast
    · rcases lt_or_ge (c.nodes - 1) 0 with hneg | hpos
      · -- no shard is in play, so there is no point
        have hnone : c.key2Index.lookup p = none := by
          rw [Option.eq_none_iff_forall_ne_some]
          intro v hv
          have := (hc p v hv).1
          omega
        rw [hnone]
        rfl
      · obtain ⟨n, hn⟩ := Int.eq_ofNat_of_zero_le hpos
        rw [hn] at hlast ⊢
        rw [hfull n p (by omega) hlast]
        simp [Option.filter]
    · cases hv : c.key2Index.lookup p with
      | none => rfl
      | some v =>
        have hne : (v : ℤ) ≠ c.nodes - 1 := fun h => hlast (h ▸ (hc p v hv).2)
        simp [Option.filter, hne]

/-! ### The owner of a key -/

/-- The shard a key belongs to: the one of the point that `GetServer` finds. -/
def owner (c : ConsistentHash) (key : Str) : Option ℕ :=
  (c.getServer key).bind fun p => c.key2Index.lookup p

/-- The points that do not belong to the last shard. -/
def kept (c : ConsistentHash) : Finset UInt32 :=
  c.key2Index.keys.filter fun p => ∀ v ∈ c.key2Index.lookup p, (v : ℤ) ≠ c.nodes - 1

/-- The shard of the first point clockwise from the key that is not one of the last shard. -/
def nextOwner (c : ConsistentHash) (key : Str) : Option ℕ :=
  (clockwise c.kept (murmur3_32 key)).bind fun p => c.key2Index.lookup p

lemma mem_kept : p ∈ c.kept ↔ ∃ v : ℕ, c.key2Index.lookup p = some v ∧ (v : ℤ) ≠ c.nodes - 1 := by
  unfold kept
  rw [Finset.mem_filter, Finmap.mem_keys, Finmap.mem_iff]
  constructor
  · rintro ⟨⟨v, hv⟩, hne⟩
    exact ⟨v, hv, hne v hv⟩
  · rintro ⟨v, hv, hne⟩
    refine ⟨⟨v, hv⟩, fun v' hv' => ?_⟩
    rw [hv] at hv'
    cases hv'
    exact hne

/-- A key whose hash is a point belongs to the shard of that point. -/
lemma owner_of_lookup (h : c.key2Index.lookup (murmur3_32 key) = some v) : c.owner key = some v := by
  have hmem : murmur3_32 key ∈ c.key2Index.keys :=
    Finmap.mem_keys.mpr (Finmap.mem_iff.mpr ⟨v, h⟩)
  rw [owner, getServer, clockwise_self hmem, Option.bind_some, h]

/-- A ring with one shard in play gives it every key. -/
lemma Labelled.owner_eq_zero (hc : c.Labelled) (hnodes : c.nodes = 1)
    (hp : c.key2Index.lookup p = some v) : c.owner key = some 0 := by
  have hne : c.key2Index.keys.Nonempty := ⟨p, Finmap.mem_keys.mpr (Finmap.mem_iff.mpr ⟨v, hp⟩)⟩
  obtain ⟨q, i, hq, hi, hlt⟩ := hc.getServer hne key
  have hzero : i = 0 := by omega
  rw [owner, hq, Option.bind_some, hi, hzero]

/-- A key of another shard than the last one is not affected by its points. -/
lemma nextOwner_of_owner (h : c.owner key = some v) (hv : (v : ℤ) ≠ c.nodes - 1) :
    c.nextOwner key = some v := by
  obtain ⟨p, hp, hpv⟩ := Option.bind_eq_some_iff.mp h
  have hkept : clockwise c.kept (murmur3_32 key) = some p :=
    clockwise_of_subset (Finset.filter_subset _ _) hp (mem_kept.mpr ⟨v, hpv, hv⟩)
  rw [nextOwner, hkept, Option.bind_some, hpv]

/-- **The owners after a removal.**  Without collisions `deleteNode` moves the keys of the last shard
to the shards that follow clockwise, and no other keys, whatever the index. -/
theorem owner_deleteNode (hc : c.Labelled) (hfull : c.Complete) :
    (c.deleteNode index).owner key = c.nextOwner key := by
  have hlookup : ∀ q ∈ c.kept, (c.deleteNode index).key2Index.lookup q = c.key2Index.lookup q := by
    intro q hq
    obtain ⟨v, hv, hne⟩ := mem_kept.mp hq
    rw [lookup_deleteNode_of_complete hc hfull, hv]
    simp [Option.filter, hne]
  have hkeys : (c.deleteNode index).key2Index.keys = c.kept := by
    ext q
    rw [Finmap.mem_keys, Finmap.mem_iff]
    constructor
    · rintro ⟨v, hv⟩
      rw [lookup_deleteNode_of_complete hc hfull, Option.filter_eq_some_iff] at hv
      exact mem_kept.mpr ⟨v, hv.1, by simpa using hv.2⟩
    · intro hq
      obtain ⟨v, hv, -⟩ := mem_kept.mp hq
      exact ⟨v, (hlookup q hq).trans hv⟩
  unfold owner getServer nextOwner
  rw [hkeys]
  refine Option.bind_congr fun q hq => hlookup q (clockwise_mem hq)

/-- On a ring that is not empty every key has an owner. -/
lemma exists_owner (hne : c.key2Index.keys.Nonempty) (key : Str) : ∃ i, c.owner key = some i := by
  obtain ⟨p, hp⟩ := exists_clockwise hne (murmur3_32 key)
  obtain ⟨i, hi⟩ := Finmap.mem_iff.mp (Finmap.mem_keys.mp (clockwise_mem hp))
  exact ⟨i, by rw [owner, getServer, hp, Option.bind_some, hi]⟩

/-- **The owners after an arrival.**  An insert that is refused leaves the point to its shard.  So the
first point clockwise from the key is an old one, and then it was the first one before, or it is one of
the shard that joins. -/
theorem owner_addNode (c : ConsistentHash) (index : ℕ) (key : Str) :
    (c.addNode index).owner key = c.owner key ∨ (c.addNode index).owner key = some index := by
  have hsub : c.key2Index.keys ⊆ (c.addNode index).key2Index.keys := by
    intro p hp
    obtain ⟨v, hv⟩ := Finmap.mem_iff.mp (Finmap.mem_keys.mp hp)
    refine Finmap.mem_keys.mpr (Finmap.mem_iff.mpr ⟨v, ?_⟩)
    rw [lookup_addNode, hv, Option.some_or]
  cases hfirst : (c.addNode index).getServer key with
  | none =>
    have hempty : c.key2Index.keys = ∅ := by
      rw [← Finset.subset_empty, ← clockwise_eq_none_iff.mp hfirst]
      exact hsub
    have hnone : c.getServer key = none := clockwise_eq_none_iff.mpr hempty
    left
    rw [owner, owner, hfirst, hnone]
    rfl
  | some p =>
    have howner : (c.addNode index).owner key = (c.addNode index).key2Index.lookup p := by
      rw [owner, hfirst, Option.bind_some]
    rw [howner, lookup_addNode]
    by_cases hp : p ∈ c.key2Index.keys
    · have hold : c.getServer key = some p := clockwise_of_subset hsub hfirst hp
      obtain ⟨v, hv⟩ := Finmap.mem_iff.mp (Finmap.mem_keys.mp hp)
      left
      rw [owner, hold, Option.bind_some, hv, Option.some_or]
    · have hnone : c.key2Index.lookup p = none :=
        Finmap.lookup_eq_none.mpr fun hmem => hp (Finmap.mem_keys.mpr hmem)
      -- the point is on the ring now, so it has been inserted
      obtain ⟨v, hv⟩ := Finmap.mem_iff.mp (Finmap.mem_keys.mp (clockwise_mem hfirst))
      rw [lookup_addNode, hnone, Option.none_or] at hv
      split_ifs at hv with hpoint
      right
      rw [hnone, Option.none_or, if_pos hpoint]

/-! ### Points with one label -/

/-- Among the labels of the first `N` shards, `p` is one of shard `i` and of no other. -/
def OnlyLabel (vNodes N i : ℕ) (p : UInt32) : Prop :=
  (∃ j < vNodes, point i j = p) ∧ ∀ i' < N, ∀ j < vNodes, point (i' : ℕ) j = p → i' = i

/-- The point `p` belongs to shard `i` as soon as that shard is in play. -/
def Owned (c : ConsistentHash) (i : ℕ) (p : UInt32) : Prop :=
  (i : ℤ) < c.nodes → c.key2Index.lookup p = some i

variable {N i : ℕ}

lemma Owned.addNode (ho : c.Owned i p) (hc : c.Labelled) (honly : OnlyLabel c.vNodes N i p)
    (hN : c.nodes < N) (hi : (index : ℤ) = c.nodes) : (c.addNode index).Owned i p := by
  intro hlt
  rw [nodes_addNode] at hlt
  rw [lookup_addNode]
  by_cases hin : (i : ℤ) < c.nodes
  · rw [ho hin, Option.some_or]
  · -- `i` is the shard that joins, and no shard before it has this label
    have hidx : index = i := by omega
    have hnone : c.key2Index.lookup p = none := by
      rw [Option.eq_none_iff_forall_ne_some]
      intro v hv
      obtain ⟨hvlt, j, hj, hp⟩ := hc p v hv
      have := honly.2 v (by omega) j hj hp
      omega
    rw [hnone, Option.none_or, hidx, if_pos honly.1]

lemma Owned.deleteNode (ho : c.Owned i p) (honly : OnlyLabel c.vNodes N i p) (hN : c.nodes ≤ N) :
    (c.deleteNode index).Owned i p := by
  intro hlt
  rw [nodes_deleteNode] at hlt
  rcases c.lookup_deleteNode index p with ⟨i', -, hlt', ⟨j, hj, hp⟩, hl⟩ | ⟨-, hl⟩
  · rw [hl, honly.2 i' (by omega) j hj hp]
  · rw [hl]
    split_ifs with hlast
    · obtain ⟨n, hn⟩ := Int.eq_ofNat_of_zero_le (show 0 ≤ c.nodes - 1 by omega)
      obtain ⟨j, hj, hp⟩ := hlast
      rw [hn] at hp
      have := honly.2 n (by omega) j hj hp
      omega
    · exact ho (by omega)

/-- A key that is itself the label of a virtual node of the second shard. -/
def labelKey : Str := lit "SHARD-1NODE-0"

lemma onlyLabel_labelKey : OnlyLabel 100 3 1 (murmur3_32 labelKey) := by
  refine ⟨⟨0, by decide, by decide +kernel⟩, ?_⟩
  have hother : ∀ i' < 3, i' ≠ 1 → ∀ j < 100, point (i' : ℕ) j ≠ murmur3_32 labelKey := by
    decide +kernel
  intro i' hi' j hj hp
  by_contra hne
  exact hother i' hi' hne j hj hp

lemma onlyLabel_two : ∀ i < 2, ∀ j < 100, OnlyLabel 100 2 i (point (i : ℕ) j) := by
  have hother : ∀ j < 100, ∀ j' < 100, point ((0 : ℕ) : ℤ) j ≠ point ((1 : ℕ) : ℤ) j' := by
    decide +kernel
  intro i hi j hj
  refine ⟨⟨j, hj, rfl⟩, fun i' hi' j' hj' hp => ?_⟩
  interval_cases i <;> interval_cases i'
  · rfl
  · exact absurd hp.symm (hother j hj j' hj')
  · exact absurd hp (hother j' hj' j hj)
  · rfl

end ConsistentHash

end DistCache
