import DistCache.Master.RingInv
import DistCache.Search

/-!
A client asks while no primary is registered.

Three lookups follow each other without a check: `GetServer` in `key2Index`, `key2Index[vir_node]`, and
`fd_node[index]`.  What is read where nothing is stored is not determined; it is taken from `Junk`, so
that the statements hold whatever it is.
-/

namespace DistCache

open Lib

/-- What reading an element that is not there gives. -/
structure Junk where
  /-- `begin()->first` of an empty `key2Index`. -/
  point : UInt32

/-- An element that `handleClientMessage` reads. -/
inductive Read where
  /-- `it->first`, in `key2Index`. -/
  | point (it : ConsistentHash.Iter)
  /-- `fd_node[index]`. -/
  | node (index : ℕ)

namespace Master

variable {m : Master} {junk : Junk} {msg : Str}

/-- What `GetServer` returns. -/
def virNode (m : Master) (junk : Junk) (msg : Str) : UInt32 :=
  (m.cacheAddrHash.getServer msg).getD junk.point

/-- `key2Index[vir_node]`: the map and the index afterwards. -/
def indexed (m : Master) (junk : Junk) (msg : Str) : Map UInt32 ℕ × ℕ :=
  subscript m.cacheAddrHash.key2Index (m.virNode junk msg) 0

/-- The elements that `handleClientMessage` reads up to `fd_node[index]`, in order. -/
def reads (m : Master) (junk : Junk) (msg : Str) : List Read :=
  (m.cacheAddrHash.dereferenced msg).map .point ++ [.node (m.indexed junk msg).2]

/-- The tables after these lookups. -/
def lookedUp (m : Master) (junk : Junk) (msg : Str) : Master :=
  { m with cacheAddrHash := { m.cacheAddrHash with key2Index := (m.indexed junk msg).1 } }

/-- The container that is read has an element. -/
def Filled (m : Master) : Read → Prop
  | .point _ => m.cacheAddrHash.key2Index.keys.Nonempty
  | .node _ => m.fdNode ≠ []

/-- The message reads no element of an empty container, and leaves the tables as they are. -/
structure Harmless (m : Master) (junk : Junk) (msg : Str) : Prop where
  filled : ∀ r ∈ m.reads junk msg, m.Filled r
  unchanged : m.lookedUp junk msg = m

/-- On a ring with points the index is the one that the key is looked up at. -/
lemma indexed_of_lookupIndex {index : ℕ} (h : m.lookupIndex msg = some index) :
    m.indexed junk msg = (m.cacheAddrHash.key2Index, index) := by
  obtain ⟨p, hp, hindex⟩ := Option.bind_eq_some_iff.mp h
  rw [indexed, virNode, hp, Option.getD_some]
  exact subscript_of_lookup hindex 0

/-- Without a primary the read of `fd_node` is one of nothing. -/
lemma not_harmless (hnone : m.fdNode = []) : ¬ m.Harmless junk msg :=
  fun h => h.filled (.node (m.indexed junk msg).2) (List.mem_append_right _ List.mem_cons_self) hnone

/-- What happens on an empty ring: `end()` is dereferenced twice, and `operator[]` inserts the point that
was read there, for the first shard. -/
structure Strays (m : Master) (junk : Junk) (msg : Str) : Prop where
  reads : m.reads junk msg = [.point none, .point none, .node 0]
  keys : (m.lookedUp junk msg).cacheAddrHash.key2Index.keys = {junk.point}

lemma strays (hempty : m.cacheAddrHash.key2Index = ∅) : m.Strays junk msg := by
  have hkeys : m.cacheAddrHash.key2Index.keys = ∅ := by rw [hempty]; rfl
  have hserver : m.cacheAddrHash.getServer msg = none := clockwise_eq_none_iff.mpr hkeys
  have hfound : m.cacheAddrHash.found msg = none :=
    lowerBound_eq_none_iff.mpr fun q hq => by rw [hkeys] at hq; exact absurd hq (Finset.notMem_empty q)
  have hbegin : m.cacheAddrHash.begin = none := least_eq_none_iff.mpr hkeys
  have hindexed : m.indexed junk msg = ((∅ : Map UInt32 ℕ).insert junk.point 0, 0) := by
    rw [indexed, virNode, hserver, Option.getD_none, hempty, subscript, Finmap.lookup_empty]
  constructor
  · rw [Master.reads, ConsistentHash.dereferenced, hfound, if_pos rfl, hbegin, hindexed]
    rfl
  · show (m.indexed junk msg).1.keys = {junk.point}
    rw [hindexed]
    ext p
    rw [Finmap.mem_keys, Finmap.mem_insert, Finset.mem_singleton, or_iff_left Finmap.notMem_empty]

end Master

namespace World

variable {w : World} {junk : Junk} {msg : Str}

/-- Without a primary there is no point on the ring. -/
lemma key2Index_of_no_primary (h : Reach Init step Atomic w) (hidle : w.shrinking = none)
    (hnone : w.master.fdNode = []) : w.master.cacheAddrHash.key2Index = ∅ := by
  have hi := ringInv_of_reach (h.mono fun _ _ => Atomic.undisturbed)
  refine Finmap.ext_lookup fun p => ?_
  rw [Finmap.lookup_empty, Option.eq_none_iff_forall_ne_some]
  intro v hv
  have hlt := hi.lookup_lt hidle hv
  rw [hnone] at hlt
  exact absurd hlt (Nat.not_lt_zero v)

/-- **No primary.**  In no state without a primary, reached or not, is a client message handled without
reading an element of an empty container.  When shrinks are not interrupted the ring is empty as well: the message
dereferences `end()`, and leaves a point on the ring. -/
theorem no_primary_harms (hnone : w.master.fdNode = []) :
    ∀ junk msg, ¬ w.master.Harmless junk msg ∧
      (Reach Init step Atomic w → w.shrinking = none → w.master.Strays junk msg) :=
  fun _ _ => ⟨Master.not_harmless hnone, fun h hidle =>
    Master.strays (key2Index_of_no_primary h hidle hnone)⟩

/-- Before the first join. -/
theorem no_primary_harms_start : ¬ (start 1638316800).master.Harmless ⟨0⟩ (lit "AAD") :=
  (no_primary_harms (w := start 1638316800) rfl ⟨0⟩ (lit "AAD")).1

/-- Before the first join, after the last primary has died, and after it has been shrunk. -/
theorem no_primary_states :
    (∃ w, Reach Init step Atomic w ∧ ¬ w.master.Harmless ⟨0⟩ (lit "AAD")) ∧
    (∃ w, path step Atomic (start 1638316800) ([.accept 5, .receive 5 (lit "x#127.0.0.1#8001#9001#P")] ++
      fiveSeconds ++ [.detect 5]) = some w ∧ ¬ w.master.Harmless ⟨0⟩ (lit "AAD")) ∧
    ∃ w, path step Atomic (start 1638316800) ([.accept 5, .receive 5 (lit "x#127.0.0.1#8001#9001#P"),
      .shrinkBegin] ++ fiveSeconds ++ [.shrinkEnd]) = some w ∧
      ¬ w.master.Harmless ⟨0⟩ (lit "AAD") := by
  have hdies : (path step Atomic (start 1638316800) ([.accept 5,
      .receive 5 (lit "x#127.0.0.1#8001#9001#P")] ++ fiveSeconds ++ [.detect 5])).map
        (fun w => w.master.fdNode) = some [] := by
    decide +kernel
  have hshrunk : (path step Atomic (start 1638316800) ([.accept 5,
      .receive 5 (lit "x#127.0.0.1#8001#9001#P"), .shrinkBegin] ++ fiveSeconds ++ [.shrinkEnd])).map
        (fun w => w.master.fdNode) = some [] := by
    decide +kernel
  obtain ⟨w₁, hw₁, hnone₁⟩ := Option.map_eq_some_iff.mp hdies
  obtain ⟨w₂, hw₂, hnone₂⟩ := Option.map_eq_some_iff.mp hshrunk
  exact ⟨⟨_, .start ⟨_, rfl⟩, Master.not_harmless (m := (start 1638316800).master) rfl⟩,
    ⟨w₁, hw₁, Master.not_harmless hnone₁⟩, ⟨w₂, hw₂, Master.not_harmless hnone₂⟩⟩

end World

end DistCache
