import DistCache.RingHistory
import DistCache.Master.Threads

/-!
One lookup of `handleClientMessage` among the updates of the other threads.
-/

namespace DistCache

open Lib

namespace ConsistentHash

variable {c : ConsistentHash} {p : UInt32} {pc : DeletePc} {index : ℤ} {i : ℕ}

/-- The point that the next turn of `deleteNode` erases, if it is one that erases. -/
def erasedPoint (c : ConsistentHash) : DeletePc → Option UInt32
  | .erasing _ i => if i < c.vNodes then some (point (c.nodes - 1) i) else none
  | .writing _ _ => none

lemma mem_addTurn (hp : p ∈ c.key2Index) : p ∈ (c.addTurn index i).1.key2Index := by
  unfold addTurn
  split_ifs with hi
  · show p ∈ insertNew c.key2Index _ _
    unfold insertNew
    split_ifs
    · exact hp
    · exact Finmap.mem_insert.mpr (.inr hp)
  · exact hp

/-- A point leaves the ring when `deleteNode` erases it, and only then. -/
lemma mem_deleteTurn_iff (hp : p ∈ c.key2Index) :
    p ∈ (c.deleteTurn pc).1.key2Index ↔ c.erasedPoint pc ≠ some p := by
  cases pc with
  | erasing index i =>
    simp only [deleteTurn, erasedPoint]
    split_ifs with hi
    · rw [Finmap.mem_erase]
      exact ⟨fun h heq => h.1 (Option.some.inj heq).symm,
        fun h => ⟨fun heq => h (congrArg some heq.symm), hp⟩⟩
    · exact iff_of_true hp (Option.some_ne_none p).symm
  | writing i j =>
    simp only [deleteTurn, erasedPoint]
    refine iff_of_true ?_ (Option.some_ne_none p).symm
    split_ifs
    · exact Finmap.mem_insert.mpr (.inr hp)
    · exact hp
    · exact hp

end ConsistentHash

namespace Threads

variable {w w' : Threads} {u : Update} {e : Event} {p : UInt32} {index : ℕ}

/-! ### What an update can do to a lookup -/

/-- The updates that make `fd_node` shorter. -/
def Update.Shortens : Update → Prop
  | .eraseFd _ | .popBack => True
  | _ => False

instance Update.decidableShortens : DecidablePred Update.Shortens
  | .eraseFd _ | .popBack => isTrue trivial
  | .pushBack _ | .startCache | .replaceFd _ _ | .periodicDetectCache | .shrinkBegin
  | .shrinkageCapacity => isFalse id

/-- The point that an update erases, if it is one that erases. -/
def erases (w : Threads) : Update → Option UInt32
  | .periodicDetectCache =>
    match w.forHeart with
    | .deleting pc => w.ring.erasedPoint pc
    | _ => none
  | .shrinkageCapacity =>
    match w.forShrink with
    | .deleting pc => w.ring.erasedPoint pc
    | _ => none
  | _ => none

/-- An update leaves the lookup where it is, takes no point off the ring but the one it erases, and
makes `fd_node` shorter, by one entry, only if it is an `erase` or a `pop_back`. -/
lemma update_spec (h : w.update u = some w') :
    w'.forClient = w.forClient ∧
    (∀ p ∈ w.ring.key2Index, p ∈ w'.ring.key2Index ↔ w.erases u ≠ some p) ∧
    (if u.Shortens then w'.fdNode.length + 1 = w.fdNode.length
      else w.fdNode.length ≤ w'.fdNode.length) := by
  have hkeeps : ∀ p ∈ w.ring.key2Index, p ∈ w.ring.key2Index ↔ none ≠ some p :=
    fun p hp => iff_of_true hp (Option.some_ne_none p).symm
  cases update_cases h with
  | pushBack =>
    refine ⟨rfl, hkeeps, ?_⟩
    simp [Update.Shortens]
  | readSize => exact ⟨rfl, hkeeps, le_rfl⟩
  | joinTurn =>
    refine ⟨rfl, fun p hp => ?_, le_rfl⟩
    exact iff_of_true (ConsistentHash.mem_addTurn hp) (Option.some_ne_none p).symm
  | replaceFd =>
    refine ⟨rfl, hkeeps, ?_⟩
    simp [Update.Shortens]
  | eraseFd _ hfd =>
    refine ⟨rfl, hkeeps, ?_⟩
    have hlen := List.length_erase_of_mem hfd
    have hpos := List.length_pos_of_mem hfd
    show (w.fdNode.erase _).length + 1 = w.fdNode.length
    omega
  | deathTurn hheart =>
    refine ⟨rfl, fun p hp => ?_, le_rfl⟩
    simp only [erases, hheart]
    exact ConsistentHash.mem_deleteTurn_iff hp
  | shrinkBegin => exact ⟨rfl, hkeeps, le_rfl⟩
  | shrinkTurn hshrink =>
    refine ⟨rfl, fun p hp => ?_, le_rfl⟩
    simp only [erases, hshrink]
    exact ConsistentHash.mem_deleteTurn_iff hp
  | popBack _ hpos =>
    refine ⟨rfl, hkeeps, ?_⟩
    show w.fdNode.dropLast.length + 1 = w.fdNode.length
    rw [List.length_dropLast]
    omega

/-! ### The lookup -/

/-- The steps of the thread of the clients. -/
def Event.OfLookup : Event → Prop
  | .update _ => False
  | _ => True

/-- The next step of the lookup leaves `key2Index` as it is, and reads `fd_node` at an entry. -/
structure LookupSafe (w : Threads) : Prop where
  ring : ∀ e w', e.OfLookup → w.step e = some w' → w'.ring.key2Index = w.ring.key2Index
  entry : ∀ w', w.step .readFd = some w' → w'.forClient ≠ .read none

lemma step_getServer {key : Str} (h : w.step (.getServer key) = some w') :
    ∃ p, w.ring.getServer key = some p ∧ w' = { w with forClient := .found p } := by
  simp only [step] at h
  split at h
  · obtain ⟨p, hp, hw'⟩ := Option.map_eq_some_iff.mp h
    exact ⟨p, hp, hw'.symm⟩
  · obtain ⟨p, hp, hw'⟩ := Option.map_eq_some_iff.mp h
    exact ⟨p, hp, hw'.symm⟩
  · cases h

lemma step_readIndex (h : w.step .readIndex = some w') :
    ∃ p, w.forClient = .found p ∧
      w'.ring.key2Index = (subscript w.ring.key2Index p 0).1 ∧ w'.fdNode = w.fdNode ∧
      w'.forClient = .indexed (subscript w.ring.key2Index p 0).2 := by
  simp only [step] at h
  split at h
  · next p hp =>
    cases h
    exact ⟨p, hp, rfl, rfl, rfl⟩
  · cases h

lemma step_readFd (h : w.step .readFd = some w') :
    ∃ index, w.forClient = .indexed index ∧ w' = { w with forClient := .read w.fdNode[index]? } := by
  simp only [step] at h
  split at h
  · next index hindex =>
    cases h
    exact ⟨index, hindex, rfl⟩
  · cases h

end Threads

end DistCache
