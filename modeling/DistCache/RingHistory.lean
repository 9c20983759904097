import DistCache.ConsistentHash

/-!
The ring of the master, edited shard by shard, against the ring that a dying cache computes at once.

`initialize` and `addNode` leave a point to the first shard that has a label there.  `deleteNode` erases
the points of the last shard whoever owns them, and writes the others again from `index` on, so that the
last one wins.  Where labels of two shards collide the two disagree; `Clean` says which collisions do
harm, and a history gives the fresh ring throughout exactly when no deletion meets one (`fresh_iff_clean`).
-/

namespace DistCache

open Lib

namespace ConsistentHash

variable {c : ConsistentHash} {index v n i i₁ i₂ : ℕ} {p : UInt32}

/-! ### The fresh ring -/

/-- `p` is the point of a label of shard `i`. -/
def HasPoint (v i : ℕ) (p : UInt32) : Prop := ∃ j < v, point i j = p

/-- Of the shards that have a label at `p` there is a first one. -/
lemma exists_first (hp : HasPoint v i p) :
    ∃ i' ≤ i, HasPoint v i' p ∧ ∀ k < i', ¬ HasPoint v k p := by
  classical
  have hex : ∃ i', HasPoint v i' p := ⟨i, hp⟩
  exact ⟨Nat.find hex, Nat.find_min' hex hp, Nat.find_spec hex, fun k hk => Nat.find_min hex hk⟩

/-- Another shard is one more turn of the loop of `initialize`. -/
lemma initializeRing_succ (n v : ℕ) : initializeRing (n + 1) v = (initializeRing n v).addNode n := by
  unfold initializeRing addNode
  rw [List.range_succ, List.foldl_append]
  rfl

/-- On the fresh ring a point belongs to the first shard that has a label there. -/
lemma lookup_initializeRing_iff :
    (initializeRing n v).key2Index.lookup p = some i ↔
      i < n ∧ HasPoint v i p ∧ ∀ i' < i, ¬ HasPoint v i' p := by
  induction n generalizing i with
  | zero => simp [initializeRing]
  | succ n ih =>
    rw [initializeRing_succ, lookup_addNode, Option.or_eq_some_iff, ih]
    constructor
    · rintro (⟨hlt, hp, hfirst⟩ | ⟨hnone, hi⟩)
      · exact ⟨by omega, hp, hfirst⟩
      · split_ifs at hi with hp
        cases hi
        refine ⟨by omega, hp, fun i' hlt hp' => ?_⟩
        -- the first of the shards that have a label at `p` would be on the ring already
        obtain ⟨k, hk, hkp, hfirst⟩ := exists_first hp'
        have hold := ih.mpr ⟨by omega, hkp, hfirst⟩
        rw [hnone] at hold
        simp at hold
    · rintro ⟨hlt, hp, hfirst⟩
      by_cases hin : i < n
      · exact .inl ⟨hin, hp, hfirst⟩
      · have hi : i = n := by omega
        subst hi
        refine .inr ⟨?_, if_pos hp⟩
        rw [Option.eq_none_iff_forall_ne_some]
        intro k hk
        obtain ⟨hk, hkp, -⟩ := ih.mp hk
        exact hfirst k hk hkp

lemma lookup_initializeRing_ne_none (hi : i < n) (hp : HasPoint v i p) :
    (initializeRing n v).key2Index.lookup p ≠ none := by
  obtain ⟨k, hk, hkp, hfirst⟩ := exists_first hp
  rw [lookup_initializeRing_iff.mpr ⟨by omega, hkp, hfirst⟩]
  exact Option.some_ne_none k

lemma nodes_initializeRing : (initializeRing n v).nodes = n := rfl

/-- A ring is the fresh one as soon as its points are. -/
lemma eq_initializeRing (hkeys : c.key2Index = (initializeRing n v).key2Index) (hnodes : c.nodes = n)
    (hvNodes : c.vNodes = v) : c = initializeRing n v :=
  calc c = ⟨c.key2Index, c.nodes, c.vNodes⟩ := rfl
    _ = initializeRing n v := by rw [hkeys, hnodes, hvNodes]; rfl

/-! ### One deletion -/

/-- Two shards have a label at the same point. -/
def Collide (v i₁ i₂ : ℕ) : Prop := ∃ p, HasPoint v i₁ p ∧ HasPoint v i₂ p

/-- No collision does harm when the last of `n` shards is deleted with `index`: neither a shard that is
written again collides with one before it, nor the last one with one that is not written again. -/
def Clean (v n index : ℕ) : Prop :=
  ∀ i₁ i₂, i₁ < i₂ → i₂ < n → index ≤ i₂ → (i₂ + 1 = n → i₁ < index) → ¬ Collide v i₁ i₂

/-- A point of a shard that is written again does not go to a shard before it. -/
lemma lookup_deleteNode_ge (c : ConsistentHash) (hle : index ≤ i) (hlt : (i : ℤ) < c.nodes - 1)
    (hp : c.IsPoint i p) :
    ∃ i' : ℕ, i ≤ i' ∧ (i' : ℤ) < c.nodes - 1 ∧ c.IsPoint i' p ∧
      (c.deleteNode index).key2Index.lookup p = some i' := by
  have hrange : List.range' index (c.nodes - 1 - index).toNat =
      List.range' index (i - index) ++ List.range' i (c.nodes - 1 - i).toNat := by
    have happ := List.range'_append_1 (s := index) (m := i - index) (n := (c.nodes - 1 - i).toNat)
    rw [Nat.add_sub_cancel' hle] at happ
    rw [happ]
    congr 1
    omega
  unfold deleteNode
  dsimp only
  rw [hrange, writeRows_append]
  rcases lookup_writeRows (a := p) (fun (i : ℕ) j => point i j) (fun i => i)
      (List.range' i (c.nodes - 1 - i).toNat) (List.range c.vNodes) _ with ⟨i', hi', hp', hl⟩ | ⟨hn, -⟩
  · rw [List.mem_range'_1] at hi'
    simp only [List.mem_range] at hp'
    exact ⟨i', hi'.1, by omega, hp', hl⟩
  · obtain ⟨j, hj, hpj⟩ := hp
    exact absurd hpj (hn i (List.mem_range'_1.mpr ⟨le_rfl, by omega⟩) j (List.mem_range.mpr hj))

/-- A deletion leads from the fresh ring to the fresh ring exactly when no collision does harm. -/
theorem deleteNode_fresh_iff (hindex : index ≤ n) :
    ((initializeRing (n + 1) v).deleteNode index).key2Index = (initializeRing n v).key2Index ↔
      Clean v (n + 1) index := by
  have hnodes : (initializeRing (n + 1) v).nodes - 1 = n := by
    rw [nodes_initializeRing]
    omega
  constructor
  · rintro heq i₁ i₂ hlt hn hle hlast ⟨p, hp₁, hp₂⟩
    by_cases hin : i₂ = n
    · -- the last shard and one that is not written again
      have hi₁ := hlast (by omega)
      rcases (initializeRing (n + 1) v).lookup_deleteNode index p with ⟨i, hi, -, -, hl⟩ | ⟨-, hl⟩
      · rw [heq, lookup_initializeRing_iff] at hl
        exact hl.2.2 i₁ (by omega) hp₁
      · rw [heq, hnodes, if_pos (hin ▸ hp₂)] at hl
        exact lookup_initializeRing_ne_none (by omega) hp₁ hl
    · obtain ⟨i, hi, -, -, hl⟩ := (initializeRing (n + 1) v).lookup_deleteNode_ge hle (by omega) hp₂
      rw [heq, lookup_initializeRing_iff] at hl
      exact hl.2.2 i₁ (by omega) hp₁
  · intro hclean
    refine Finmap.ext_lookup fun p => Option.ext fun i => ?_
    rcases (initializeRing (n + 1) v).lookup_deleteNode index p with ⟨i', hi', hlt, hp, hl⟩ | ⟨hno, hl⟩
    · rw [hnodes] at hlt
      have hfirst : ∀ k < i', ¬ HasPoint v k p := fun k hk hkp =>
        hclean k i' hk (by omega) hi' (by omega) ⟨p, hkp, hp⟩
      have hfresh : (initializeRing n v).key2Index.lookup p = some i' :=
        lookup_initializeRing_iff.mpr ⟨by omega, hp, hfirst⟩
      rw [hl, hfresh]
    · rw [hl, hnodes]
      split_ifs with hlast
      · -- a point of the last shard that goes: no shard has a label there any more
        have hnone : (initializeRing n v).key2Index.lookup p = none := by
          rw [Option.eq_none_iff_forall_ne_some]
          intro k hk
          obtain ⟨hkn, hkp, -⟩ := lookup_initializeRing_iff.mp hk
          rcases lt_or_ge k index with hki | hki
          · exact hclean k n hkn (by omega) hindex (fun _ => hki) ⟨p, hkp, hlast⟩
          · exact hno k hki (by omega) hkp
        simp [hnone]
      · rw [lookup_initializeRing_iff, lookup_initializeRing_iff]
        refine ⟨fun ⟨hin, hp, hfirst⟩ => ⟨?_, hp, hfirst⟩, fun ⟨hin, hp, hfirst⟩ =>
          ⟨by omega, hp, hfirst⟩⟩
        by_contra hge
        have hi : i = n := by omega
        exact hlast (hi ▸ hp)

/-- With no collision between two of the shards every deletion is clean. -/
lemma clean_of_not_collide (h : ∀ i₁ i₂, i₁ < i₂ → i₂ < n → ¬ Collide v i₁ i₂) : Clean v n index :=
  fun i₁ i₂ hlt hn _ _ => h i₁ i₂ hlt hn

/-- Where no two shards collide, taking one off the fresh ring gives the fresh ring. -/
lemma deleteNode_initializeRing (hindex : index ≤ n)
    (h : ∀ i₁ i₂, i₁ < i₂ → i₂ < n + 1 → ¬ Collide v i₁ i₂) :
    (initializeRing (n + 1) v).deleteNode index = initializeRing n v := by
  have hnodes : ((initializeRing (n + 1) v).deleteNode index).nodes = n := by
    rw [nodes_deleteNode, nodes_initializeRing]
    omega
  exact eq_initializeRing ((deleteNode_fresh_iff hindex).mpr (clean_of_not_collide h)) hnodes rfl

/-- On the fresh ring every key has an owner among the shards. -/
lemma owner_initializeRing (hn : 0 < n) (hv : 0 < v) (key : Str) :
    ∃ i < n, (initializeRing n v).owner key = some i := by
  have hpoint : (initializeRing n v).key2Index.lookup (point (0 : ℕ) 0) ≠ none :=
    lookup_initializeRing_ne_none hn ⟨0, hv, rfl⟩
  obtain ⟨i₀, hi₀⟩ := Option.ne_none_iff_exists'.mp hpoint
  have hne : (initializeRing n v).key2Index.keys.Nonempty :=
    ⟨_, Finmap.mem_keys.mpr (Finmap.mem_iff.mpr ⟨i₀, hi₀⟩)⟩
  obtain ⟨i, hi⟩ := exists_owner hne key
  obtain ⟨p, -, hp⟩ := Option.bind_eq_some_iff.mp hi
  exact ⟨i, (lookup_initializeRing_iff.mp hp).1, hi⟩

/-! ### Histories -/

/-- What is done to a ring that begins without a shard, up to `n` shards in play. -/
inductive Edits : ℕ → Type where
  | start : Edits 0
  | addNode {n : ℕ} (e : Edits n) : Edits (n + 1)
  | deleteNode {n : ℕ} (e : Edits (n + 1)) (index : Fin (n + 1)) : Edits n

/-- The ring after the edits: a shard that joins is the next one, and the index of a deletion is one of
the shards in play. -/
def Edits.ring (v : ℕ) : {n : ℕ} → Edits n → ConsistentHash
  | _, .start => initializeRing 0 v
  | n + 1, .addNode e => (e.ring v).addNode n
  | _, .deleteNode e index => (e.ring v).deleteNode index

/-- After each of the edits the ring is the one that `initialize` computes at once. -/
def Edits.Fresh (v : ℕ) : {n : ℕ} → Edits n → Prop
  | _, .start => True
  | n + 1, .addNode e =>
    e.Fresh v ∧ ((e.ring v).addNode n).key2Index = (initializeRing (n + 1) v).key2Index
  | n, .deleteNode e index =>
    e.Fresh v ∧ ((e.ring v).deleteNode index).key2Index = (initializeRing n v).key2Index

/-- No deletion meets a collision that does harm. -/
def Edits.Clean (v : ℕ) : {n : ℕ} → Edits n → Prop
  | _, .start => True
  | _, .addNode e => e.Clean v
  | n, .deleteNode e index => e.Clean v ∧ ConsistentHash.Clean v (n + 1) index

lemma Edits.nodes_ring (e : Edits n) : (e.ring v).nodes = n := by
  induction e with
  | start => rfl
  | addNode e ih =>
    rw [ring, nodes_addNode, ih]
    omega
  | deleteNode e index ih =>
    rw [ring, nodes_deleteNode, ih]
    omega

lemma Edits.vNodes_ring (e : Edits n) : (e.ring v).vNodes = v := by
  induction e with
  | start => rfl
  | addNode e ih => rw [ring, vNodes_addNode, ih]
  | deleteNode e index ih => rw [ring, vNodes_deleteNode, ih]

/-- At the end of a history that gives the fresh ring throughout the ring is the fresh one. -/
lemma Edits.Fresh.ring {e : Edits n} (h : e.Fresh v) : e.ring v = initializeRing n v := by
  cases e with
  | start => rfl
  | addNode e => exact eq_initializeRing h.2 (Edits.nodes_ring _) (Edits.vNodes_ring _)
  | deleteNode e index => exact eq_initializeRing h.2 (Edits.nodes_ring _) (Edits.vNodes_ring _)

/-- **A history gives the fresh ring throughout exactly when no deletion meets a collision that does
harm.** -/
theorem Edits.fresh_iff_clean (v : ℕ) (e : Edits n) : e.Fresh v ↔ e.Clean v := by
  induction e with
  | start => exact Iff.rfl
  | @addNode n e ih =>
    rw [Clean, ← ih]
    refine ⟨fun h => h.1, fun h => ⟨h, ?_⟩⟩
    rw [h.ring, initializeRing_succ]
  | @deleteNode n e index ih =>
    rw [Clean, ← ih]
    refine and_congr_right fun h => ?_
    rw [h.ring]
    exact deleteNode_fresh_iff (by omega)

/-- Shard after shard joins. -/
def Edits.joins : (n : ℕ) → Edits n
  | 0 => .start
  | n + 1 => .addNode (Edits.joins n)

lemma Edits.ring_joins (n v : ℕ) : (Edits.joins n).ring v = initializeRing n v := by
  induction n with
  | zero => rfl
  | succ n ih => rw [joins, ring, ih, initializeRing_succ]

/-- Among the labels of 1598 shards, one of shard 488 has the point of one of the last shard.  When that
shard goes, the point of shard 488 goes with it. -/
theorem Edits.deleteNode_not_fresh :
    (((Edits.joins 1598).deleteNode (Fin.last 1597)).ring 100).key2Index ≠
      (initializeRing 1597 100).key2Index := by
  intro h
  have hring : ((initializeRing 1598 100).deleteNode 1597).key2Index =
      (initializeRing 1597 100).key2Index := by
    rw [← Edits.ring_joins]
    exact h
  have hcollide : Collide 100 488 1597 :=
    ⟨point (488 : ℕ) 84, ⟨84, by decide, rfl⟩, ⟨11, by decide, by decide +kernel⟩⟩
  exact (deleteNode_fresh_iff le_rfl).mp hring 488 1597 (by decide) (by decide) le_rfl
    (fun _ => by decide) hcollide

end ConsistentHash

end DistCache
