import DistCache.Master.Interleaving

/-!
The threads when a join, a death or a shrink begins only after the one before has ended.

Every point of the ring is then of an entry of `fd_node`, with one exception: `periodicDetectCache`
takes the entry off `fd_node` before `deleteNode` takes the last shard off the ring, and until then the
points of that shard are of no entry.  A shrink goes the other way round, and a join too.
-/

namespace DistCache

open Lib

/-! ### Rings that are edited one turn at a time -/

namespace ConsistentHash

variable {c : ConsistentHash} {pc : DeletePc} {index i : ℕ}

/-- Every point belongs to one of the first `n` shards, and is the point of one of its labels. -/
def Within (c : ConsistentHash) (n : ℤ) : Prop :=
  ∀ p v, c.key2Index.lookup p = some v → (v : ℤ) < n ∧ c.IsPoint v p

/-- The points of the last shard are those of its labels from `i` on. -/
def Remains (c : ConsistentHash) (i : ℕ) : Prop :=
  ∀ p v, c.key2Index.lookup p = some v → (v : ℤ) = c.nodes - 1 →
    ∃ j, i ≤ j ∧ j < c.vNodes ∧ point v j = p

/-- The ring while `deleteNode` is under way. -/
def DeleteInv (c : ConsistentHash) : DeletePc → Prop
  | .erasing _ i => c.Labelled ∧ c.Remains i
  | .writing _ _ => c.Labelled

/-- The number of shards when `deleteNode` returns. -/
def target (c : ConsistentHash) : DeletePc → ℤ
  | .erasing _ _ => c.nodes - 1
  | .writing _ _ => c.nodes

lemma Labelled.deleteInv (hc : c.Labelled) (index : ℕ) : c.DeleteInv (.erasing index 0) := by
  refine ⟨hc, fun p v hv _ => ?_⟩
  obtain ⟨-, j, hj, hp⟩ := hc p v hv
  exact ⟨j, Nat.zero_le j, hj, hp⟩

/-- A turn of `deleteNode` keeps the invariant, and the last one leaves the ring it aims at. -/
lemma DeleteInv.turn (hc : c.DeleteInv pc) :
    match c.deleteTurn pc with
    | (c', some pc') => c'.DeleteInv pc' ∧ c'.target pc' = c.target pc
    | (c', none) => c'.Labelled ∧ c'.nodes = c.target pc := by
  cases pc with
  | erasing index i =>
    obtain ⟨hlab, hrem⟩ := hc
    rcases lt_or_ge i c.vNodes with hi | hi
    · rw [eraseTurn_of_lt hi]
      refine ⟨⟨fun p v hv => ?_, fun p v hv hlast => ?_⟩, rfl⟩
      · rw [lookup_erase_ite] at hv
        split_ifs at hv
        exact hlab p v hv
      · rw [lookup_erase_ite] at hv
        split_ifs at hv with hp
        obtain ⟨j, hij, hj, hpj⟩ := hrem p v hv hlast
        refine ⟨j, ?_, hj, hpj⟩
        by_contra hlt
        have hji : j = i := by omega
        dsimp only at hlast
        rw [hlast, hji] at hpj
        exact hp hpj.symm
    · rw [eraseTurn_of_ge hi]
      refine ⟨fun p v hv => ?_, rfl⟩
      obtain ⟨hlt, hp⟩ := hlab p v hv
      refine ⟨?_, hp⟩
      by_contra hge
      -- a point of the last shard has a label that is not erased, and there is none
      dsimp only at hge
      obtain ⟨j, hij, hj, -⟩ := hrem p v hv (by omega)
      omega
  | writing i j =>
    rcases lt_or_ge (i : ℤ) c.nodes with hi | hi
    · rcases lt_or_ge j c.vNodes with hj | hj
      · rw [writeTurn_of_lt hi hj]
        refine ⟨fun p v hv => ?_, rfl⟩
        rw [lookup_insert_ite] at hv
        split_ifs at hv with hp
        · cases hv
          exact ⟨hi, j, hj, hp.symm⟩
        · exact hc p v hv
      · rw [writeTurn_next hi hj]
        exact ⟨hc, rfl⟩
    · rw [writeTurn_of_ge hi]
      exact ⟨hc, rfl⟩

/-- A turn of `addNode` for the next shard. -/
lemma Within.addTurn (hc : c.Within (c.nodes + 1)) (hindex : (index : ℤ) = c.nodes) :
    match c.addTurn index i with
    | (c', some _) => c'.Within (c'.nodes + 1) ∧ c'.nodes = c.nodes
    | (c', none) => c'.Labelled ∧ c'.nodes = c.nodes + 1 := by
  rcases lt_or_ge i c.vNodes with hi | hi
  · rw [addTurn_of_lt hi]
    refine ⟨fun p v hv => ?_, rfl⟩
    rw [lookup_insertNew, Option.or_eq_some_iff] at hv
    rcases hv with hv | ⟨-, hv⟩
    · exact hc p v hv
    · split_ifs at hv with hp
      cases hv
      exact ⟨by dsimp only; omega, i, hi, hp.symm⟩
  · rw [addTurn_of_ge hi]
    exact ⟨hc, rfl⟩

end ConsistentHash

namespace Threads

variable {w w' : Threads} {u : Update} {e : Event} {p : UInt32}

/-! ### Joins, deaths and shrinks one after the other -/

/-- A join, a death or a shrink begins only when none of them is under way. -/
def Serial (w : Threads) : Event → Prop
  | .update (.pushBack _) | .update (.eraseFd _) | .update .shrinkBegin =>
    w.forCache = .idle ∧ w.forHeart = .idle ∧ w.forShrink = .idle
  | _ => True

/-- A ring and `n` entries of `fd_node` while at most one of a join, a death and a shrink is under
way. -/
inductive OneAtATime (c : ConsistentHash) (n : ℕ) : JoinPc → DeathPc → ShrinkPc → Prop where
  | idle (hc : c.Labelled) (hn : c.nodes = n) : OneAtATime c n .idle .idle .idle
  | pushed (hc : c.Labelled) (hpos : 0 < n) (hn : c.nodes + 1 = n) :
      OneAtATime c n .pushed .idle .idle
  | adding {index i : ℕ} (hindex : (index : ℤ) = c.nodes) (hc : c.Within (c.nodes + 1))
      (hn : c.nodes + 1 = n) : OneAtATime c n (.adding index i) .idle .idle
  | death {pc : DeletePc} (hc : c.DeleteInv pc) (hn : c.target pc = n) :
      OneAtATime c n .idle (.deleting pc) .idle
  | shrink {pc : DeletePc} (hc : c.DeleteInv pc) (hn : c.target pc + 1 = n) :
      OneAtATime c n .idle .idle (.deleting pc)
  | waiting (hc : c.Labelled) (hn : c.nodes + 1 = n) : OneAtATime c n .idle .idle .waiting

section Turns

variable {c : ConsistentHash} {n : ℕ} {pc : DeletePc} {forCache : JoinPc} {forHeart : DeathPc}
  {forShrink : ShrinkPc}

lemma OneAtATime.joinTurn {index : ℤ} {i : ℕ}
    (h : OneAtATime c n (.adding index i) forHeart forShrink) :
    OneAtATime (c.addTurn index i).1 n ((c.addTurn index i).2.elim .idle (.adding index)) forHeart
      forShrink := by
  cases h with
  | @adding index _ hindex hc hn =>
    have hturn := hc.addTurn (i := i) hindex
    generalize c.addTurn index i = r at hturn ⊢
    obtain ⟨c', _ | i'⟩ := r
    · exact .idle hturn.1 (hturn.2.trans hn)
    · exact .adding (hindex.trans hturn.2.symm) hturn.1 (by rw [hturn.2]; exact hn)

lemma OneAtATime.deathTurn (h : OneAtATime c n forCache (.deleting pc) forShrink) :
    OneAtATime (c.deleteTurn pc).1 n forCache ((c.deleteTurn pc).2.elim .idle .deleting)
      forShrink := by
  cases h with
  | death hc hn =>
    have hturn := hc.turn
    generalize c.deleteTurn pc = r at hturn ⊢
    obtain ⟨c', _ | pc'⟩ := r
    · exact .idle hturn.1 (hturn.2.trans hn)
    · exact .death hturn.1 (hturn.2.trans hn)

lemma OneAtATime.shrinkTurn (h : OneAtATime c n forCache forHeart (.deleting pc)) :
    OneAtATime (c.deleteTurn pc).1 n forCache forHeart
      ((c.deleteTurn pc).2.elim .waiting .deleting) := by
  cases h with
  | shrink hc hn =>
    have hturn := hc.turn
    generalize c.deleteTurn pc = r at hturn ⊢
    obtain ⟨c', _ | pc'⟩ := r
    · exact .waiting hturn.1 (by rw [hturn.2]; exact hn)
    · exact .shrink hturn.1 (by rw [hturn.2]; exact hn)

/-- The points of a ring are of entries of `fd_node`, or of the shard whose primary has left it. -/
lemma OneAtATime.lookup_lt (h : OneAtATime c n forCache forHeart forShrink) {v : ℕ}
    (hv : c.key2Index.lookup p = some v) :
    v < n ∨ v = n ∧ ∃ index i j, forHeart = .deleting (.erasing index i) ∧
      i ≤ j ∧ j < c.vNodes ∧ point v j = p := by
  cases h with
  | idle hc hn | pushed hc hpos hn | adding hindex hc hn | waiting hc hn =>
    have hlt := (hc p v hv).1
    left
    omega
  | @death pc hc hn =>
    cases pc with
    | erasing index i =>
      obtain ⟨hlab, hrem⟩ := hc
      have hlt := (hlab p v hv).1
      simp only [ConsistentHash.target] at hn
      rcases lt_or_ge v n with hvn | hvn
      · exact .inl hvn
      · obtain ⟨j, hij, hj, hp⟩ := hrem p v hv (by omega)
        exact .inr ⟨by omega, index, i, j, rfl, hij, hj, hp⟩
    | writing i j =>
      have hlt := (hc p v hv).1
      simp only [ConsistentHash.target] at hn
      left
      omega
  | @shrink pc hc hn =>
    have hlab : c.Labelled ∧ c.nodes ≤ n := by
      cases pc with
      | erasing index i =>
        simp only [ConsistentHash.target] at hn
        exact ⟨hc.1, by omega⟩
      | writing i j =>
        simp only [ConsistentHash.target] at hn
        exact ⟨hc, by omega⟩
    have hlt := (hlab.1 p v hv).1
    left
    omega

end Turns

/-- At most one of a join, a death and a shrink is under way. -/
def Ordered (w : Threads) : Prop :=
  OneAtATime w.ring w.fdNode.length w.forCache w.forHeart w.forShrink

/-- An update that comes in its turn. -/
lemma Ordered.update (ho : w.Ordered) (hok : w.Serial (.update u)) (h : w.update u = some w') :
    w'.Ordered := by
  unfold Ordered at ho ⊢
  cases update_cases h with
  | pushBack =>
    obtain ⟨hcache, hheart, hshrink⟩ := hok
    rw [hcache, hheart, hshrink] at ho
    cases ho with
    | idle hc hn =>
      simp only [hheart, hshrink, List.length_append, List.length_singleton]
      exact .pushed hc (by omega) (by omega)
  | readSize hcache =>
    rw [hcache] at ho
    dsimp only
    generalize w.forHeart = forHeart, w.forShrink = forShrink at ho ⊢
    cases ho with
    | pushed hc hpos hn =>
      have hindex : (w.fdNode.length : ℤ) - 1 = (w.fdNode.length - 1 : ℕ) := by omega
      have hnodes : ((w.fdNode.length - 1 : ℕ) : ℤ) = w.ring.nodes := by omega
      rw [hindex]
      refine .adding hnodes (fun p v hv => ?_) hn
      obtain ⟨hlt, hp⟩ := hc p v hv
      exact ⟨by omega, hp⟩
  | joinTurn hcache =>
    rw [hcache] at ho
    exact ho.joinTurn
  | replaceFd => simpa only [List.length_set] using ho
  | eraseFd _ hfd =>
    obtain ⟨hcache, hheart, hshrink⟩ := hok
    rw [hcache, hheart, hshrink] at ho
    have hlen := List.length_erase_of_mem hfd
    have hpos := List.length_pos_of_mem hfd
    simp only [hcache, hshrink]
    cases ho with
    | idle hc hn =>
      exact .death (hc.deleteInv _) (by simp only [ConsistentHash.target]; omega)
  | deathTurn hheart =>
    rw [hheart] at ho
    exact ho.deathTurn
  | shrinkBegin _ hpos =>
    obtain ⟨hcache, hheart, hshrink⟩ := hok
    rw [hcache, hheart, hshrink] at ho
    simp only [hcache, hheart]
    cases ho with
    | idle hc hn =>
      exact .shrink (hc.deleteInv _) (by simp only [ConsistentHash.target]; omega)
  | shrinkTurn hshrink =>
    rw [hshrink] at ho
    exact ho.shrinkTurn
  | popBack hshrink hpos =>
    rw [hshrink] at ho
    simp only [List.length_dropLast]
    generalize w.forCache = forCache, w.forHeart = forHeart at ho ⊢
    cases ho with
    | waiting hc hn => exact .idle hc (by omega)

/-- A step that comes in its turn, when the lookup is safe and leaves the ring alone. -/
lemma Ordered.step (ho : w.Ordered) (hs : w.LookupSafe) (hok : w.Serial e)
    (h : w.step e = some w') : w'.Ordered := by
  cases e with
  | update u => exact ho.update hok h
  | getServer key =>
    obtain ⟨p, -, rfl⟩ := step_getServer h
    exact ho
  | readIndex =>
    have hring := hs.ring .readIndex w' trivial h
    simp only [Threads.step] at h
    split at h
    · cases h
      dsimp only at hring
      unfold Ordered
      dsimp only
      rw [hring]
      exact ho
    · cases h
  | readFd =>
    obtain ⟨index, -, rfl⟩ := step_readFd h
    exact ho

/-- A lookup has begun and has not read `fd_node` yet. -/
def Inside (w : Threads) : Prop :=
  match w.forClient with
  | .found _ | .indexed _ => True
  | _ => False

/-- A lookup does not begin while a primary is being removed, and no removal begins during a lookup. -/
def Apart (w : Threads) : Event → Prop
  | .getServer _ => w.forHeart = .idle ∧ w.forShrink = .idle
  | .update (.eraseFd _) | .update .shrinkBegin => ¬ w.Inside
  | _ => True

/-- During a lookup no removal is under way. -/
def NoRemoval (w : Threads) : Prop := w.Inside → w.forHeart = .idle ∧ w.forShrink = .idle

/-- During a lookup only joins and failovers go on. -/
lemma NoRemoval.update (hn : w.NoRemoval) (hin : w.Inside) (hok : w.Apart (.update u))
    (h : w.update u = some w') :
    ¬ u.Shortens ∧ w.erases u = none ∧ w'.forHeart = .idle ∧ w'.forShrink = .idle := by
  obtain ⟨hheart, hshrink⟩ := hn hin
  cases update_cases h with
  | pushBack | readSize | joinTurn | replaceFd => exact ⟨id, rfl, hheart, hshrink⟩
  | eraseFd | shrinkBegin => exact absurd hin hok
  | deathTurn hdel =>
    rw [hheart] at hdel
    cases hdel
  | shrinkTurn hdel | popBack hdel =>
    rw [hshrink] at hdel
    cases hdel

lemma NoRemoval.step (hn : w.NoRemoval) (hok : w.Apart e) (h : w.step e = some w') :
    w'.NoRemoval := by
  cases e with
  | update u =>
    intro hin
    have hclient := (update_spec h).1
    have hin' : w.Inside := by
      unfold Inside at hin ⊢
      rw [← hclient]
      exact hin
    exact (hn.update hin' hok h).2.2
  | getServer key =>
    obtain ⟨p, -, rfl⟩ := step_getServer h
    exact fun _ => hok
  | readIndex =>
    intro _
    obtain ⟨p, hc, -⟩ := step_readIndex h
    obtain ⟨hheart, hshrink⟩ := hn (by simp only [Inside, hc])
    simp only [Threads.step, hc] at h
    cases h
    exact ⟨hheart, hshrink⟩
  | readFd =>
    obtain ⟨index, -, rfl⟩ := step_readFd h
    exact fun hin => hin.elim

end Threads

end DistCache
