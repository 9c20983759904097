import DistCache.Master.RingInv

/-!
The four threads of the master, as far as `key2Index` and `fd_node` go.

No lock guards the two.  Here every update of one of them is a step of its own: a turn of a loop of
`addNode` or `deleteNode`, a `push_back`, an assignment to an entry, an `erase`, a `pop_back`; and so
are the three reads of a lookup, of which the second, `operator[]`, inserts a point that is not there.
A step may come whenever its thread can take it: when a primary joins, dies or is shrunk is left open.
Where no thread interrupts another, the steps add up to the events of `World` (`reach_ofWorld`).
-/

namespace DistCache

open Lib

/-! ### `addNode` and `deleteNode`, turn by turn -/

/-- An `int` as the `size_t` it is converted to. -/
def sizeT : ℤ → ℕ
  | .ofNat n => n
  | .negSucc n => 2 ^ 64 - 1 - n

/-- Where `deleteNode` stands: in the loop that erases the labels of the last shard, or in the loop
that writes those of the shards from `index` on again. -/
inductive DeletePc where
  | erasing (index i : ℕ)
  | writing (i j : ℕ)

namespace ConsistentHash

/-- A turn of the loop of `addNode`, or its last statement: then no turn is left. -/
def addTurn (c : ConsistentHash) (index : ℤ) (i : ℕ) : ConsistentHash × Option ℕ :=
  if i < c.vNodes then
    ({ c with key2Index := insertNew c.key2Index (point index i) (sizeT index) }, some (i + 1))
  else ({ c with nodes := c.nodes + 1 }, none)

/-- A turn of a loop of `deleteNode`, or the statement between the loops. -/
def deleteTurn (c : ConsistentHash) : DeletePc → ConsistentHash × Option DeletePc
  | .erasing index i =>
    if i < c.vNodes then
      ({ c with key2Index := c.key2Index.erase (point (c.nodes - 1) i) },
        some (.erasing index (i + 1)))
    else ({ c with nodes := c.nodes - 1 }, some (.writing index 0))
  | .writing i j =>
    if (i : ℤ) < c.nodes then
      if j < c.vNodes then
        ({ c with key2Index := c.key2Index.insert (point i j) i }, some (.writing i (j + 1)))
      else (c, some (.writing (i + 1) 0))
    else (c, none)

variable {c : ConsistentHash} {i : ℕ}

/-! ### All the turns -/

section Turns

variable {index i j : ℕ}

lemma addTurn_of_lt (h : i < c.vNodes) : c.addTurn index i =
    ({ c with key2Index := insertNew c.key2Index (point index i) index }, some (i + 1)) := if_pos h

lemma addTurn_of_ge (h : c.vNodes ≤ i) :
    c.addTurn index i = ({ c with nodes := c.nodes + 1 }, none) := if_neg (by omega)

lemma eraseTurn_of_lt (h : i < c.vNodes) : c.deleteTurn (.erasing index i) =
    ({ c with key2Index := c.key2Index.erase (point (c.nodes - 1) i) },
      some (.erasing index (i + 1))) := if_pos h

lemma eraseTurn_of_ge (h : c.vNodes ≤ i) : c.deleteTurn (.erasing index i) =
    ({ c with nodes := c.nodes - 1 }, some (.writing index 0)) := if_neg (by omega)

lemma writeTurn_of_lt (hi : (i : ℤ) < c.nodes) (h : j < c.vNodes) : c.deleteTurn (.writing i j) =
    ({ c with key2Index := c.key2Index.insert (point i j) i }, some (.writing i (j + 1))) :=
  (if_pos hi).trans (if_pos h)

lemma writeTurn_next (hi : (i : ℤ) < c.nodes) (h : c.vNodes ≤ j) :
    c.deleteTurn (.writing i j) = (c, some (.writing (i + 1) 0)) :=
  (if_pos hi).trans (if_neg (by omega))

lemma writeTurn_of_ge (hi : c.nodes ≤ i) : c.deleteTurn (.writing i j) = (c, none) :=
  if_neg (by omega)

/-- The loop of `addNode` from label `i` on. -/
lemma addTurns_from (index n : ℕ) : ∀ (i : ℕ) (c : ConsistentHash), i + n = c.vNodes →
    Relation.ReflTransGen (Turn fun c i => c.addTurn index i) (c, some i)
      ({ c with
        key2Index := (List.range' i n).foldl
          (fun m j => insertNew m (point index j) index) c.key2Index
        nodes := c.nodes + 1 }, none) := by
  induction n with
  | zero =>
    intro i c hi
    exact .single ⟨i, rfl, (addTurn_of_ge hi.ge).symm⟩
  | succ n ih =>
    intro i c hi
    have hlt : i < c.vNodes := by omega
    exact .head ⟨i, rfl, (addTurn_of_lt hlt).symm⟩ (ih (i + 1) { c with
      key2Index := insertNew c.key2Index (point index i) index } (by dsimp only; omega))

/-- With no other thread in between, the turns of `addNode` are `addNode`. -/
theorem addTurns (c : ConsistentHash) (index : ℕ) :
    Relation.ReflTransGen (Turn fun c i => c.addTurn index i) (c, some 0)
      (c.addNode index, none) := by
  have h := addTurns_from index c.vNodes 0 c (by omega)
  rw [← List.range_eq_range'] at h
  exact h

/-- The loop of `deleteNode` that erases, from label `i` on. -/
lemma eraseTurns_from (index n : ℕ) : ∀ (i : ℕ) (c : ConsistentHash), i + n = c.vNodes →
    Relation.ReflTransGen (Turn deleteTurn) (c, some (.erasing index i))
      ({ c with
        key2Index := (List.range' i n).foldl
          (fun m j => m.erase (point (c.nodes - 1) j)) c.key2Index
        nodes := c.nodes - 1 }, some (.writing index 0)) := by
  induction n with
  | zero =>
    intro i c hi
    exact .single ⟨_, rfl, (eraseTurn_of_ge hi.ge).symm⟩
  | succ n ih =>
    intro i c hi
    have hlt : i < c.vNodes := by omega
    exact .head ⟨_, rfl, (eraseTurn_of_lt hlt).symm⟩ (ih (i + 1) { c with
      key2Index := c.key2Index.erase (point (c.nodes - 1) i) } (by dsimp only; omega))

/-- The inner loop of `deleteNode` that writes, for shard `i` from label `j` on. -/
lemma writeRowTurns_from (i n : ℕ) : ∀ (j : ℕ) (c : ConsistentHash), j + n = c.vNodes →
    (i : ℤ) < c.nodes →
    Relation.ReflTransGen (Turn deleteTurn) (c, some (.writing i j))
      ({ c with
        key2Index := (List.range' j n).foldl (fun m j => m.insert (point i j) i) c.key2Index },
        some (.writing (i + 1) 0)) := by
  induction n with
  | zero =>
    intro j c hj hi
    exact .single ⟨_, rfl, (writeTurn_next hi hj.ge).symm⟩
  | succ n ih =>
    intro j c hj hi
    have hlt : j < c.vNodes := by omega
    exact .head ⟨_, rfl, (writeTurn_of_lt hi hlt).symm⟩ (ih (j + 1) { c with
      key2Index := c.key2Index.insert (point i j) i } (by dsimp only; omega) hi)

/-- The outer loop of `deleteNode` that writes, from shard `i` on. -/
lemma writeTurns_from (n : ℕ) : ∀ (i : ℕ) (c : ConsistentHash), n = (c.nodes - i).toNat →
    Relation.ReflTransGen (Turn deleteTurn) (c, some (.writing i 0))
      ({ c with
        key2Index := writeRows (fun (i j : ℕ) => point i j) (fun i => i) (List.range' i n)
          (List.range c.vNodes) c.key2Index }, none) := by
  induction n with
  | zero =>
    intro i c hn
    have hge : c.nodes ≤ i := by omega
    exact .single ⟨_, rfl, (writeTurn_of_ge hge).symm⟩
  | succ n ih =>
    intro i c hn
    have hrow := writeRowTurns_from i c.vNodes 0 c (by omega) (by omega)
    rw [← List.range_eq_range'] at hrow
    exact hrow.trans (ih (i + 1) { c with
      key2Index := (List.range c.vNodes).foldl (fun m j => m.insert (point i j) i) c.key2Index }
      (by dsimp only; omega))

/-- With no other thread in between, the turns of `deleteNode` are `deleteNode`. -/
theorem deleteTurns (c : ConsistentHash) (index : ℕ) :
    Relation.ReflTransGen (Turn deleteTurn) (c, some (.erasing index 0))
      (c.deleteNode index, none) := by
  have herase := eraseTurns_from index c.vNodes 0 c (by omega)
  rw [← List.range_eq_range'] at herase
  exact herase.trans (writeTurns_from _ index _ rfl)

end Turns

end ConsistentHash

/-! ### The threads -/

/-- `start_cache` and a primary that joins. -/
inductive JoinPc where
  | idle
  | pushed
  | adding (index : ℤ) (i : ℕ)

/-- `periodicDetectCache` and a primary that is dead. -/
inductive DeathPc where
  | idle
  | deleting (pc : DeletePc)

/-- `shrinkageCapacity`. -/
inductive ShrinkPc where
  | idle
  | deleting (pc : DeletePc)
  | waiting

/-- `handleClientMessage`.  It has read nothing, the point, the index, or the entry of `fd_node`,
which is `none` when the index is out of range. -/
inductive LookupPc where
  | idle
  | found (virNode : UInt32)
  | indexed (index : ℕ)
  | read (fd : Option ℤ)

/-- The ring, `fd_node`, and where the four threads stand. -/
structure Threads where
  ring : ConsistentHash
  fdNode : List ℤ
  forCache : JoinPc
  forHeart : DeathPc
  forShrink : ShrinkPc
  forClient : LookupPc

namespace Threads

/-- The updates of the threads that are not the one of the clients. -/
inductive Update where
  /-- `fd_node.push_back(fd)`. -/
  | pushBack (fd : ℤ)
  /-- The next of `int index = fd_node.size() - 1` and the turns of `addNode(index)`. -/
  | startCache
  /-- `fd_node[index] = pair_fd` for a dead primary. -/
  | replaceFd (fd pairFd : ℤ)
  /-- `fd_node.erase(it)` for a dead primary. -/
  | eraseFd (fd : ℤ)
  /-- The next turn of `deleteNode(index)`, for a dead primary. -/
  | periodicDetectCache
  /-- `'s'` is typed, and `int index = fd_node.size() - 1`. -/
  | shrinkBegin
  /-- The next turn of `deleteNode(index)`, for a shrink. -/
  | shrinkageCapacity
  /-- `fd_node.pop_back()`. -/
  | popBack

/-- The steps of the four threads. -/
inductive Event where
  | update (u : Update)
  /-- `cacheAddrHash.GetServer(key)`. -/
  | getServer (key : Str)
  /-- `int index = cacheAddrHash.key2Index[vir_node]`. -/
  | readIndex
  /-- `int fd = fd_node[index]`. -/
  | readFd

/-- `Master::Start`. -/
def start : Threads := ⟨ConsistentHash.initializeRing 0 100, [], .idle, .idle, .idle, .idle⟩

/-- The next turn of `deleteNode`, for a shrink.  After the last one the shrink waits. -/
def shrinkTurn (w : Threads) (pc : DeletePc) : Threads :=
  let r := w.ring.deleteTurn pc
  { w with ring := r.1, forShrink := r.2.elim .waiting .deleting }

/-- The next turn of `deleteNode`, for a dead primary. -/
def deathTurn (w : Threads) (pc : DeletePc) : Threads :=
  let r := w.ring.deleteTurn pc
  { w with ring := r.1, forHeart := r.2.elim .idle .deleting }

/-- The next turn of `addNode`. -/
def joinTurn (w : Threads) (index : ℤ) (i : ℕ) : Threads :=
  let r := w.ring.addTurn index i
  { w with ring := r.1, forCache := r.2.elim .idle (.adding index) }

/-- The updates.  `pop_back` of an empty vector is undefined. -/
def update (w : Threads) : Update → Option Threads
  | .pushBack fd =>
    match w.forCache with
    | .idle => some { w with fdNode := w.fdNode ++ [fd], forCache := .pushed }
    | _ => none
  | .startCache =>
    match w.forCache with
    | .idle => none
    | .pushed => some { w with forCache := .adding ((w.fdNode.length : ℤ) - 1) 0 }
    | .adding index i => some (w.joinTurn index i)
  | .replaceFd fd pairFd =>
    match w.forHeart with
    | .idle =>
      if fd ∈ w.fdNode then some { w with fdNode := w.fdNode.set (w.fdNode.idxOf fd) pairFd }
      else none
    | _ => none
  | .eraseFd fd =>
    match w.forHeart with
    | .idle =>
      if fd ∈ w.fdNode then
        some { w with
          fdNode := w.fdNode.erase fd
          forHeart := .deleting (.erasing (w.fdNode.idxOf fd) 0) }
      else none
    | _ => none
  | .periodicDetectCache =>
    match w.forHeart with
    | .idle => none
    | .deleting pc => some (w.deathTurn pc)
  | .shrinkBegin =>
    match w.forShrink with
    | .idle =>
      if 0 < w.fdNode.length then
        some { w with forShrink := .deleting (.erasing (w.fdNode.length - 1) 0) }
      else none
    | _ => none
  | .shrinkageCapacity =>
    match w.forShrink with
    | .deleting pc => some (w.shrinkTurn pc)
    | _ => none
  | .popBack =>
    match w.forShrink with
    | .waiting =>
      if 0 < w.fdNode.length then some { w with fdNode := w.fdNode.dropLast, forShrink := .idle }
      else none
    | _ => none

/-- A step of one of the threads.  The thread of the clients handles one message after the other.
`GetServer` on an empty ring reads `begin()->first`, which is no element: it has no step. -/
def step (w : Threads) : Event → Option Threads
  | .update u => w.update u
  | .getServer key =>
    match w.forClient with
    | .idle | .read _ => (w.ring.getServer key).map fun virNode => { w with forClient := .found virNode }
    | _ => none
  | .readIndex =>
    match w.forClient with
    | .found virNode =>
      let r := subscript w.ring.key2Index virNode 0
      some { w with ring := { w.ring with key2Index := r.1 }, forClient := .indexed r.2 }
    | _ => none
  | .readFd =>
    match w.forClient with
    | .indexed index => some { w with forClient := .read w.fdNode[index]? }
    | _ => none

variable {w w' : Threads}

/-- What an update can do, and where its thread stands when it does. -/
inductive Updated (w : Threads) : Update → Threads → Prop where
  | pushBack {fd : ℤ} (hcache : w.forCache = .idle) :
      Updated w (.pushBack fd) { w with fdNode := w.fdNode ++ [fd], forCache := .pushed }
  | readSize (hcache : w.forCache = .pushed) :
      Updated w .startCache { w with forCache := .adding ((w.fdNode.length : ℤ) - 1) 0 }
  | joinTurn {index : ℤ} {i : ℕ} (hcache : w.forCache = .adding index i) :
      Updated w .startCache (w.joinTurn index i)
  | replaceFd {fd pairFd : ℤ} (hheart : w.forHeart = .idle) (hfd : fd ∈ w.fdNode) :
      Updated w (.replaceFd fd pairFd) { w with fdNode := w.fdNode.set (w.fdNode.idxOf fd) pairFd }
  | eraseFd {fd : ℤ} (hheart : w.forHeart = .idle) (hfd : fd ∈ w.fdNode) :
      Updated w (.eraseFd fd) { w with
        fdNode := w.fdNode.erase fd
        forHeart := .deleting (.erasing (w.fdNode.idxOf fd) 0) }
  | deathTurn {pc : DeletePc} (hheart : w.forHeart = .deleting pc) :
      Updated w .periodicDetectCache (w.deathTurn pc)
  | shrinkBegin (hshrink : w.forShrink = .idle) (hpos : 0 < w.fdNode.length) :
      Updated w .shrinkBegin
        { w with forShrink := .deleting (.erasing (w.fdNode.length - 1) 0) }
  | shrinkTurn {pc : DeletePc} (hshrink : w.forShrink = .deleting pc) :
      Updated w .shrinkageCapacity (w.shrinkTurn pc)
  | popBack (hshrink : w.forShrink = .waiting) (hpos : 0 < w.fdNode.length) :
      Updated w .popBack { w with fdNode := w.fdNode.dropLast, forShrink := .idle }

theorem update_cases {u : Update} (h : w.update u = some w') : w.Updated u w' := by
  cases u with
  | pushBack fd =>
    simp only [update] at h
    split at h <;> cases h
    next hcache => exact .pushBack hcache
  | startCache =>
    simp only [update] at h
    split at h <;> cases h
    · next hcache => exact .readSize hcache
    · next hcache => exact .joinTurn hcache
  | replaceFd fd pairFd =>
    simp only [update] at h
    split at h
    · next hheart =>
      split_ifs at h with hfd
      cases h
      exact .replaceFd hheart hfd
    · cases h
  | eraseFd fd =>
    simp only [update] at h
    split at h
    · next hheart =>
      split_ifs at h with hfd
      cases h
      exact .eraseFd hheart hfd
    · cases h
  | periodicDetectCache =>
    simp only [update] at h
    split at h <;> cases h
    next hheart => exact .deathTurn hheart
  | shrinkBegin =>
    simp only [update] at h
    split at h
    · next hshrink =>
      split_ifs at h with hpos
      cases h
      exact .shrinkBegin hshrink hpos
    · cases h
  | shrinkageCapacity =>
    simp only [update] at h
    split at h <;> cases h
    next hshrink => exact .shrinkTurn hshrink
  | popBack =>
    simp only [update] at h
    split at h
    · next hshrink =>
      split_ifs at h with hpos
      cases h
      exact .popBack hshrink hpos
    · cases h

/-! ### Threads that are not interrupted -/

section AtOnce

variable {ok : Threads → Event → Prop}

/-- With no other step in between, a primary that joins enters `fd_node` and the ring. -/
lemma run_join (hok : ∀ w u, w.forClient = .idle → ok w (.update u)) (hcache : w.forCache = .idle)
    (hclient : w.forClient = .idle) (fd : ℤ) :
    Relation.ReflTransGen (Move step ok) w
      { w with ring := w.ring.addNode w.fdNode.length, fdNode := w.fdNode ++ [fd] } := by
  obtain ⟨ring, fdNode, forCache, forHeart, forShrink, forClient⟩ := w
  dsimp only at hcache hclient
  subst hcache hclient
  have hindex : ((fdNode ++ [fd]).length : ℤ) - 1 = fdNode.length := by
    rw [List.length_append, List.length_singleton]
    omega
  -- the loop, started with the index of the new entry
  have hturns := (ConsistentHash.addTurns ring fdNode.length).lift
    (p := Move step ok)
    (fun r => ⟨r.1, fdNode ++ [fd], r.2.elim .idle (.adding fdNode.length), forHeart, forShrink,
      .idle⟩)
    (by
      rintro ⟨c, o⟩ b ⟨i, ho, rfl⟩
      cases ho
      exact ⟨.update .startCache, hok _ _ rfl, rfl⟩)
  refine .head ⟨.update (.pushBack fd), hok _ _ rfl, rfl⟩ (.head ⟨.update .startCache, hok _ _ rfl, ?_⟩
    hturns)
  simp only [step, update, hindex]
  rfl

/-- With no other step in between, a primary that is dead leaves `fd_node` and the ring. -/
lemma run_death (hok : ∀ w u, w.forClient = .idle → ok w (.update u)) (hheart : w.forHeart = .idle)
    (hclient : w.forClient = .idle) {fd : ℤ} (hfd : fd ∈ w.fdNode) :
    Relation.ReflTransGen (Move step ok) w
      { w with ring := w.ring.deleteNode (w.fdNode.idxOf fd), fdNode := w.fdNode.erase fd } := by
  obtain ⟨ring, fdNode, forCache, forHeart, forShrink, forClient⟩ := w
  dsimp only at hheart hclient hfd
  subst hheart hclient
  have hturns := (ConsistentHash.deleteTurns ring (fdNode.idxOf fd)).lift
    (p := Move step ok)
    (fun r => ⟨r.1, fdNode.erase fd, forCache, r.2.elim .idle .deleting, forShrink, .idle⟩)
    (by
      rintro ⟨c, o⟩ b ⟨pc, ho, rfl⟩
      cases ho
      exact ⟨.update .periodicDetectCache, hok _ _ rfl, rfl⟩)
  refine .head ⟨.update (.eraseFd fd), hok _ _ rfl, ?_⟩ hturns
  simp only [step, update, if_pos hfd]
  rfl

/-- With no other step in between, the last shard leaves the ring when a shrink begins. -/
lemma run_shrink (hok : ∀ w u, w.forClient = .idle → ok w (.update u)) (hshrink : w.forShrink = .idle)
    (hclient : w.forClient = .idle) (hpos : 0 < w.fdNode.length) :
    Relation.ReflTransGen (Move step ok) w
      { w with ring := w.ring.deleteNode (w.fdNode.length - 1), forShrink := .waiting } := by
  obtain ⟨ring, fdNode, forCache, forHeart, forShrink, forClient⟩ := w
  dsimp only at hshrink hclient hpos
  subst hshrink hclient
  have hturns := (ConsistentHash.deleteTurns ring (fdNode.length - 1)).lift
    (p := Move step ok)
    (fun r => ⟨r.1, fdNode, forCache, forHeart, r.2.elim .waiting .deleting, .idle⟩)
    (by
      rintro ⟨c, o⟩ b ⟨pc, ho, rfl⟩
      cases ho
      exact ⟨.update .shrinkageCapacity, hok _ _ rfl, rfl⟩)
  refine .head ⟨.update .shrinkBegin, hok _ _ rfl, ?_⟩ hturns
  simp only [step, update, if_pos hpos]
  rfl

/-- The threads of a master whose events happen at once. -/
def ofWorld (w : World) : Threads where
  ring := w.master.cacheAddrHash
  fdNode := w.master.fdNode
  forCache := .idle
  forHeart := .idle
  forShrink := if w.shrinking.isSome then .waiting else .idle
  forClient := .idle

/-- Every event of the master is a run of its threads. -/
lemma run_ofWorld (hok : ∀ w u, w.forClient = .idle → ok w (.update u)) {w w' : World}
    {e : DistCache.Event} (hk : w.Keyed) (h : w.step e = some w') :
    Relation.ReflTransGen (Move step ok) (ofWorld w) (ofWorld w') := by
  cases e with
  | accept fd =>
    obtain ⟨-, -, rfl⟩ := World.step_accept h
    exact .refl
  | receive fd msg =>
    obtain ⟨-, ⟨-, rfl⟩ | ⟨-, m, am, hh, rfl⟩⟩ := World.step_receive h
    · exact .refl
    · rcases hh.node_cases with ⟨hnode, hhash⟩ | ⟨-, hnode, hhash⟩
      · simp only [ofWorld, hnode, hhash]
        exact .refl
      · have hrun := run_join hok (w := ofWorld w) rfl rfl fd
        simpa only [ofWorld, hnode, hhash] using hrun
  | detect fd =>
    rcases World.step_detect hk h with ⟨-, rfl⟩ | ⟨-, out, hd, rfl⟩
    · exact .refl
    · rcases hd.node_cases with ⟨hnode, hhash⟩ | ⟨b, hnode, hhash⟩ | ⟨hfd, hnode, hhash⟩
      · simp only [ofWorld, hnode, hhash]
        exact .refl
      · by_cases hfd : fd ∈ w.master.fdNode
        · refine .single ⟨.update (.replaceFd fd b), hok _ _ rfl, ?_⟩
          simp only [ofWorld, hnode, hhash, step, update]
          exact if_pos hfd
        · rw [List.idxOf_of_notMem hfd, List.set_eq_of_length_le le_rfl] at hnode
          simp only [ofWorld, hnode, hhash]
          exact .refl
      · have hrun := run_death hok (w := ofWorld w) rfl rfl hfd
        simpa only [ofWorld, hnode, hhash] using hrun
  | shrinkBegin =>
    obtain ⟨hidle, sh, e, hlast, -, -, rfl⟩ := World.step_shrinkBegin h
    have hne : w.master.fdNode ≠ [] := by
      rintro hnil
      rw [hnil] at hlast
      cases hlast
    have hrun := run_shrink hok (w := ofWorld w) (by simp [ofWorld, hidle]) rfl
      (List.length_pos_iff.mpr hne)
    simpa only [ofWorld, Option.isSome_some, if_true] using hrun
  | shrinkEnd =>
    obtain ⟨sh, out, hsh, -, hs, rfl⟩ := World.step_shrinkEnd h
    obtain ⟨hne, e, -, hout⟩ := Master.shrinkEnd_cases hs
    have hpos := List.length_pos_iff.mpr hne
    refine .single ⟨.update .popBack, hok _ _ rfl, ?_⟩
    rcases hout with ⟨-, -, rfl⟩ | ⟨-, rfl⟩ <;>
      simp [ofWorld, World.after, step, update, hsh, hpos]
  | tick =>
    cases h
    exact .refl

/-- Every run of the master is one of its threads, in which none interrupts another. -/
theorem reach_ofWorld (hok : ∀ w u, w.forClient = .idle → ok w (.update u))
    {okw : World → DistCache.Event → Prop} {w : World} (h : Reach World.Init World.step okw w) :
    Reach (· = start) step ok (ofWorld w) := by
  refine h.invariant (I := fun w => Reach (· = start) step ok (ofWorld w)) ?_ ?_
  · rintro _ ⟨t₀, rfl⟩
    exact .start rfl
  · intro w e w' hr hi _ hs
    exact hi.trans (run_ofWorld hok (World.keyed_of_reach hr) hs)

end AtOnce

end Threads

end DistCache
