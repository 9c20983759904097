import DistCache.Cluster
import DistCache.Master.Routing
import DistCache.RingHistory

/-!
Where the entries of a primary that is shrunk go.

The master edits one ring over the whole run, and looks a shard up in `fd_node`.  The cache that dies
computes a ring of its own from the list of the others, and looks a shard up in that list.  The two give
the same cache for every key (`targets_routed`), because without collisions the ring has no history, and
because the messages of the master keep the list in the order of `fd_node`.
-/

namespace DistCache

open Lib

/-! ### The ring without a history -/

/-- No two of the first `n` shards have a label at the same point. -/
def ConsistentHash.Apart (v n : ℕ) : Prop :=
  ∀ i₁ i₂, i₁ < i₂ → i₂ < n → ¬ ConsistentHash.Collide v i₁ i₂

namespace World

variable {w w' : World} {ev : Event}

/-- The ring of the master is the one over the primaries that stay. -/
def RingFresh (w : World) : Prop :=
  w.master.cacheAddrHash = ConsistentHash.initializeRing (Cluster.staying w).length 100

lemma ringFresh_iff_of_idle (hidle : w.shrinking = none) : w.RingFresh ↔
    w.master.cacheAddrHash = ConsistentHash.initializeRing w.master.fdNode.length 100 := by
  rw [RingFresh, Cluster.staying_of_idle hidle]

lemma ringFresh_iff_of_busy {sh : Shrink} (hbusy : w.shrinking = some sh) : w.RingFresh ↔
    w.master.cacheAddrHash = ConsistentHash.initializeRing w.master.fdNode.dropLast.length 100 := by
  rw [RingFresh, Cluster.staying_of_busy hbusy]

/-- The second half of a shrink takes the last primary off `fd_node`, whose shard is off the ring. -/
lemma ringFresh_shrinkEnd (hfresh : w.RingFresh) (h : w.step .shrinkEnd = some w') : w'.RingFresh := by
  obtain ⟨sh, out, hsh, -, hend, rfl⟩ := step_shrinkEnd h
  rw [ringFresh_iff_of_busy hsh] at hfresh
  refine (ringFresh_iff_of_idle rfl).mpr ?_
  obtain ⟨-, e, -, ⟨-, -, rfl⟩ | ⟨-, rfl⟩⟩ := Master.shrinkEnd_cases hend <;> exact hfresh

/-- In the wait of a shrink no first heartbeat comes and no cache is found dead. -/
def Calm (w : World) : Event → Prop
  | .receive fd msg => ∀ r e, w.master.First fd msg r e → w.shrinking = none
  | .detect _ => w.shrinking = none
  | _ => True

lemma ringFresh_step (hk : w.Keyed) (hfresh : w.RingFresh)
    (hapart : ConsistentHash.Apart 100 w.master.fdNode.length) (hcalm : w.Calm ev)
    (h : w.step ev = some w') : w'.RingFresh := by
  cases ev with
  | accept fd =>
    obtain ⟨-, -, rfl⟩ := step_accept h
    exact hfresh
  | receive fd msg =>
    obtain ⟨-, ⟨-, rfl⟩ | ⟨-, m, am, hh, rfl⟩⟩ := step_receive h
    · exact hfresh
    · rcases hh.node_cases with ⟨hnode, hhash⟩ | ⟨⟨e, hf⟩, hnode, hhash⟩
      · unfold RingFresh Cluster.staying at hfresh ⊢
        dsimp only
        rw [hnode, hhash]
        exact hfresh
      · have hidle := hcalm _ e hf
        refine (ringFresh_iff_of_idle (w := { w with master := m }) hidle).mpr ?_
        dsimp only
        rw [hnode, hhash, (ringFresh_iff_of_idle hidle).mp hfresh, List.length_append,
          List.length_singleton, ConsistentHash.initializeRing_succ]
  | detect fd =>
    have hidle : w.shrinking = none := hcalm
    rcases step_detect hk h with ⟨-, rfl⟩ | ⟨-, out, hd, rfl⟩
    · exact hfresh
    · rw [ringFresh_iff_of_idle hidle] at hfresh
      refine (ringFresh_iff_of_idle (w := { w with
        master := { out.master with cachesList := out.master.cachesList.erase fd }
        openFds := w.openFds \ out.closed.toFinset }) hidle).mpr ?_
      dsimp only
      rcases hd.node_cases with ⟨hnode, hhash⟩ | ⟨b, hnode, hhash⟩ | ⟨hmem, hnode, hhash⟩
      · rw [hnode, hhash, hfresh]
      · rw [hnode, hhash, hfresh, List.length_set]
      · obtain ⟨n, hn⟩ : ∃ n, w.master.fdNode.length = n + 1 :=
          Nat.exists_eq_succ_of_ne_zero (List.length_pos_of_mem hmem).ne'
        have hindex := List.idxOf_lt_length_of_mem hmem
        rw [hn] at hfresh hapart hindex
        rw [hnode, hhash, List.length_erase_of_mem hmem, hn, hfresh,
          ConsistentHash.deleteNode_initializeRing (by omega) hapart, Nat.add_sub_cancel]
  | shrinkBegin =>
    obtain ⟨hidle, sh, e, hlast, -, -, rfl⟩ := step_shrinkBegin h
    obtain ⟨l, hl⟩ := List.getLast?_eq_some_iff.mp hlast
    have hn : w.master.fdNode.length = l.length + 1 := by rw [hl, List.length_append, List.length_singleton]
    rw [ringFresh_iff_of_idle hidle, hn] at hfresh
    rw [hn] at hapart
    have hbusy : ∀ m, ({ w with master := m, shrinking := some sh } : World).shrinking = some sh :=
      fun m => rfl
    refine (ringFresh_iff_of_busy (hbusy _)).mpr ?_
    dsimp only
    rw [List.length_dropLast, hfresh, hn, Nat.add_sub_cancel,
      ConsistentHash.deleteNode_initializeRing le_rfl hapart]
  | shrinkEnd => exact ringFresh_shrinkEnd hfresh h
  | tick =>
    cases h
    exact hfresh

end World

/-! ### The cache that dies -/

/-- Once its status is `K`, no message changes a cache. -/
lemma Cache.foldlM_receive_of_dying {c c' : Cache} {flowOff : Str → ℤ} {inbox : List Str}
    (hflag : c.initialFlag = true) (hstatus : c.status = lit "K")
    (h : inbox.foldlM (Cache.receive flowOff) c = some c') : c = c' := by
  induction inbox with
  | nil =>
    cases h
    rfl
  | cons message inbox ih =>
    rw [List.foldlM_cons, Option.bind_eq_bind, Option.bind_eq_some_iff] at h
    obtain ⟨c₁, h₁, h⟩ := h
    rw [receive, if_pos hflag, readFromMaster, Option.bind_eq_bind, Option.bind_eq_some_iff] at h₁
    obtain ⟨spear, -, h₁⟩ := h₁
    rw [if_pos hstatus] at h₁
    cases h₁
    exact ih h

namespace Cluster

variable {c c' : Cluster} {flowOff : Str → ℤ} {fd : ℤ} {e : Event}

/-- No two shards in play collide. -/
def LabelsApart (c : Cluster) : Prop := ConsistentHash.Apart 100 c.world.master.fdNode.length

/-- The ring of the master is the fresh one, every cache has the status `P` until it has read a message,
and the primary that is shrunk will have the list of those that stay when it has read what was sent to
it. -/
structure Doomed (flowOff : Str → ℤ) (c : Cluster) : Prop where
  fresh : c.world.RingFresh
  unread : ∀ a p, c.procs a = some p → p.cache.initialFlag = true ∨ p.cache.status = lit "P"
  doomed : ∀ sh ∈ c.world.shrinking, ∀ p, c.procs sh.fd = some p →
    Drains (Cache.receive flowOff) p.cache p.inbox
      (Cache.Dying ((staying c.world).map c.addr))

lemma doomed_init (hi : Init c) : c.Doomed flowOff := by
  obtain ⟨t₀, rfl⟩ := hi
  refine ⟨rfl, fun a p hp => ?_, fun sh hsh => ?_⟩
  · cases hp
  · cases hsh

/-- Sending messages changes no cache. -/
lemma unread_post {w' : World} {sends : List (ℤ × Str)}
    (h : ∀ a p, c.procs a = some p → p.cache.initialFlag = true ∨ p.cache.status = lit "P") :
    ∀ a p, (⟨w', post c.procs sends⟩ : Cluster).procs a = some p →
      p.cache.initialFlag = true ∨ p.cache.status = lit "P" := by
  intro a p hp
  obtain ⟨q, hq, rfl⟩ := Option.map_eq_some_iff.mp hp
  exact h a q hq

/-- The ring after a piece of a thread of the master. -/
lemma Doomed.ringFresh {ev : DistCache.Event} (hd : c.Doomed flowOff) (hi : c.Agree flowOff)
    (hapart : c.LabelsApart) (hcalm : c.world.Calm ev) (h : c.master ev = some c') :
    c'.world.RingFresh :=
  World.ringFresh_step hi.keyed hd.fresh hapart hcalm (world_step h)

lemma Doomed.accept {size : ℤ} {ip portClient portCache : Field} (hd : c.Doomed flowOff)
    (hi : c.Agree flowOff) (hapart : c.LabelsApart)
    (h : c.step flowOff (.accept fd size ip portClient portCache) = some c') : c'.Doomed flowOff := by
  obtain ⟨hfd, hstep, hmaster, hshrinking, hnew, hprocs⟩ := step_accept h
  have hstay : staying c'.world = staying c.world := by
    unfold staying
    rw [hshrinking, hmaster]
    rfl
  have hcalm : c.world.Calm (.accept fd) := trivial
  refine ⟨World.ringFresh_step hi.keyed hd.fresh hapart hcalm hstep, ?_, ?_⟩
  · intro a p hp
    by_cases ha : a = fd
    · subst ha
      rw [hnew, Option.some.injEq] at hp
      subst hp
      exact .inr rfl
    · exact hd.unread a p ((hprocs a ha).symm.trans hp)
  · intro sh hsh p hp
    rw [hshrinking] at hsh
    have haddr : ∀ a ∈ staying c.world, c'.addr a = c.addr a := fun a ha =>
      addr_congr (hprocs a (hi.ne_of_not_open hfd (mem_of_staying ha)))
    have hne := hi.ne_of_not_open hfd (List.mem_of_getLast? (hi.last sh hsh))
    rw [hstay, List.map_congr_left haddr]
    exact hd.doomed sh hsh p ((hprocs _ hne).symm.trans hp)

lemma Doomed.deliver (hd : c.Doomed flowOff) (h : c.step flowOff (.deliver fd) = some c') :
    c'.Doomed flowOff := by
  obtain ⟨p, message, rest, cache, hp, hinbox, hcache, hworld, hself, hother⟩ := step_deliver h
  refine ⟨hworld ▸ hd.fresh, ?_, ?_⟩
  · intro a q hq
    by_cases ha : a = fd
    · subst ha
      rw [hself, Option.some.injEq] at hq
      subst hq
      exact .inl (Cache.initialFlag_receive hcache)
    · exact hd.unread a q ((hother a ha).symm.trans hq)
  · intro sh hsh q hq
    rw [hworld] at hsh
    rw [hworld, addr_deliver h]
    by_cases ha : sh.fd = fd
    · rw [ha, hself, Option.some.injEq] at hq
      subst hq
      have hdrains := hd.doomed sh hsh p (ha ▸ hp)
      rw [hinbox] at hdrains
      exact hdrains.deliver hcache
    · exact hd.doomed sh hsh q ((hother _ ha).symm.trans hq)

lemma Doomed.heartbeat (hd : c.Doomed flowOff) (hi : c.Agree flowOff) (hok : c.Orderly (.heartbeat fd))
    (hapart : c.LabelsApart) (h : c.step flowOff (.heartbeat fd) = some c') : c'.Doomed flowOff := by
  simp only [step, Option.bind_eq_bind, Option.bind_eq_some_iff] at h
  obtain ⟨p, hp, h⟩ := h
  have hcalm : c.world.Calm (.receive fd p.cache.heartMessage) := fun r e hf => by
    obtain ⟨it, hit, hnew, -⟩ := hf.lookup
    exact (hok (by rw [hit, Option.map_some, hnew])).1
  have hfresh := hd.ringFresh hi hapart hcalm h
  obtain ⟨out, hout, hc'⟩ := master_receive rfl h
  refine ⟨hfresh, ?_, ?_⟩
  · rw [hc']
    exact unread_post hd.unread
  · intro sh hsh q hq
    have hbusy : sh ∈ c.world.shrinking := by
      rw [hc'] at hsh
      exact hsh
    -- no cache joins in the wait of a shrink, so the heartbeat is answered and nothing else is sent
    have hmem : fd ∈ c.world.master.fdNode := by
      simp only [Master.heartbeat, Option.bind_eq_bind, Option.bind_eq_some_iff] at hout
      obtain ⟨f, hf, -⟩ := hout
      obtain ⟨hmem, -⟩ | ⟨-, rfl⟩ := hi.record_cases hf
      · exact hmem
      · have hidle := (hok (by rw [hf]; rfl)).1
        rw [hidle] at hbusy
        cases hbusy
    obtain ⟨am, rfl⟩ := hi.master_again hmem rfl h
    obtain ⟨q, hold, rfl⟩ := Option.map_eq_some_iff.mp hq
    rw [addr_post]
    refine (hd.doomed sh hbusy q hold).append fun cache hcache => ?_
    rw [addressed_cons, addressed_nil]
    split_ifs
    · exact drains_singleton.mpr ⟨cache, hcache.ignores flowOff (by decide), hcache⟩
    · exact drains_nil.mpr hcache

/-- The primary that is chosen is told so last. -/
lemma Doomed.shrinkBegin (hd : c.Doomed flowOff) (hi : c.Agree flowOff) (hapart : c.LabelsApart)
    (h : c.master .shrinkBegin = some c') : c'.Doomed flowOff := by
  have hcalm : c.world.Calm .shrinkBegin := trivial
  have hfresh := hd.ringFresh hi hapart hcalm h
  obtain ⟨r, hr, rfl⟩ := Option.map_eq_some_iff.mp h
  simp only [World.exec] at hr
  split_ifs at hr with hidle
  obtain ⟨⟨out, sh⟩, hout, rfl⟩ := Option.map_eq_some_iff.mp hr
  obtain ⟨hlast, f, he, -, rfl⟩ := Master.shrinkBegin_cases hout
  have hmem : sh.fd ∈ c.world.master.fdNode := List.mem_of_getLast? hlast
  refine ⟨hfresh, unread_post hd.unread, ?_⟩
  intro sh' hsh' p hp
  cases hsh'
  obtain ⟨q, hq, rfl⟩ := Option.map_eq_some_iff.mp hp
  obtain ⟨q', hq', hprim, hrec⟩ := hi.node sh.fd hmem
  rw [hq, Option.some.injEq] at hq'
  subst hq'
  rw [he, Option.some.injEq] at hrec
  subst hrec
  have hown : c.addr sh.fd = q.cache.cacheAddr := addr_of_procs hq
  have hlists := hi.lists sh.fd (staying_of_idle hidle ▸ hmem) q hq
  rw [staying_of_idle hidle] at hlists
  rw [addr_post]
  refine hlists.append fun cache hcache => ?_
  rw [addressed_broadcast hi.nodup, if_pos hmem, drains_singleton]
  have hlist : (staying { c.world with shrinking := some sh }).map c.addr =
      (c.world.master.fdNode.map c.addr).erase (c.addr sh.fd) := by
    rw [map_erase_of_nodup hi.distinct hmem, ← hi.dropLast_eq_erase hlast]
    rfl
  have hdying := hcache.dying flowOff (hown ▸ hprim.addr) (List.mem_map_of_mem hmem)
  rw [← hlist, hown] at hdying
  exact hdying

/-- Where no shrink is in its wait afterwards, there is nobody that dies. -/
lemma Doomed.of_idle {ev : DistCache.Event} (hd : c.Doomed flowOff) (hi : c.Agree flowOff)
    (hapart : c.LabelsApart) (hidle : c'.world.shrinking = none) (hcalm : c.world.Calm ev)
    (h : c.master ev = some c') : c'.Doomed flowOff := by
  have hfresh := hd.ringFresh hi hapart hcalm h
  obtain ⟨r, -, rfl⟩ := Option.map_eq_some_iff.mp h
  refine ⟨hfresh, unread_post hd.unread, fun sh hsh => ?_⟩
  rw [hidle] at hsh
  cases hsh

lemma Doomed.tick (hd : c.Doomed flowOff) (hi : c.Agree flowOff) (hapart : c.LabelsApart)
    (h : c.master .tick = some c') : c'.Doomed flowOff := by
  have hcalm : c.world.Calm .tick := trivial
  have hfresh := hd.ringFresh hi hapart hcalm h
  obtain ⟨r, hr, rfl⟩ := Option.map_eq_some_iff.mp h
  cases hr
  refine ⟨hfresh, unread_post hd.unread, ?_⟩
  dsimp only
  rw [post_nil]
  exact hd.doomed

lemma Doomed.step (hd : c.Doomed flowOff) (hi : c.Agree flowOff) (hok : c.Orderly e)
    (hapart : c.LabelsApart) (h : c.step flowOff e = some c') : c'.Doomed flowOff := by
  cases e with
  | accept => exact hd.accept hi hapart h
  | heartbeat => exact hd.heartbeat hi hok hapart h
  | deliver => exact hd.deliver h
  | detect fd =>
    have hidle : c.world.shrinking = none := hok
    have hcalm : c.world.Calm (.detect fd) := hidle
    refine hd.of_idle hi hapart ?_ hcalm h
    rcases World.step_detect hi.keyed (world_step h) with ⟨-, hw⟩ | ⟨-, out, -, hw⟩ <;>
      rw [hw] <;> exact hidle
  | shrinkBegin => exact hd.shrinkBegin hi hapart h
  | shrinkEnd =>
    have hcalm : c.world.Calm .shrinkEnd := trivial
    refine hd.of_idle hi hapart ?_ hcalm h
    obtain ⟨sh, out, -, -, -, hw⟩ := World.step_shrinkEnd (world_step h)
    rw [hw]
  | tick => exact hd.tick hi hapart h

/-! ### The targets -/

/-- The loop of `cal_hash_key` over the ring of the list finds the entry of the shard of each key. -/
lemma targets_initializeRing {l : List (Str × Str)} (hne : l ≠ []) (hl : ∀ x ∈ l, IsAddr x)
    (keys : List Str) : ∃ others,
      Cache.targets (.initializeRing l.length 100) (l.map joinAddr) keys = some others ∧
      others.length = keys.length ∧ ∀ (i : ℕ) k, keys[i]? = some k → ∃ (j : ℕ) (x : Str × Str),
        (ConsistentHash.initializeRing l.length 100).owner k = some j ∧ l[j]? = some x ∧
          others[i]? = some x := by
  have hpos : 0 < l.length := List.length_pos_iff.mpr hne
  have howner : ∀ k, ∃ (j : ℕ) (x : Str × Str),
      (ConsistentHash.initializeRing l.length 100).owner k = some j ∧ l[j]? = some x := fun k => by
    obtain ⟨j, hj, ho⟩ := ConsistentHash.owner_initializeRing (v := 100) hpos (by decide) k
    exact ⟨j, l[j], ho, List.getElem?_eq_getElem hj⟩
  refine ⟨keys.map fun k => (((ConsistentHash.initializeRing l.length 100).owner k).bind
    fun j => l[j]?).getD default, mapM_eq_some_map fun k _ => ?_, List.length_map _, fun i k hk => ?_⟩
  · obtain ⟨j, x, ho, hx⟩ := howner k
    have hslice : slice (joinAddr x) = some x :=
      slice_append (hl x (List.mem_of_getElem? hx)).ip.sharp_free x.2
    obtain ⟨point, hpoint, hidx⟩ := Option.bind_eq_some_iff.mp ho
    simp only [hpoint, hidx, ho, hx, hslice, List.getElem?_map, Option.map_some, Option.bind_eq_bind,
      Option.bind_some, Option.getD_some]
  · obtain ⟨j, x, ho, hx⟩ := howner k
    refine ⟨j, x, ho, hx, ?_⟩
    rw [List.getElem?_map, hk, Option.map_some, ho, Option.bind_some, hx, Option.getD_some]

/-- The cache that the plan `c` of a migration names for its `i`-th key is the one that the master routes
the key `k` to. -/
def Routed (c' : Cluster) (c : Cache) (i : ℕ) (k : Str) : Prop :=
  ∃ fd q, c'.world.master.lookupFd k = some fd ∧ c'.procs fd = some q ∧
    c'.world.master.handleClientMessage k = some q.cache.address ∧
    (c'.world.master.cachesList.lookup fd).map FdMap.ipCache = some (joinAddr q.cache.cacheAddr) ∧
    c.otherIP[i]? = some q.cache.localCacheIP ∧ c.otherPort[i]? = some q.cache.portForCache

/-- A primary in `fd_node` answers for the keys of its position. -/
lemma Agree.route {k : Str} {j : ℕ} (hi : c.Agree flowOff)
    (ho : c.world.master.cacheAddrHash.owner k = some j) (hfd : c.world.master.fdNode[j]? = some fd) :
    ∃ q, c.procs fd = some q ∧ c.addr fd = q.cache.cacheAddr ∧
      c.world.master.lookupFd k = some fd ∧
      c.world.master.handleClientMessage k = some q.cache.address ∧
      (c.world.master.cachesList.lookup fd).map FdMap.ipCache = some (joinAddr q.cache.cacheAddr) := by
  obtain ⟨q, hq, hprim, hrec⟩ := hi.node fd (List.mem_of_getElem? hfd)
  have hroute : c.world.master.lookupFd k = some fd := by
    rw [Master.lookupFd, Master.lookupIndex_eq_owner, ho, Option.bind_eq_bind, Option.bind_some, hfd]
  have hip : IsField q.cache.localCacheIP := hprim.addr.ip
  have hrecord : (c.world.master.cachesList.lookup fd).map FdMap.ipPort =
      some (q.cache.localCacheIP ++ sharp :: q.cache.portForClient) := by
    rw [hrec]
    rfl
  refine ⟨q, hq, addr_of_procs hq, hroute, World.handleClientMessage_of_lookupFd hroute hrecord ?_, ?_⟩
  · rw [splitSharp_pair hip hprim.portForClient]
    rfl
  · rw [hrec]
    rfl

/-- A cache whose list is that of the primaries names for every key the one that the master routes the key
to. -/
lemma Agree.plan_routed {cache : Cache} (hi : c.Agree flowOff) (hidle : c.world.shrinking = none)
    (hfresh : c.world.RingFresh) (hpos : 0 < c.world.master.fdNode.length)
    (hlist : cache.cacheList = c.world.master.fdNode.map c.addr) (keys : List Str) :
    ∃ planned, cache.calHashKey keys = some planned ∧ planned.outKey = keys ∧
      planned.otherIP.length = keys.length ∧ planned.otherPort.length = keys.length ∧
      ∀ (i : ℕ) k, keys[i]? = some k → c.Routed planned i k := by
  have hne : c.world.master.fdNode.map c.addr ≠ [] :=
    List.ne_nil_of_length_pos (by rw [List.length_map]; exact hpos)
  have hall : ∀ x ∈ c.world.master.fdNode.map c.addr, IsAddr x := by
    intro x hx
    obtain ⟨a, ha, rfl⟩ := List.mem_map.mp hx
    obtain ⟨q, hq, hprim, -⟩ := hi.node a ha
    exact addr_of_procs hq ▸ hprim.addr
  obtain ⟨others, hothers, hlen, hkeys⟩ := targets_initializeRing hne hall keys
  have hplan : cache.calHashKey keys = some { cache with
      otherIP := others.map Prod.fst
      otherPort := others.map Prod.snd
      outKey := keys } := by
    have hcaches : (cache.cacheList.map fun it => it.1 ++ sharp :: it.2) =
        (c.world.master.fdNode.map c.addr).map joinAddr := by
      rw [hlist]
      rfl
    rw [Cache.calHashKey, hcaches, List.length_map, hothers]
    rfl
  refine ⟨_, hplan, rfl, by rw [List.length_map, hlen], by rw [List.length_map, hlen], fun i k hk => ?_⟩
  obtain ⟨j, x, ho, hx, hother⟩ := hkeys i k hk
  rw [List.getElem?_map, Option.map_eq_some_iff] at hx
  obtain ⟨fd, hfd, rfl⟩ := hx
  rw [List.length_map, ← (World.ringFresh_iff_of_idle hidle).mp hfresh] at ho
  obtain ⟨q, hq, haddr, hroute, hclient, hcacheAddr⟩ := hi.route ho hfd
  refine ⟨fd, q, hroute, hq, hclient, hcacheAddr, ?_, ?_⟩
  · rw [List.getElem?_map, hother, haddr]
    rfl
  · rw [List.getElem?_map, hother, haddr]
    rfl

/-- At the end of a shrink the primaries are left that stayed in its wait. -/
lemma left_of_shrinkEnd {sh : Shrink} (hsh : c.world.shrinking = some sh)
    (h : c.step flowOff .shrinkEnd = some c') : c'.world.shrinking = none ∧
      c'.world.master.fdNode = staying c.world ∧ c'.addr = c.addr := by
  have hleft : c'.world.shrinking = none ∧ c'.world.master.fdNode = staying c.world := by
    obtain ⟨sh', out, hsh', -, hend, hw⟩ := World.step_shrinkEnd (world_step h)
    rw [hw, staying_of_busy hsh]
    obtain ⟨-, e, -, ⟨-, -, rfl⟩ | ⟨-, rfl⟩⟩ := Master.shrinkEnd_cases hend <;> exact ⟨rfl, rfl⟩
  refine ⟨hleft.1, hleft.2, ?_⟩
  obtain ⟨r, -, rfl⟩ := Option.map_eq_some_iff.mp h
  exact addr_post

/-- **Migration.**  When a primary that is not the only one is shrunk, it has read what it was sent as a
list of the others, and for every key it names the cache that the master then routes the key to. -/
theorem targets_routed {sh : Shrink}
    (hr : Reach Init (step flowOff) (fun c e => c.Orderly e ∧ c.LabelsApart) c)
    (hsh : c.world.shrinking = some sh) (hmany : 1 < c.world.master.fdNode.length)
    (h : c.step flowOff .shrinkEnd = some c') : ∃ p cache, c.procs sh.fd = some p ∧
      p.inbox.foldlM (Cache.receive flowOff) p.cache = some cache ∧ cache.status = lit "K" ∧
      (p.cache.status = lit "K" → p.cache = cache) ∧
      ∀ keys, ∃ planned, cache.calHashKey keys = some planned ∧ planned.outKey = keys ∧
        planned.otherIP.length = keys.length ∧ planned.otherPort.length = keys.length ∧
        ∀ (i : ℕ) k, keys[i]? = some k → c'.Routed planned i k := by
  obtain ⟨hi, hd⟩ : c.Agree flowOff ∧ c.Doomed flowOff :=
    hr.invariant (I := fun c => c.Agree flowOff ∧ c.Doomed flowOff)
      (fun _ h₀ => ⟨agree_init h₀, doomed_init h₀⟩) fun _ _ _ _ hi hok hs =>
        ⟨hi.1.step hok.1 hs, hi.2.step hi.1 hok.1 hok.2 hs⟩
  have hi' : c'.Agree flowOff := hi.shrinkEnd h
  have hfresh' := World.ringFresh_shrinkEnd hd.fresh (world_step h)
  obtain ⟨hidle, hleft, haddr⟩ := left_of_shrinkEnd hsh h
  have hpos : 0 < c'.world.master.fdNode.length := by
    rw [hleft, staying_of_busy hsh, List.length_dropLast]
    omega
  obtain ⟨p, hp, -⟩ := hi.node sh.fd (List.mem_of_getLast? (hi.last sh hsh))
  obtain ⟨cache, hcache, hdying⟩ := hd.doomed sh hsh p hp
  have hlist : cache.cacheList = c'.world.master.fdNode.map c'.addr := by
    rw [hdying.list, hleft, haddr]
  refine ⟨p, cache, hp, hcache, hdying.status, fun hK => ?_, hi'.plan_routed hidle hfresh' hpos hlist⟩
  have hflag := (hd.unread sh.fd p hp).resolve_right (by rw [hK]; decide)
  exact Cache.foldlM_receive_of_dying hflag hK hcache

/-! ### A run -/

lemma apart_of_le_two {n : ℕ} (hn : n ≤ 2) : ConsistentHash.Apart 100 n := by
  rintro i₁ i₂ hlt hle ⟨p, ⟨j, hj, hp⟩, ⟨j', hj', hp'⟩⟩
  have honly := ConsistentHash.onlyLabel_two i₁ (by omega) j hj
  have heq := honly.2 i₂ (by omega) j' hj' (hp'.trans hp.symm)
  omega

/-- Two primaries join, the second one is chosen by a shrink, is told so, and falls silent. -/
def secondShrunk : List Event :=
  firstDies.take 4 ++ [.shrinkBegin, .tick, .deliver 6, .deliver 6, .deliver 6, .deliver 6,
    .tick, .tick, .tick, .tick]

theorem targets_routed_second : ∃ c c' planned,
    path (step fun _ => 0) (fun c e => c.Orderly e ∧ c.world.master.fdNode.length ≤ 2)
      ⟨World.start 1638316800, fun _ => none⟩ secondShrunk = some c ∧
    c.step (fun _ => 0) .shrinkEnd = some c' ∧ planned.outKey = [lit "k"] ∧
    c'.Routed planned 0 (lit "k") := by
  have hrun : (path (step fun _ => 0) (fun c e => c.Orderly e ∧ c.world.master.fdNode.length ≤ 2)
      ⟨World.start 1638316800, fun _ => none⟩ secondShrunk).map (fun c =>
        (c.world.shrinking.map Shrink.fd, c.world.master.fdNode,
          (c.step (fun _ => 0) .shrinkEnd).isSome)) = some (some 6, [5, 6], true) := by
    decide +kernel
  obtain ⟨c, hc, hf⟩ := Option.map_eq_some_iff.mp hrun
  rw [Prod.mk.injEq, Prod.mk.injEq] at hf
  obtain ⟨hsh, hnode, hend⟩ := hf
  obtain ⟨sh, hsh, -⟩ := Option.map_eq_some_iff.mp hsh
  obtain ⟨c', hc'⟩ := Option.isSome_iff_exists.mp hend
  have hr : Reach Init (step fun _ => 0) (fun c e => c.Orderly e ∧ c.LabelsApart) c :=
    (reach_of_path ⟨_, rfl⟩ hc).mono fun _ _ hok => ⟨hok.1, apart_of_le_two hok.2⟩
  obtain ⟨p, cache, -, -, -, -, hplans⟩ := targets_routed hr hsh (by rw [hnode]; decide) hc'
  obtain ⟨planned, -, hkeys, -, -, hrouted⟩ := hplans [lit "k"]
  exact ⟨c, c', planned, hc, hc', hkeys, hrouted 0 (lit "k") rfl⟩

end Cluster

end DistCache
