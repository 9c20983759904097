import DistCache.Cache.Messages
import DistCache.Cache.Migration

/-!
A shrink and the clients: the dying cache, the new owner of its keys, and the master that sends the
clients to the one or the other.

The entries that migrate carry no version, so the new owner stores what it receives over what it
has.  That is the value the dying cache held when it read the entry; it is the value of the latest
client write when this one was accepted by the dying cache, before the entry was read.
-/

namespace DistCache

open Lib

/-- Whom the master sends a client to. -/
inductive Side where
  | dying
  | owner
  | other
  deriving DecidableEq

/-- A message on its way from the dying cache to the new owner, with the entry it was made from. -/
structure Mail where
  key : Str
  entry : Option Str
  message : Str

/-- The master's ring, the two caches, and what is on its way. -/
structure Handover where
  ring : ConsistentHash
  /-- The shard of the dying cache, which is the last one. -/
  lastShard : ℕ
  /-- The shard of the new owner. -/
  ownerShard : ℕ
  /-- The master has taken the dying cache off its ring and announced the shrink. -/
  announced : Bool
  dying : Migration
  owner : Cache
  /-- The requests of the clients that know where to go, not served yet. -/
  requests : List (Side × Str)
  mail : List Mail
  /-- The client writes that were accepted, the latest first. -/
  writes : List (Str × Str)
  /-- The keys whose latest write was accepted by another cache than the dying one. -/
  elsewhere : List Str

/-- The value of the latest client write to a key. -/
def latest (writes : List (Str × Str)) (key : Str) : Option Str :=
  (writes.find? fun e => e.1 = key).map Prod.snd

namespace Handover

inductive Event where
  /-- A client asks the master where a request goes to. -/
  | ask (message : Str)
  /-- The request is served there. -/
  | serve (side : Side) (message : Str)
  /-- `shrinkageCapacity`: `deleteNode` and the broadcast. -/
  | shrink
  /-- The broadcast reaches the dying cache. -/
  | tellDying
  /-- The broadcast reaches the new owner. -/
  | tellOwner
  /-- The dying cache takes the snapshot of its keys. -/
  | snapshot (keys : List Str)
  /-- The dying cache sends an entry. -/
  | send
  /-- The dying cache exits. -/
  | exit
  /-- `from_single_cache` of the new owner stores the entry of a message on its way. -/
  | store (i : ℕ)

/-- Where the master sends a request: to the cache that its key belongs to. -/
def route (h : Handover) (message : Str) : Option Side := do
  let index ← h.ring.owner (message.take (spear message))
  return if index = h.lastShard then .dying else if index = h.ownerShard then .owner else .other

/-- The broadcast of the shrink. -/
def killMessage (h : Handover) : Str :=
  lit "K#" ++ h.dying.cache.localCacheIP ++ sharp :: h.dying.cache.portForCache

/-- The address of the new owner for other caches. -/
def ownerAddress (h : Handover) : Str × Str := (h.owner.localCacheIP, h.owner.portForCache)

/-- What is known of the writes after a request is served. -/
def record (h : Handover) (side : Side) (message : Str) : Handover :=
  match writeOf message with
  | none => h
  | some (key, val) => { h with
      writes := (key, val) :: h.writes
      elsewhere :=
        if side = .dying then h.elsewhere.filter (· ≠ key) else key :: h.elsewhere }

/-- A request is served. -/
def serve (h : Handover) (side : Side) (message : Str) : Option Handover :=
  let h := { h with requests := h.requests.erase (side, message) }
  match side with
  | .dying => (h.dying.step (.client message)).map fun d => { h.record side message with dying := d }
  | .owner => (h.owner.clientChat message).map fun r => { h.record side message with owner := r.1 }
  | .other => some (h.record side message)

/-- The dying cache sends the entry of its turn.  Only what goes to the new owner is followed. -/
def send (h : Handover) : Option Handover :=
  match h.dying.phase with
  | .sending i => do
    let d ← h.dying.step .send
    let key ← h.dying.cache.outKey[i]?
    let address ← h.dying.target i
    let mail : Mail := ⟨key, h.dying.cache.mainCache.lookup key, (h.dying.cache.toSingleCache key).1⟩
    return { h with
      dying := d
      mail := if address = h.ownerAddress then h.mail ++ [mail] else h.mail }
  | _ => none

/-- The system after an event.  `from_single_cache` listens when its cache is a primary that knows
of a dying cache. -/
def step (flowOff : Str → ℤ) (h : Handover) : Event → Option Handover
  | .ask message => do
    let side ← h.route message
    return { h with requests := (side, message) :: h.requests }
  | .serve side message => if (side, message) ∈ h.requests then h.serve side message else none
  | .shrink =>
    if h.announced then none
    else some { h with ring := h.ring.deleteNode h.lastShard, announced := true }
  | .tellDying =>
    if h.announced then
      (h.dying.cache.readFromMaster flowOff h.killMessage).map fun c =>
        { h with dying := { h.dying with cache := c } }
    else none
  | .tellOwner =>
    if h.announced then
      (h.owner.readFromMaster flowOff h.killMessage).map fun c => { h with owner := c }
    else none
  | .snapshot keys => (h.dying.step (.snapshot keys)).map fun d => { h with dying := d }
  | .send => h.send
  | .exit => (h.dying.step .exit).map fun d => { h with dying := d }
  | .store i =>
    if h.owner.status = lit "P" ∧ h.owner.dyingCacheIP ≠ [] ∧ h.owner.dyingCachePort ≠ [] then do
      let mail ← h.mail[i]?
      let c ← h.owner.fromSingleCache mail.message
      return { h with owner := c, mail := h.mail.eraseIdx i }
    else none

/-- Two new primaries among the caches `list`, on the ring of the master. -/
def Init (h : Handover) : Prop :=
  ∃ ring lastShard ownerShard size₁ ip₁ portClient₁ portCache₁ size₂ ip₂ portClient₂ portCache₂ list,
    h = {
      ring := ring
      lastShard := lastShard
      ownerShard := ownerShard
      announced := false
      dying := ⟨{ Cache.new size₁ (lit "P") ip₁ portClient₁ portCache₁ with cacheList := list },
        .start, [], []⟩
      owner := { Cache.new size₂ (lit "P") ip₂ portClient₂ portCache₂ with cacheList := list }
      requests := []
      mail := []
      writes := []
      elsewhere := [] }

/-! ### What the messages carry -/

variable {flowOff : Str → ℤ} {h h' : Handover} {message k : Str} {m : Mail} {i : ℕ} {e : Event}

lemma latest_cons {writes : List (Str × Str)} {key val : Str} :
    latest ((key, val) :: writes) k = if k = key then some val else latest writes k := by
  unfold latest
  rw [List.find?_cons]
  by_cases hk : k = key
  · simp [hk]
  · simp [hk, Ne.symm hk]

/-- The turn of the key is past. -/
def Past (d : Migration) (k : Str) : Prop :=
  ∃ j, d.cache.outKey[j]? = some k ∧ (d.phase = .exited ∨ ∃ i, d.phase = .sending i ∧ j < i)

/-- The message carries the entry it was made from, and what it says of the latest write. -/
structure Carries (d : Migration) (writes : List (Str × Str)) (elsewhere : List Str) (m : Mail) :
    Prop where
  free : sharp ∉ m.key
  message : m.message = m.key ++ sharp :: m.entry.getD []
  past : Past d m.key
  latest : ∀ v, m.entry = some v → m.key ∉ elsewhere → m.key ∉ d.written →
    latest writes m.key = some v

/-- What the dying cache holds is the latest write, when no other cache was written to; and its
messages are true. -/
structure Inv (h : Handover) : Prop where
  capacity : 1 ≤ h.owner.mainCache.capacity
  keys : ∀ k v, h.dying.cache.mainCache.lookup k = some v → sharp ∉ k
  outKey : h.dying.phase ≠ .start → h.dying.cache.outKey.Nodup ∧
    ∀ k ∈ h.dying.cache.outKey, sharp ∉ k
  held : ∀ k v, h.dying.cache.mainCache.lookup k = some v → k ∉ h.elsewhere →
    latest h.writes k = some v
  mail : ∀ m ∈ h.mail, Carries h.dying h.writes h.elsewhere m

lemma inv_init (hi : Init h) : h.Inv := by
  obtain ⟨_, _, _, _, _, _, _, _, _, _, _, _, rfl⟩ := hi
  have hempty : ∀ {k : Str} {v : Str}, (LruCache.new LruCache.defaultCapacity :
      LruCache Str Str).lookup k ≠ some v := by
    intro k v hv
    simp [LruCache.lookup, LruCache.new] at hv
  exact ⟨show (1 : ℤ) ≤ 10 by decide, fun k v hv => absurd hv hempty, fun hne => absurd rfl hne,
    fun k v hv => absurd hv hempty, fun m hm => absurd hm List.not_mem_nil⟩

/-! ### Requests -/

/-- A write elsewhere. -/
lemma Inv.record {side : Side} (hi : h.Inv) (hside : side ≠ .dying) :
    (h.record side message).Inv := by
  unfold Handover.record
  split
  next => exact hi
  next key val hwrite =>
    rw [if_neg hside]
    refine ⟨hi.capacity, hi.keys, hi.outKey, ?_, ?_⟩
    · intro k v hv hk
      dsimp only at hk ⊢
      rw [List.mem_cons, not_or] at hk
      rw [latest_cons, if_neg hk.1]
      exact hi.held k v hv hk.2
    · intro m hm
      have hc := hi.mail m hm
      refine ⟨hc.free, hc.message, hc.past, ?_⟩
      intro v hv hk hwritten
      rw [List.mem_cons, not_or] at hk
      rw [latest_cons, if_neg hk.1]
      exact hc.latest v hv hk.2 hwritten

/-- A request to the dying cache. -/
lemma Inv.serve_dying {d : Migration} (hi : h.Inv) (hs : h.dying.serve message = some d) :
    Inv { h.record .dying message with dying := d } := by
  unfold Handover.record
  obtain ⟨mc, rfl, ⟨hno, hlookup⟩ | ⟨key, val, hwrite, rfl⟩⟩ := Migration.serve_cases hs
  · rw [hno]
    refine ⟨hi.capacity, ?_, hi.outKey, ?_, ?_⟩
    · intro k v hv
      exact hi.keys k v ((hlookup k).symm.trans hv)
    · intro k v hv
      exact hi.held k v ((hlookup k).symm.trans hv)
    · intro m hm
      have hc := hi.mail m hm
      exact ⟨hc.free, hc.message, hc.past, hc.latest⟩
  · rw [hwrite]
    refine ⟨hi.capacity, ?_, hi.outKey, ?_, ?_⟩
    · intro k v hv
      rcases LruCache.lookup_put hv with ⟨rfl, -⟩ | ⟨-, hold⟩
      · exact sharp_not_mem_of_writeOf hwrite
      · exact hi.keys k v hold
    · intro k v hv hk
      dsimp only at hk ⊢
      rw [if_pos rfl] at hk
      rw [latest_cons]
      rcases LruCache.lookup_put hv with ⟨rfl, rfl⟩ | ⟨hne, hold⟩
      · rw [if_pos rfl]
      · rw [if_neg hne]
        exact hi.held k v hold fun hmem => hk (by simpa [hne] using hmem)
    · intro m hm
      have hc := hi.mail m hm
      refine ⟨hc.free, hc.message, hc.past, ?_⟩
      intro v hv hk hwritten
      dsimp only at hk hwritten ⊢
      rw [if_pos rfl] at hk
      simp only [Option.map_some, Option.toList_some, List.singleton_append, List.mem_cons,
        not_or] at hwritten
      rw [latest_cons, if_neg hwritten.1]
      exact hc.latest v hv (fun hmem => hk (by simpa [hwritten.1] using hmem)) hwritten.2

/-- A request is served. -/
lemma Inv.serve {side : Side} (hi : h.Inv) (hs : h.serve side message = some h') : h'.Inv := by
  have hi' : Inv { h with requests := h.requests.erase (side, message) } :=
    ⟨hi.capacity, hi.keys, hi.outKey, hi.held, hi.mail⟩
  unfold Handover.serve at hs
  cases side with
  | dying =>
    obtain ⟨d, hd, rfl⟩ := Option.map_eq_some_iff.mp hs
    exact hi'.serve_dying (Migration.step_client hd).2
  | owner =>
    obtain ⟨⟨c, buffer⟩, hc, rfl⟩ := Option.map_eq_some_iff.mp hs
    have hrecord : Inv (Handover.record { h with requests := h.requests.erase (.owner, message) }
        .owner message) := hi'.record (by decide)
    refine ⟨?_, hrecord.keys, hrecord.outKey, hrecord.held, hrecord.mail⟩
    obtain ⟨mc, rfl, ⟨-, hcap, -⟩ | ⟨key, val, -, rfl⟩⟩ := Cache.clientChat_cases hc
    · exact hi.capacity.trans_eq hcap.symm
    · exact hi.capacity.trans_eq LruCache.capacity_put.symm
  | other =>
    cases hs
    exact hi'.record (by decide)

/-! ### The migration -/

/-- The snapshot has no key twice, and no message has been sent before it. -/
lemma Inv.snapshot {keys : List Str} {d : Migration} (hi : h.Inv)
    (hs : h.dying.step (.snapshot keys) = some d) : Inv { h with dying := d } := by
  obtain ⟨hphase, hperm, c, hmain, hout, -, -, rfl⟩ := Migration.step_snapshot hs
  refine ⟨hi.capacity, fun k v hv => hi.keys k v (hmain ▸ hv), ?_,
    fun k v hv => hi.held k v (hmain ▸ hv), ?_⟩
  · intro _
    dsimp only
    rw [hout]
    refine ⟨hperm.nodup_iff.mpr h.dying.cache.mainCache.nodup, ?_⟩
    intro k hk
    obtain ⟨v, hv⟩ := LruCache.exists_lookup (hperm.mem_iff.mp hk)
    exact hi.keys k v hv
  · intro m hm
    obtain ⟨j, -, hexit | ⟨i, hi, -⟩⟩ := (hi.mail m hm).past
    · rw [hphase] at hexit
      cases hexit
    · rw [hphase] at hi
      cases hi

/-- A turn leaves what the messages on their way say: they are about other keys, for a key has one
turn. -/
lemma Carries.send {d d' : Migration} {writes : List (Str × Str)} {elsewhere : List Str}
    (hc : Carries d writes elsewhere m) (hnodup : d.cache.outKey.Nodup)
    (hs : d.step .send = some d') : Carries d' writes elsewhere m := by
  obtain ⟨i, address, key, hphase, -, hkey, rfl⟩ := Migration.step_send hs
  obtain ⟨j, hj, hpast⟩ := hc.past
  have hjlt : j < i := by
    rcases hpast with hexit | ⟨i', hi', hlt⟩
    · rw [hphase] at hexit
      cases hexit
    · rw [hphase, Phase.sending.injEq] at hi'
      exact hi' ▸ hlt
  have hne : m.key ≠ key := by
    intro heq
    have hilt := (List.getElem?_eq_some_iff.mp hkey).1
    have := (List.getElem?_inj hilt hnodup).mp (hkey.trans (heq ▸ hj).symm)
    omega
  refine ⟨hc.free, hc.message, ⟨j, hj, .inr ⟨i + 1, rfl, by omega⟩⟩, ?_⟩
  intro v hv hk hwritten
  exact hc.latest v hv hk fun hmem => hwritten (by simpa [hne] using hmem)

/-- The entry of a turn is sent. -/
lemma Inv.send (hi : h.Inv) (hs : h.send = some h') : h'.Inv := by
  unfold Handover.send at hs
  split at hs
  next i hphase =>
    simp only [Option.bind_eq_bind, Option.bind_eq_some_iff, Option.pure_def,
      Option.some.injEq] at hs
    obtain ⟨d, hd, key, hkey, address, -, rfl⟩ := hs
    have hout := hi.outKey (by simp [hphase])
    have hold : ∀ m ∈ h.mail, Carries d h.writes h.elsewhere m :=
      fun m hm => (hi.mail m hm).send hout.1 hd
    obtain ⟨i', address', key', hphase', -, hkey', rfl⟩ := Migration.step_send hd
    rw [hphase, Phase.sending.injEq] at hphase'
    subst hphase'
    rw [hkey, Option.some.injEq] at hkey'
    subst hkey'
    refine ⟨hi.capacity, ?_, fun _ => hout, ?_, ?_⟩
    · intro k v hv
      exact hi.keys k v (Cache.lookup_toSingleCache.symm.trans hv)
    · intro k v hv
      exact hi.held k v (Cache.lookup_toSingleCache.symm.trans hv)
    · intro m hm
      dsimp only at hm
      split_ifs at hm
      · rcases List.mem_append.mp hm with hm | hm
        · exact hold m hm
        · rw [List.mem_singleton.mp hm]
          exact ⟨hout.2 key (List.mem_of_getElem? hkey), Cache.toSingleCache_fst,
            ⟨i, hkey, .inr ⟨i + 1, rfl, by omega⟩⟩, fun v hv hk _ => hi.held key v hv hk⟩
      · exact hold m hm
  next => cases hs

/-- The dying cache exits. -/
lemma Inv.exit {d : Migration} (hi : h.Inv) (hs : h.dying.step .exit = some d) :
    Inv { h with dying := d } := by
  obtain ⟨i, hphase, -, rfl⟩ := Migration.step_exit hs
  refine ⟨hi.capacity, hi.keys, fun _ => hi.outKey (by simp [hphase]), hi.held, ?_⟩
  intro m hm
  have hc := hi.mail m hm
  obtain ⟨j, hj, -⟩ := hc.past
  exact ⟨hc.free, hc.message, ⟨j, hj, .inl rfl⟩, hc.latest⟩

/-- What the new owner stores of a message. -/
lemma fromSingleCache_eq {c c' : Cache} (hfree : sharp ∉ m.key)
    (hmessage : m.message = m.key ++ sharp :: m.entry.getD [])
    (hc : c.fromSingleCache m.message = some c') :
    c' = { c with mainCache := (c.mainCache.put m.key (m.entry.getD [])).2 } := by
  rw [hmessage, Cache.fromSingleCache_append hfree, Option.some.injEq] at hc
  exact hc.symm

/-- The new owner stores an entry. -/
lemma Inv.store (hi : h.Inv) (hs : h.step flowOff (.store i) = some h') : h'.Inv := by
  simp only [Handover.step] at hs
  split_ifs at hs
  simp only [Option.bind_eq_bind, Option.bind_eq_some_iff, Option.pure_def,
    Option.some.injEq] at hs
  obtain ⟨m, hm, c, hc, rfl⟩ := hs
  have hcarries := hi.mail m (List.mem_of_getElem? hm)
  rw [fromSingleCache_eq hcarries.free hcarries.message hc]
  refine ⟨hi.capacity.trans_eq LruCache.capacity_put.symm, hi.keys, hi.outKey, hi.held, ?_⟩
  intro m' hm'
  exact hi.mail m' ((List.eraseIdx_sublist _ _).subset hm')

/-! ### Runs -/

/-- Every event keeps the messages true. -/
lemma Inv.step (hi : h.Inv) (hs : h.step flowOff e = some h') : h'.Inv := by
  cases e with
  | ask message =>
    simp only [Handover.step, Option.bind_eq_bind, Option.bind_eq_some_iff, Option.pure_def,
      Option.some.injEq] at hs
    obtain ⟨side, -, rfl⟩ := hs
    exact ⟨hi.capacity, hi.keys, hi.outKey, hi.held, hi.mail⟩
  | serve side message =>
    simp only [Handover.step] at hs
    split_ifs at hs
    exact hi.serve hs
  | shrink =>
    simp only [Handover.step] at hs
    split_ifs at hs
    cases hs
    exact ⟨hi.capacity, hi.keys, hi.outKey, hi.held, hi.mail⟩
  | tellDying =>
    simp only [Handover.step] at hs
    split_ifs at hs
    obtain ⟨c, hc, rfl⟩ := Option.map_eq_some_iff.mp hs
    obtain ⟨⟨_, _, _, _, _, _, _, _, _, _, rfl⟩, -⟩ := Cache.readFromMaster_cases hc
    refine ⟨hi.capacity, hi.keys, hi.outKey, hi.held, ?_⟩
    intro m hm
    have hc := hi.mail m hm
    exact ⟨hc.free, hc.message, hc.past, hc.latest⟩
  | tellOwner =>
    simp only [Handover.step] at hs
    split_ifs at hs
    obtain ⟨c, hc, rfl⟩ := Option.map_eq_some_iff.mp hs
    obtain ⟨⟨_, _, _, _, _, _, _, _, _, _, rfl⟩, -⟩ := Cache.readFromMaster_cases hc
    exact ⟨hi.capacity, hi.keys, hi.outKey, hi.held, hi.mail⟩
  | snapshot keys =>
    obtain ⟨d, hd, rfl⟩ := Option.map_eq_some_iff.mp hs
    exact hi.snapshot hd
  | send => exact hi.send hs
  | exit =>
    obtain ⟨d, hd, rfl⟩ := Option.map_eq_some_iff.mp hs
    exact hi.exit hd
  | store i => exact hi.store hs

/-- **What the new owner stores.**  Once a message has been applied, the new owner stores for its
key the value that the message carries.  That is the value of the latest client write when the
dying cache held an entry of the key as it made the message, and it was the dying cache, before
that, that accepted the latest write. -/
theorem store_value (hr : Reach Init (step flowOff) (fun _ _ => True) h)
    (hm : h.mail[i]? = some m) (hs : h.step flowOff (.store i) = some h') :
    m.message = m.key ++ sharp :: m.entry.getD [] ∧
      h'.owner.mainCache.lookup m.key = some (m.entry.getD []) ∧
      ∀ v, m.entry = some v → m.key ∉ h.elsewhere → m.key ∉ h.dying.written →
        latest h'.writes m.key = some v := by
  have hi : h.Inv := hr.invariant (fun _ => inv_init) fun _ _ _ _ hi _ hs => hi.step hs
  have hc := hi.mail m (List.mem_of_getElem? hm)
  simp only [Handover.step] at hs
  split_ifs at hs
  simp only [hm, Option.bind_eq_bind, Option.bind_some, Option.bind_eq_some_iff, Option.pure_def,
    Option.some.injEq] at hs
  obtain ⟨c, hstored, rfl⟩ := hs
  refine ⟨hc.message, ?_, hc.latest⟩
  rw [fromSingleCache_eq hc.free hc.message hstored]
  exact LruCache.lookup_put_self hi.capacity

/-! ### A key that changes hands -/

/-- The ring of two caches. -/
def twoRing : ConsistentHash := ((ConsistentHash.initializeRing 0 100).addNode 0).addNode 1

lemma labelled_twoRing : twoRing.Labelled :=
  ((ConsistentHash.labelled_initializeRing 100).addNode rfl).addNode rfl

lemma owned_twoRing {N i : ℕ} {p : UInt32} (hN : 2 ≤ N)
    (honly : ConsistentHash.OnlyLabel 100 N i p) : twoRing.Owned i p := by
  have hlabelled := ConsistentHash.labelled_initializeRing 100
  have hnodes : (ConsistentHash.initializeRing 0 100).nodes = 0 := rfl
  have hnone : (ConsistentHash.initializeRing 0 100).Owned i p := fun hlt => by omega
  have hone : ((ConsistentHash.initializeRing 0 100).addNode 0).Owned i p :=
    hnone.addNode hlabelled honly (by omega) hnodes.symm
  refine hone.addNode (hlabelled.addNode rfl) honly ?_ rfl
  rw [ConsistentHash.nodes_addNode]
  omega

lemma owner_twoRing : twoRing.owner ConsistentHash.labelKey = some 1 :=
  ConsistentHash.owner_of_lookup
    (owned_twoRing (by decide) ConsistentHash.onlyLabel_labelKey (by decide))

/-- Without the second cache its keys go to the first one. -/
lemma owner_shrunk : (twoRing.deleteNode 1).owner ConsistentHash.labelKey = some 0 := by
  have honly := ConsistentHash.onlyLabel_two 0 (by decide) 0 (by decide)
  have hnodes : (twoRing.deleteNode 1).nodes = 1 := rfl
  have howned : (twoRing.deleteNode 1).Owned 0 (point (0 : ℕ) 0) :=
    (owned_twoRing (le_refl 2) honly).deleteNode honly le_rfl
  exact (labelled_twoRing.deleteNode 1).owner_eq_zero hnodes (howned (by omega))

/-- Two primaries, where the second one is the last. -/
def twoCaches : Handover where
  ring := twoRing
  lastShard := 1
  ownerShard := 0
  announced := false
  dying := ⟨{ Cache.new 10 (lit "P") (lit "127.0.0.1") (lit "8002") (lit "9002") with
    cacheList := [(lit "127.0.0.1", lit "9001"), (lit "127.0.0.1", lit "9002")] }, .start, [], []⟩
  owner := { Cache.new 10 (lit "P") (lit "127.0.0.1") (lit "8001") (lit "9001") with
    cacheList := [(lit "127.0.0.1", lit "9001"), (lit "127.0.0.1", lit "9002")] }
  requests := []
  mail := []
  writes := []
  elsewhere := []

/-- The requests of two clients, before and after the shrink. -/
def oldWrite : Str := ConsistentHash.labelKey ++ lit "#old"
def newWrite : Str := ConsistentHash.labelKey ++ lit "#new"

/-- Both clients have asked the master, on the two sides of the shrink. -/
def asked : Handover := { twoCaches with
  ring := twoRing.deleteNode 1
  announced := true
  requests := [(.owner, newWrite), (.dying, oldWrite)] }

lemma reach_asked : Reach Init (step flowOff) (fun _ _ => True) asked := by
  have hstart : Reach Init (step flowOff) (fun _ _ => True) twoCaches :=
    .start ⟨_, _, _, _, _, _, _, _, _, _, _, _, rfl⟩
  have hold : oldWrite.take (spear oldWrite) = ConsistentHash.labelKey := by decide
  have hnew : newWrite.take (spear newWrite) = ConsistentHash.labelKey := by decide
  have hasked : Reach Init (step flowOff) (fun _ _ => True)
      { twoCaches with requests := [(.dying, oldWrite)] } :=
    hstart.next (e := .ask oldWrite) trivial (by
      simp only [step, route, hold]
      rw [show twoCaches.ring = twoRing from rfl, owner_twoRing]
      rfl)
  have hshrunk : Reach Init (step flowOff) (fun _ _ => True) { twoCaches with
      ring := twoRing.deleteNode 1
      announced := true
      requests := [(.dying, oldWrite)] } := hasked.next (e := .shrink) trivial rfl
  exact hshrunk.next (e := .ask newWrite) trivial (by
    simp only [step, route, hnew, owner_shrunk]
    rfl)

/-- The entry of a key that only the dying cache has seen. -/
theorem store_value_old : ∃ h h', path (step fun _ => 0) (fun _ _ => True) asked
    [.serve .dying oldWrite, .tellDying, .tellOwner, .snapshot [ConsistentHash.labelKey], .send] = some h ∧
      h.step (fun _ => 0) (.store 0) = some h' ∧
      h'.owner.mainCache.lookup ConsistentHash.labelKey = some (lit "old") ∧
      latest h'.writes ConsistentHash.labelKey = some (lit "old") := by
  have hrun : (path (step fun _ => 0) (fun _ _ => True) asked
      [.serve .dying oldWrite, .tellDying, .tellOwner, .snapshot [ConsistentHash.labelKey], .send]).bind (fun h =>
        h.mail[0]?.map fun m => (m.key, m.entry, h.elsewhere, h.dying.written,
          (h.step (fun _ => 0) (.store 0)).isSome)) =
      some (ConsistentHash.labelKey, some (lit "old"), [], [], true) := by
    decide +kernel
  obtain ⟨h, hh, hf⟩ := Option.bind_eq_some_iff.mp hrun
  obtain ⟨m, hm, hf⟩ := Option.map_eq_some_iff.mp hf
  simp only [Prod.mk.injEq] at hf
  obtain ⟨hkey, hentry, helse, hwritten, hstep⟩ := hf
  obtain ⟨h', hs⟩ := Option.isSome_iff_exists.mp hstep
  have hv := store_value (reach_asked.path hh) hm hs
  refine ⟨h, h', hh, hs, ?_, ?_⟩
  · rw [← hkey, hv.2.1, hentry]
    rfl
  · rw [← hkey]
    exact hv.2.2 _ hentry (by rw [helse]; exact List.not_mem_nil)
      (by rw [hwritten]; exact List.not_mem_nil)

/-- The old value of a key comes after the new one, and replaces it. -/
theorem store_replaces_new : ∃ h h', Reach Init (step fun _ => 0) (fun _ _ => True) h ∧
    h.owner.mainCache.lookup ConsistentHash.labelKey = some (lit "new") ∧
    h.step (fun _ => 0) (.store 0) = some h' ∧
    h'.owner.mainCache.lookup ConsistentHash.labelKey = some (lit "old") ∧
    latest h'.writes ConsistentHash.labelKey = some (lit "new") := by
  have hrun : (path (step fun _ => 0) (fun _ _ => True) asked
      [.serve .dying oldWrite, .serve .owner newWrite, .tellDying, .tellOwner,
        .snapshot [ConsistentHash.labelKey], .send]).bind (fun h =>
        (h.step (fun _ => 0) (.store 0)).map fun h' => (h.owner.mainCache.lookup ConsistentHash.labelKey,
          h'.owner.mainCache.lookup ConsistentHash.labelKey, latest h'.writes ConsistentHash.labelKey)) =
      some (some (lit "new"), some (lit "old"), some (lit "new")) := by
    decide +kernel
  obtain ⟨h, hh, hf⟩ := Option.bind_eq_some_iff.mp hrun
  obtain ⟨h', hs, hf⟩ := Option.map_eq_some_iff.mp hf
  simp only [Prod.mk.injEq] at hf
  exact ⟨h, h', reach_asked.path hh, hf.1, hs, hf.2⟩

end Handover

end DistCache
