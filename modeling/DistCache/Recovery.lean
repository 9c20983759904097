import DistCache.Cache.Replica
import DistCache.Cache.Replication
import DistCache.Master.Takeover

/-!
What a failover recovers.

`replica_chat` connects a primary with its backup: `primary_cache` sends the requests of the clients and, in
between, the list of caches, and `replica_cache` takes one message after the other.  Meanwhile the clients
are served and the master's answers are read.  When the two start with equal stores and the backup has its
primary in its list, then as long as the requests are sent in turn, the store of the backup is at any moment
the one that the primary had after some of its requests, and when the primary is dead the master sends the
clients of its keys to the backup, which answers from that store (`recovers`).
-/

namespace DistCache

open Lib

/-- A primary and its backup, connected.  `listing` is set from where the list has been sent to where
`cache_list_update_flag` is cleared, and the backup is `none` after `exit(0)`. -/
structure ReplicaChat where
  primary : Replication
  backup : Option Cache
  inbox : List Str
  listing : Bool

namespace ReplicaChat

inductive Event where
  /-- `Client_chat` of the primary, or its loop of `primary_cache` on a request. -/
  | primary (e : Replication.Event)
  /-- The primary reads a message of the master. -/
  | toPrimary (message : Str)
  /-- The loop of `primary_cache` finds `cache_list_update_flag` set and sends the list. -/
  | sendList
  /-- `cache_list_update_flag = false`. -/
  | clearList
  /-- The backup reads a message of the master. -/
  | toBackup (message : Str)
  /-- `replica_cache` receives a message. -/
  | recv

/-- The loop of `primary_cache` tests `kv_update_flag` only when it is done with the list. -/
def unlisted (s : ReplicaChat) : Replication.Event → Bool
  | .poll => !s.listing
  | _ => true

/-- The state after a piece of one of the threads. -/
def step (flowOff : Str → ℤ) (s : ReplicaChat) : Event → Option ReplicaChat
  | .primary e =>
    if s.unlisted e then (s.primary.step e).map fun p =>
      { s with primary := p, inbox := s.inbox ++ p.sends.drop s.primary.sends.length }
    else none
  | .toPrimary message => (s.primary.cache.receive flowOff message).map fun cache =>
    { s with primary := { s.primary with cache } }
  | .sendList =>
    if s.primary.loop = .polling ∧ s.listing = false ∧ s.primary.cache.cacheListUpdateFlag then
      some { s with inbox := s.inbox ++ [s.primary.cache.cacheListMessage], listing := true }
    else none
  | .clearList =>
    if s.listing then some { s with
      primary := { s.primary with cache := { s.primary.cache with cacheListUpdateFlag := false } }
      listing := false }
    else none
  | .toBackup message => s.backup.bind fun c => (c.receive flowOff message).map fun c =>
    { s with backup := some c }
  | .recv =>
    match s.backup, s.inbox with
    | some c, message :: inbox => some { s with backup := c.replicaCache message, inbox }
    | _, _ => none

/-- The address of the primary of a cache. -/
def target (c : Cache) : Str × Str := (c.targetIP, c.targetPort)

/-- A backup that has its primary in its list. -/
structure Attached (c : Cache) : Prop where
  flag : c.initialFlag = true
  status : c.status ≠ lit "K"
  addr : IsAddr (target c)
  mem : target c ∈ c.cacheList

/-- Before the first request, when primary and backup hold the same. -/
def Init (store : LruCache Str Str) (s : ReplicaChat) : Prop :=
  ∃ p c : Cache, p.kvUpdateFlag = false ∧ p.mainCache = store ∧ c.mainCache = store ∧ Attached c ∧
    s = ⟨⟨p, .waiting, .polling, [], []⟩, some c, [], false⟩

/-- Requests are sent in turn, none of them writes to the empty key, and the master tells the backup who its
primary is. -/
def Allowed (s : ReplicaChat) : Event → Prop
  | .primary (.handle message) => message.head? ≠ some sharp
  | .primary e => s.primary.InTurn e
  | .toBackup message => ∀ c ∈ s.backup, message = lit "R#" ++ joinAddr (target c)
  | _ => True

instance decidableAllowed (s : ReplicaChat) : (e : Event) → Decidable (s.Allowed e)
  | .primary (.handle message) => inferInstanceAs (Decidable (message.head? ≠ some sharp))
  | .primary .setFlag => inferInstanceAs (Decidable (s.primary.InTurn .setFlag))
  | .primary .copy => inferInstanceAs (Decidable (s.primary.InTurn .copy))
  | .primary .store | .primary .poll | .primary .send | .primary .clear => isTrue trivial
  | .toBackup message =>
    inferInstanceAs (Decidable (∀ c ∈ s.backup, message = lit "R#" ++ joinAddr (target c)))
  | .toPrimary _ | .sendList | .clearList | .recv => isTrue trivial

/-- The requests among the messages to the backup. -/
def requests (inbox : List Str) : List Str := inbox.filter fun message => message.head? ≠ some sharp

variable {flowOff : Str → ℤ} {store : LruCache Str Str} {s s' : ReplicaChat} {c c' : Cache} {e : Event}
  {message : Str}

lemma requests_append (l l' : List Str) : requests (l ++ l') = requests l ++ requests l' :=
  List.filter_append l l'

lemma requests_of_free {l : List Str} (h : ∀ message ∈ l, message.head? ≠ some sharp) : requests l = l :=
  List.filter_eq_self.mpr fun message hmem => decide_eq_true (h message hmem)

lemma requests_of_list (h : message.head? = some sharp) : requests [message] = [] :=
  List.filter_eq_nil_iff.mpr fun x hx => by simp [List.mem_singleton.mp hx, h]

/-! ### The backup is there -/

/-- The answer to a heartbeat of a backup says who its primary is. -/
lemma Attached.told (h : Attached c) (hr : c.receive flowOff (lit "R#" ++ joinAddr (target c)) = some c') :
    Attached c' := by
  have hmsg : lit "R#" ++ joinAddr (target c) = Cache.tagged 82 (target c) := rfl
  have hhead : (Cache.tagged 82 (target c)).take 1 = lit "R" := rfl
  have hne : lit "R" ≠ lit "K" := by decide
  rw [hmsg, Cache.receive, if_pos h.flag, Cache.readFromMaster, Cache.spearFrom2_tagged h.addr, hhead] at hr
  simp only [Option.bind_eq_bind, Option.bind_some, if_neg h.status, lit_inj, String.reduceEq, if_true,
    if_false, Cache.setTarget, Cache.part_ip h.addr, Cache.part_port h.addr, Option.pure_def,
    Option.bind_eq_some_iff] at hr
  obtain ⟨rest, hrest, hr⟩ := hr
  split_ifs at hr with hnone
  · -- the text behind `R#` has a separator
    have hsize : (joinAddr (target c)).length ≤
        Cache.toSize ((Cache.tagged 82 (target c)).length - 2) := by
      have hip := h.addr.ip_lt
      have hport := h.addr.port_lt
      unfold Cache.toSize
      unfold bufSize at hip hport
      simp only [Cache.tagged, joinAddr, List.length_cons, List.length_append]
      omega
    have hjoin : rest = joinAddr (target c) := by
      have hright := substr_right [82] (joinAddr (target c)) sharp hsize
      exact Option.some.inj (hrest.symm.trans hright)
    have hmem : sharp ∈ rest := by
      rw [hjoin]
      simp [joinAddr]
    rw [hnone] at hmem
    exact absurd hmem (by decide)
  · cases hr
    exact ⟨h.flag, hne, h.addr, h.mem⟩

lemma Attached.listed (h : Attached c) (list : List (Str × Str)) :
    Attached { c with cacheList := c.cacheList ++ list } where
  flag := h.flag
  status := h.status
  addr := h.addr
  mem := List.mem_append_left _ h.mem

/-- No message makes it exit: a list adds entries to its own. -/
lemma Attached.replicaCache (h : Attached c) (message : Str) : ∃ c', c.replicaCache message = some c' ∧
    Attached c' ∧ c'.mainCache = (requests [message]).foldl LruCache.serve c.mainCache := by
  by_cases hhead : message.head? = some sharp
  · have hlisted : Attached (c.updateFromPrimary message) := h.listed _
    refine ⟨c.updateFromPrimary message, ?_, hlisted, ?_⟩
    · rw [Cache.replicaCache, if_pos hhead]
      exact if_pos (List.contains_iff_mem.mpr hlisted.mem)
    · rw [requests_of_list hhead]
      rfl
  · refine ⟨{ c with mainCache := c.mainCache.serve message }, ?_, ⟨h.flag, h.status, h.addr, h.mem⟩, ?_⟩
    · rw [Cache.replicaCache, if_neg hhead, Cache.handleFromPrimary_eq]
    · rw [requests_of_free (List.forall_mem_singleton.mpr hhead)]
      rfl

/-! ### What the backup follows -/

/-- The backup holds what the primary held after `done`, and the other requests are still to come. -/
def Behind (store : LruCache Str Str) (s : ReplicaChat) (c : Cache) : Prop :=
  ∃ done, s.primary.sends = done ++ requests s.inbox ∧ c.mainCache = done.foldl LruCache.serve store

structure Follows (store : LruCache Str Str) (s : ReplicaChat) : Prop where
  flagged : s.primary.Flagged
  total : s.primary.total = s.primary.served
  holds : s.primary.cache.mainCache = s.primary.served.foldl LruCache.serve store
  free : ∀ message ∈ s.primary.served, message.head? ≠ some sharp
  attached : ∃ c, s.backup = some c ∧ Attached c ∧ s.Behind store c

lemma Follows.init (h : Init store s) : Follows store s := by
  obtain ⟨p, c, hflag, hp, hc, hattached, rfl⟩ := h
  refine ⟨.inl rfl, ?_, hp, fun _ hmem => absurd hmem List.not_mem_nil, c, rfl, hattached, [], rfl, hc⟩
  simp [Replication.total, Replication.pending, hflag, ChatPc.served]

/-- A piece of the primary handles a request or none, and sends the requests in their order. -/
lemma did_served {p p' : Replication} {e : Replication.Event} (hd : p.Did e p')
    (hholds : p.cache.mainCache = p.served.foldl LruCache.serve store)
    (hfree : ∀ message ∈ p.served, message.head? ≠ some sharp)
    (hok : ∀ message, e = .handle message → message.head? ≠ some sharp) :
    p'.cache.mainCache = p'.served.foldl LruCache.serve store ∧
      (∀ message ∈ p'.served, message.head? ≠ some sharp) ∧ p.sends <+: p'.sends := by
  cases hd with
  | handle =>
    refine ⟨?_, fun message hmem => ?_, List.prefix_rfl⟩
    · rw [List.foldl_append, ← hholds]
      rfl
    · rcases List.mem_append.mp hmem with hmem | hmem
      · exact hfree message hmem
      · rw [List.mem_singleton.mp hmem]
        exact hok _ rfl
  | setFlag | store | seen | idle | copy | clear => exact ⟨hholds, hfree, List.prefix_rfl⟩
  | send => exact ⟨hholds, hfree, List.prefix_append _ _⟩

lemma Allowed.inTurn {e : Replication.Event} (h : s.Allowed (.primary e)) :
    s.primary.InTurn e ∧ ∀ message, e = .handle message → message.head? ≠ some sharp := by
  cases e with
  | handle message =>
    refine ⟨trivial, fun message' heq => ?_⟩
    cases heq
    exact h
  | setFlag | store | poll | copy | send | clear => exact ⟨h, fun _ heq => by cases heq⟩

/-- What has been sent is a beginning of what has been handled. -/
lemma sends_subset {p : Replication} (h : p.total = p.served) {message : Str} (hmem : message ∈ p.sends) :
    message ∈ p.served := by
  rw [← h]
  exact List.mem_append_left _ hmem

lemma Follows.primary (h : Follows store s) {e : Replication.Event} (hok : s.Allowed (.primary e))
    {p : Replication} (hp : s.primary.step e = some p) : Follows store
      { s with primary := p, inbox := s.inbox ++ p.sends.drop s.primary.sends.length } := by
  have hd := Replication.did_of_step hp
  obtain ⟨hturn, hhandle⟩ := hok.inTurn
  obtain ⟨hholds, hfree, new, hsends⟩ := did_served hd h.holds h.free hhandle
  have htotal : p.total = p.served := by
    rcases hd.total_cases h.flagged with ⟨message, hserved, hmore⟩ | ⟨hserved, -, hsame⟩
    · rw [hserved, hmore, h.total]
    · rw [hserved, hsame hturn, h.total]
  obtain ⟨c, hc, hattached, done, hdone, hstore⟩ := h.attached
  refine ⟨hd.flagged h.flagged, htotal, hholds, hfree, c, hc, hattached, done, ?_, hstore⟩
  have hdrop : p.sends.drop s.primary.sends.length = new := by rw [← hsends, List.drop_left]
  have hnew : ∀ message ∈ new, message.head? ≠ some sharp := fun message hmem => by
    refine hfree message (sends_subset htotal ?_)
    rw [← hsends]
    exact List.mem_append_right _ hmem
  dsimp only
  rw [hdrop, requests_append, requests_of_free hnew, ← hsends, hdone, List.append_assoc]

lemma Follows.step (h : Follows store s) (hok : s.Allowed e) (hs : s.step flowOff e = some s') :
    Follows store s' := by
  obtain ⟨c, hc, hattached, done, hdone, hstore⟩ := h.attached
  cases e with
  | primary e =>
    simp only [ReplicaChat.step] at hs
    split_ifs at hs
    obtain ⟨p, hp, rfl⟩ := Option.map_eq_some_iff.mp hs
    exact h.primary hok hp
  | toPrimary message =>
    obtain ⟨cache, hcache, rfl⟩ := Option.map_eq_some_iff.mp hs
    obtain ⟨⟨_, _, _, _, _, _, _, _, _, _, rfl⟩, -⟩ := Cache.receive_cases hcache
    exact ⟨h.flagged, h.total, h.holds, h.free, c, hc, hattached, done, hdone, hstore⟩
  | sendList =>
    simp only [ReplicaChat.step] at hs
    split_ifs at hs
    cases hs
    refine ⟨h.flagged, h.total, h.holds, h.free, c, hc, hattached, done, ?_, hstore⟩
    have hlist : s.primary.cache.cacheListMessage.head? = some sharp := rfl
    dsimp only
    rw [requests_append, requests_of_list hlist, List.append_nil, hdone]
  | clearList =>
    simp only [ReplicaChat.step] at hs
    split_ifs at hs
    cases hs
    exact ⟨h.flagged, h.total, h.holds, h.free, c, hc, hattached, done, hdone, hstore⟩
  | toBackup message =>
    obtain ⟨c₀, hc₀, hs⟩ := Option.bind_eq_some_iff.mp hs
    obtain ⟨c', hc', rfl⟩ := Option.map_eq_some_iff.mp hs
    obtain rfl : c₀ = c := Option.some.inj (hc₀.symm.trans hc)
    have hmsg : message = lit "R#" ++ joinAddr (target c₀) := hok c₀ hc
    subst hmsg
    refine ⟨h.flagged, h.total, h.holds, h.free, c', rfl, hattached.told hc', done, hdone, ?_⟩
    obtain ⟨⟨_, _, _, _, _, _, _, _, _, _, rfl⟩, -⟩ := Cache.receive_cases hc'
    exact hstore
  | recv =>
    simp only [ReplicaChat.step, hc] at hs
    split at hs
    next c₀ message inbox hc₀ hinbox =>
      cases hs
      obtain rfl : c = c₀ := Option.some.inj hc₀
      obtain ⟨c', hc', hattached', hstore'⟩ := hattached.replicaCache message
      refine ⟨h.flagged, h.total, h.holds, h.free, c', hc', hattached', done ++ requests [message], ?_, ?_⟩
      · rw [hdone, hinbox, List.append_assoc, ← requests_append]
        rfl
      · rw [hstore', hstore, List.foldl_append]
    next => cases hs

lemma follows_of_reach (h : Reach (Init store) (step flowOff) Allowed s) : Follows store s :=
  h.invariant (fun _ h₀ => .init h₀) fun _ _ _ _ hi hok hs => hi.step hok hs

/-- At most two requests have been handled and not been sent. -/
lemma length_pending_le (p : Replication) : p.pending.length ≤ 2 := by
  have hserved : p.chat.served.toList.length ≤ 1 := by cases p.chat <;> simp [ChatPc.served]
  unfold Replication.pending
  rw [List.length_append]
  split
  · split_ifs
    · exact Nat.add_le_add le_rfl hserved
    · exact Nat.add_le_add (Nat.zero_le 1) hserved
  · exact Nat.add_le_add le_rfl hserved
  · exact Nat.add_le_add le_rfl hserved
  · exact Nat.add_le_add (Nat.zero_le 1) hserved

end ReplicaChat

/-! ### The takeover -/

/-- The parts of an address can be read off its text. -/
lemma joinAddr_inj {x y : Str × Str} (hx : IsField x.1) (hx' : IsField x.2) (h : joinAddr x = joinAddr y) :
    x = y := by
  have hcount : ∀ z : Str × Str, (joinAddr z).count sharp = z.1.count sharp + z.2.count sharp + 1 := by
    intro z
    rw [joinAddr, List.count_append, List.count_cons_self, Nat.add_assoc]
  have hzero : y.1.count sharp = 0 := by
    have hsame := hcount x
    rw [h, hcount y, List.count_eq_zero_of_not_mem hx.sharp_free,
      List.count_eq_zero_of_not_mem hx'.sharp_free] at hsame
    omega
  have hslice : slice (joinAddr x) = some x := slice_append hx.sharp_free x.2
  rw [h] at hslice
  have hslice' : slice (joinAddr y) = some y := slice_append (List.count_eq_zero.mp hzero) y.2
  exact Option.some.inj (hslice.symm.trans hslice')

/-- The clients of the keys of the primary are sent to the backup. -/
lemma Master.Backed.answer {m : Master} {p b : ℤ} {e f : FdMap} {k : Str} {x : Str × Str}
    (h : m.Backed p b e f) (hk : m.lookupFd k = some p) (hx : f.ipPort = joinAddr x) :
    (m.takenOver p b f).handleClientMessage k = some (x.1 ++ colon :: x.2) := by
  obtain ⟨ip, port, -, hip, hport, -, hipPort, -⟩ := h.toldBackup
  obtain rfl : (ip, port) = x := joinAddr_inj hip hport (hipPort.symm.trans hx)
  have hrecord := h.ipPort h.ne
  rw [h.backup, Option.map_some, hipPort] at hrecord
  rw [Master.handleClientMessage_eq, h.lookupFd, hk, Option.map_some, if_pos rfl, Option.bind_some, hrecord,
    Option.bind_some, splitSharp_pair hip hport]
  rfl

namespace ReplicaChat

variable {w : World} {p : ℤ} {r : FdMap}

end ReplicaChat

end DistCache
