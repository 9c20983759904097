import DistCache.Cache.State
import DistCache.Lib.Transition

/-!
The migration of a dying cache: `cache_pass` takes a snapshot of the keys, sends the entry of each
to the cache chosen for it, and exits, while `Client_chat` goes on serving requests.

Nothing stops a client from writing while the entries are sent, so an entry can be newer than what
was sent of it, or not be sent at all.  `written` records the keys to which this can apply: those
written since they were sent or, when they were not, since the snapshot.  An entry with another
key has been sent as it is.
-/

namespace DistCache

open Lib

/-! ### Client requests -/

/-- The key and the value that a request asks to write, if it does. -/
def writeOf (message : Str) : Option (Str × Str) :=
  if spear message = message.length then none
  else some (message.take (spear message), message.drop (spear message + 1))

/-- The key of a write ends at the first separator. -/
lemma sharp_not_mem_of_writeOf {message key val : Str} (hw : writeOf message = some (key, val)) :
    sharp ∉ key := by
  unfold writeOf at hw
  split_ifs at hw
  cases hw
  intro hmem
  have htake : message.take (spear message) = message.takeWhile (· ≠ sharp) :=
    (List.prefix_iff_eq_take.mp (List.takeWhile_prefix _)).symm
  rw [htake] at hmem
  simpa using List.mem_takeWhile_imp hmem

/-- `slice` cuts the message of a migrated entry as a write is cut, and throws where there is nothing
to write. -/
lemma slice_eq_writeOf (message : Str) : slice message = writeOf message := by
  have hle := spear_le message
  unfold slice writeOf substr
  rw [if_pos (Nat.zero_le _), Option.bind_eq_bind, Option.bind_some]
  by_cases hread : spear message = message.length
  · rw [if_neg (by omega), if_pos hread]
    rfl
  · have hdrop : (message.drop (spear message + 1)).take (message.length - spear message - 1) =
        message.drop (spear message + 1) :=
      List.take_of_length_le (by rw [List.length_drop]; omega)
    rw [if_pos (by omega), if_neg hread, hdrop]
    rfl

/-- What a request does to a store. -/
def LruCache.serve (c : LruCache Str Str) (message : Str) : LruCache Str Str :=
  match writeOf message with
  | none => (c.get message).2
  | some (key, val) => (c.put key val).2

namespace Cache

variable {c c' : Cache} {message buffer : Str} {key : Str}

/-- **A request touches the store only.** -/
theorem lruHandleTask_eq (c : Cache) (message : Str) : ∃ buffer,
    c.lruHandleTask message = some ({ c with mainCache := c.mainCache.serve message }, buffer) := by
  unfold lruHandleTask LruCache.serve writeOf
  by_cases hread : spear message = message.length
  · simp only [if_pos hread]
    by_cases hcheck : c.mainCache.check message = true
    · rw [if_pos hcheck]
      exact ⟨_, rfl⟩
    · have hmem : message ∉ c.mainCache.keys := fun hmem => hcheck (LruCache.check_iff.mpr hmem)
      rw [if_neg hcheck, LruCache.get_of_not_mem hmem]
      exact ⟨_, rfl⟩
  · have hlt : spear message + 1 ≤ message.length := by
      have := spear_le message
      omega
    have hdrop : (message.drop (spear message + 1)).take message.length =
        message.drop (spear message + 1) :=
      List.take_of_length_le (by rw [List.length_drop]; omega)
    simp only [if_neg hread, substr, Nat.zero_le, if_true, List.drop_zero, if_pos hlt, hdrop,
      Option.bind_eq_bind, Option.bind_some, Option.pure_def]
    exact ⟨_, rfl⟩

/-- Afterwards it is put where the replica is written to from. -/
lemma clientChat_eq (c : Cache) (message : Str) : ∃ buffer, c.clientChat message = some ({ c with
    mainCache := c.mainCache.serve message
    kvUpdateFlag := true
    kvToReplica := message }, buffer) := by
  obtain ⟨buffer, heq⟩ := c.lruHandleTask_eq message
  exact ⟨buffer, by rw [clientChat, heq]; rfl⟩

/-- A read leaves the values, a write puts its own. -/
lemma clientChat_cases (h : c.clientChat message = some (c', buffer)) :
    ∃ mc : LruCache Str Str,
      c' = { c with mainCache := mc, kvUpdateFlag := true, kvToReplica := message } ∧
      ((writeOf message = none ∧ mc.capacity = c.mainCache.capacity ∧
          ∀ k, mc.lookup k = c.mainCache.lookup k) ∨
        ∃ key val, writeOf message = some (key, val) ∧ mc = (c.mainCache.put key val).2) := by
  obtain ⟨buffer', heq⟩ := c.clientChat_eq message
  cases heq.symm.trans h
  refine ⟨_, rfl, ?_⟩
  unfold LruCache.serve
  cases hw : writeOf message with
  | none => exact .inl ⟨rfl, LruCache.capacity_get, fun k => LruCache.lookup_get⟩
  | some w => exact .inr ⟨w.1, w.2, rfl, rfl⟩

/-- Sending an entry leaves the values. -/
@[simp] lemma lookup_toSingleCache {k : Str} :
    (c.toSingleCache key).2.mainCache.lookup k = c.mainCache.lookup k := LruCache.lookup_get

/-- The entry that is sent. -/
lemma toSingleCache_fst : (c.toSingleCache key).1 =
    key ++ sharp :: (c.mainCache.lookup key).getD [] :=
  congrArg (fun v => key ++ sharp :: v) LruCache.get_fst

/-- What a receiver stores of the entry that is sent. -/
lemma fromSingleCache_append (hfree : sharp ∉ key) (v : Str) :
    c.fromSingleCache (key ++ sharp :: v) = some { c with mainCache := (c.mainCache.put key v).2 } := by
  rw [fromSingleCache, slice_append hfree]
  rfl

lemma length_targets {ring : ConsistentHash} {caches keys : List Str} {l : List (Str × Str)}
    (h : targets ring caches keys = some l) : l.length = keys.length := by
  unfold targets at h
  induction keys generalizing l with
  | nil =>
    cases h
    rfl
  | cons key keys ih =>
    simp only [List.mapM_cons, Option.bind_eq_bind, Option.bind_eq_some_iff, Option.pure_def,
      Option.some.injEq] at h
    obtain ⟨a, -, l', hl', rfl⟩ := h
    rw [List.length_cons, List.length_cons]
    exact congrArg (· + 1) (ih hl')

/-- `cal_hash_key` chooses an address for each key, and leaves the store alone. -/
lemma calHashKey_cases {keys : List Str} (h : c.calHashKey keys = some c') :
    c'.mainCache = c.mainCache ∧ c'.outKey = keys ∧ c'.otherIP.length = keys.length ∧
      c'.otherPort.length = keys.length := by
  simp only [calHashKey, Option.bind_eq_bind, Option.bind_eq_some_iff, Option.pure_def,
    Option.some.injEq] at h
  obtain ⟨others, hothers, rfl⟩ := h
  have hlen := length_targets hothers
  exact ⟨rfl, rfl, by simpa using hlen, by simpa using hlen⟩

end Cache

/-! ### The migration -/

/-- Where `cache_pass` is in the branch `K`. -/
inductive Phase where
  /-- Before `cal_hash_key`. -/
  | start
  /-- At the turn `i` of the loop that sends. -/
  | sending (i : ℕ)
  /-- After `exit(0)`. -/
  | exited
  deriving DecidableEq

/-- A dying cache. -/
structure Migration where
  cache : Cache
  phase : Phase
  /-- The messages sent to other caches, with their addresses. -/
  sent : List ((Str × Str) × Str)
  /-- The keys written since they were sent or, when they were not, since the snapshot. -/
  written : List Str

namespace Migration

/-- What the two threads do. -/
inductive Event where
  /-- `Client_chat` serves a request. -/
  | client (message : Str)
  /-- `cal_hash_key`, where `all_key` gives `keys`. -/
  | snapshot (keys : List Str)
  /-- One turn of the loop that sends. -/
  | send
  /-- The loop is over: `exit(0)`. -/
  | exit

/-- The address chosen at turn `i`. -/
def target (m : Migration) (i : ℕ) : Option (Str × Str) := do
  let ip ← m.cache.otherIP[i]?
  let port ← m.cache.otherPort[i]?
  return (ip, port)

/-- `Client_chat` serves a request. -/
def serve (m : Migration) (message : Str) : Option Migration := do
  let (c, _) ← m.cache.clientChat message
  return { m with
    cache := c
    written := ((writeOf message).map Prod.fst).toList ++ m.written }

/-- The loop sends the entry of the key of its turn. -/
def sendNext (m : Migration) (i : ℕ) : Option Migration := do
  let address ← m.target i
  let key ← m.cache.outKey[i]?
  return { m with
    cache := (m.cache.toSingleCache key).2
    phase := .sending (i + 1)
    sent := (address, (m.cache.toSingleCache key).1) :: m.sent
    written := m.written.filter (· ≠ key) }

/-- The dying cache after a piece of a thread. -/
def step (m : Migration) : Event → Option Migration
  | .client message => if m.phase = .exited then none else m.serve message
  | .snapshot keys =>
    if m.phase = .start ∧ m.cache.status = lit "K" ∧ m.cache.cacheList ≠ [] ∧
        keys.Perm m.cache.mainCache.keys then
      (m.cache.calHashKey keys).map fun c => { m with cache := c, phase := .sending 0, written := [] }
    else none
  | .send =>
    match m.phase with
    | .sending i => if i < m.cache.otherPort.length then m.sendNext i else none
    | _ => none
  | .exit =>
    match m.phase with
    | .sending i => if i < m.cache.otherPort.length then none else some { m with phase := .exited }
    | _ => none

/-- A cache whose status has become `K`, at the beginning of the branch. -/
def Init (m : Migration) : Prop :=
  m.cache.status = lit "K" ∧ m.phase = .start ∧ m.sent = [] ∧ m.written = []

/-- An entry that was not written since is in the snapshot, and when its turn is past it has been
sent as it is. -/
def Covered (m : Migration) (i : ℕ) : Prop :=
  ∀ k v, m.cache.mainCache.lookup k = some v → k ∉ m.written →
    ∃ j, m.cache.outKey[j]? = some k ∧
      (j < i → ∃ address, m.target j = some address ∧ (address, k ++ sharp :: v) ∈ m.sent)

/-- The arrays have one length, and the entries are covered up to the turn of the loop. -/
structure Inv (m : Migration) : Prop where
  length : m.phase ≠ .start → m.cache.otherIP.length = m.cache.outKey.length ∧
    m.cache.otherPort.length = m.cache.outKey.length
  sending : ∀ i, m.phase = .sending i → m.Covered i
  exited : m.phase = .exited → m.Covered m.cache.outKey.length

variable {m m' : Migration} {i : ℕ} {message : Str} {keys : List Str} {e : Event}

/-! ### The events, one by one -/

/-- A request touches the store and the record of the writes. -/
lemma serve_cases (h : m.serve message = some m') : ∃ mc : LruCache Str Str,
    m' = { m with
      cache := { m.cache with mainCache := mc, kvUpdateFlag := true, kvToReplica := message }
      written := ((writeOf message).map Prod.fst).toList ++ m.written } ∧
    ((writeOf message = none ∧ ∀ k, mc.lookup k = m.cache.mainCache.lookup k) ∨
      ∃ key val, writeOf message = some (key, val) ∧ mc = (m.cache.mainCache.put key val).2) := by
  simp only [serve, Option.bind_eq_bind, Option.bind_eq_some_iff, Option.pure_def,
    Option.some.injEq] at h
  obtain ⟨⟨c, buffer⟩, hc, rfl⟩ := h
  obtain ⟨mc, rfl, hcases⟩ := Cache.clientChat_cases hc
  exact ⟨mc, rfl, hcases.imp (fun h => ⟨h.1, h.2.2⟩) id⟩

lemma step_client (h : m.step (.client message) = some m') :
    m.phase ≠ .exited ∧ m.serve message = some m' := by
  simp only [step] at h
  split_ifs at h with hexited
  exact ⟨hexited, h⟩

/-- The snapshot has the keys of the store, and a target for each. -/
lemma step_snapshot (h : m.step (.snapshot keys) = some m') :
    m.phase = .start ∧ keys.Perm m.cache.mainCache.keys ∧ ∃ c : Cache,
      c.mainCache = m.cache.mainCache ∧ c.outKey = keys ∧ c.otherIP.length = keys.length ∧
      c.otherPort.length = keys.length ∧
      m' = { m with cache := c, phase := .sending 0, written := [] } := by
  simp only [step] at h
  split_ifs at h with hstart
  obtain ⟨c, hc, rfl⟩ := Option.map_eq_some_iff.mp h
  obtain ⟨hmain, hout, hip, hport⟩ := Cache.calHashKey_cases hc
  exact ⟨hstart.1, hstart.2.2.2, c, hmain, hout, hip, hport, rfl⟩

/-- A turn of the loop sends the entry of its key. -/
lemma step_send (h : m.step .send = some m') : ∃ i address key,
    m.phase = .sending i ∧ m.target i = some address ∧ m.cache.outKey[i]? = some key ∧
    m' = { m with
      cache := (m.cache.toSingleCache key).2
      phase := .sending (i + 1)
      sent := (address, (m.cache.toSingleCache key).1) :: m.sent
      written := m.written.filter (· ≠ key) } := by
  simp only [step] at h
  split at h
  next i hphase =>
    split_ifs at h
    simp only [sendNext, Option.bind_eq_bind, Option.bind_eq_some_iff, Option.pure_def,
      Option.some.injEq] at h
    obtain ⟨address, haddress, key, hkey, rfl⟩ := h
    exact ⟨i, address, key, hphase, haddress, hkey, rfl⟩
  next => cases h

/-- The loop is over when every target has had its turn. -/
lemma step_exit (h : m.step .exit = some m') : ∃ i,
    m.phase = .sending i ∧ m.cache.otherPort.length ≤ i ∧ m' = { m with phase := .exited } := by
  simp only [step] at h
  split at h
  next i hphase =>
    split_ifs at h with hlt
    cases h
    exact ⟨i, hphase, not_lt.mp hlt, rfl⟩
  next => cases h

/-! ### The entries that are covered -/

/-- A request keeps the entries covered: what it writes is recorded. -/
lemma Covered.serve (h : m.Covered i) (hs : m.serve message = some m') : m'.Covered i := by
  obtain ⟨mc, rfl, ⟨hno, hlookup⟩ | ⟨key, val, hwrite, rfl⟩⟩ := serve_cases hs
  · intro k v hv hk
    rw [hno] at hk
    exact h k v ((hlookup k).symm.trans hv) hk
  · intro k v hv hk
    rw [hwrite] at hk
    simp only [Option.map_some, Option.toList_some, List.singleton_append, List.mem_cons,
      not_or] at hk
    rcases LruCache.lookup_put hv with ⟨rfl, -⟩ | ⟨-, hold⟩
    · exact absurd rfl hk.1
    · exact h k v hold hk.2

/-- At the beginning every entry is in the snapshot. -/
lemma covered_snapshot (h : m.step (.snapshot keys) = some m') : m'.Covered 0 := by
  obtain ⟨-, hperm, c, hmain, hout, -, -, rfl⟩ := step_snapshot h
  intro k v hv _
  dsimp only at hv ⊢
  have hmem : k ∈ keys := by
    rw [hperm.mem_iff, ← hmain]
    exact LruCache.mem_keys_of_lookup hv
  obtain ⟨j, hj⟩ := List.mem_iff_getElem?.mp hmem
  exact ⟨j, hout ▸ hj, fun hlt => absurd hlt (Nat.not_lt_zero j)⟩

/-- A turn of the loop covers the key of the turn. -/
lemma Covered.send (h : m.Covered i) (hphase : m.phase = .sending i)
    (hs : m.step .send = some m') : m'.Covered (i + 1) := by
  obtain ⟨i', address, key, hphase', haddress, hkey, rfl⟩ := step_send hs
  rw [hphase, Phase.sending.injEq] at hphase'
  subst hphase'
  intro k v hv hk
  dsimp only at hv hk ⊢
  rw [Cache.lookup_toSingleCache] at hv
  by_cases hkk : k = key
  · subst hkk
    refine ⟨i, hkey, fun _ => ⟨address, haddress, ?_⟩⟩
    rw [Cache.toSingleCache_fst, hv]
    exact List.mem_cons_self
  · have hk' : k ∉ m.written := fun hmem => hk (by simpa [hkk] using hmem)
    obtain ⟨j, hj, hsent⟩ := h k v hv hk'
    refine ⟨j, hj, fun hlt => ?_⟩
    have hne : j ≠ i := by
      rintro rfl
      rw [hkey] at hj
      exact hkk (Option.some.inj hj).symm
    obtain ⟨a, ha, hmem⟩ := hsent (by omega)
    exact ⟨a, ha, List.mem_cons_of_mem _ hmem⟩

lemma inv_init (h : Init m) : m.Inv := by
  obtain ⟨-, hphase, -⟩ := h
  refine ⟨fun hne => absurd hphase hne, ?_, ?_⟩
  · intro i hi
    rw [hphase] at hi
    cases hi
  · intro he
    rw [hphase] at he
    cases he

lemma Inv.step (hi : m.Inv) (hs : m.step e = some m') : m'.Inv := by
  cases e with
  | client message =>
    obtain ⟨hexited, hserve⟩ := step_client hs
    have hcov : ∀ i, m.Covered i → m'.Covered i := fun i h => h.serve hserve
    obtain ⟨mc, rfl, -⟩ := serve_cases hserve
    exact ⟨hi.length, fun i hphase => hcov i (hi.sending i hphase),
      fun hphase => absurd hphase hexited⟩
  | snapshot keys =>
    have hcov := covered_snapshot hs
    obtain ⟨-, -, c, -, hout, hip, hport, rfl⟩ := step_snapshot hs
    refine ⟨fun _ => ⟨by rw [hip, hout], by rw [hport, hout]⟩, ?_, ?_⟩
    · intro i hphase
      cases hphase
      exact hcov
    · intro hphase
      cases hphase
  | send =>
    obtain ⟨i, address, key, hphase, -, -, rfl⟩ := step_send hs
    have hcov := (hi.sending i hphase).send hphase hs
    refine ⟨fun _ => hi.length (by simp [hphase]), ?_, ?_⟩
    · intro j hj
      cases hj
      exact hcov
    · intro he
      cases he
  | exit =>
    obtain ⟨i, hphase, hle, rfl⟩ := step_exit hs
    have hlen := hi.length (by simp [hphase])
    refine ⟨fun _ => hlen, ?_, ?_⟩
    · intro j hj
      cases hj
    · intro _ k v hv hk
      obtain ⟨j, hj, hsent⟩ := hi.sending i hphase k v hv hk
      refine ⟨j, hj, fun hjlt => hsent ?_⟩
      dsimp only at hjlt
      omega

/-- **The entries at the end.**  When the dying cache exits, every entry that no client wrote since
it was sent (or, when it was not, since the snapshot) has been sent with its value to the address
chosen for its key. -/
theorem sent_of_exited (h : Reach Init step (fun _ _ => True) m) (hexit : m.phase = .exited) :
    ∀ k v, m.cache.mainCache.lookup k = some v → k ∉ m.written →
      ∃ i address, m.cache.outKey[i]? = some k ∧ m.target i = some address ∧
        (address, k ++ sharp :: v) ∈ m.sent := by
  have hi : m.Inv := h.invariant (fun _ => inv_init) fun _ _ _ _ hi _ hs => hi.step hs
  intro k v hv hk
  obtain ⟨i, hi, hsent⟩ := hi.exited hexit k v hv hk
  obtain ⟨address, haddress, hmem⟩ := hsent (List.getElem?_eq_some_iff.mp hi).1
  exact ⟨i, address, hi, haddress, hmem⟩

/-- A dying cache with no entries, and one other cache. -/
def empty : Migration :=
  ⟨{ Cache.new 10 (lit "P") (lit "127.0.0.1") (lit "8001") (lit "9001") with
    status := lit "K", cacheList := [(lit "127.0.0.1", lit "9002")] }, .start, [], []⟩

theorem sent_of_exited_single : ∃ m, path step (fun _ _ => True) empty
    [.client (lit "a#1"), .snapshot [lit "a"], .send, .exit] = some m ∧
      ∃ address, (address, lit "a#1") ∈ m.sent := by
  have hrun : (path step (fun _ _ => True) empty
      [.client (lit "a#1"), .snapshot [lit "a"], .send, .exit]).map (fun m =>
        (m.phase, m.cache.mainCache.lookup (lit "a"), m.written)) =
      some (.exited, some (lit "1"), []) := by
    decide +kernel
  obtain ⟨m, hm, hf⟩ := Option.map_eq_some_iff.mp hrun
  simp only [Prod.mk.injEq] at hf
  obtain ⟨i, address, -, -, hmem⟩ := sent_of_exited
    (reach_of_path ⟨rfl, rfl, rfl, rfl⟩ hm) hf.1 _ _ hf.2.1 (by rw [hf.2.2]; exact List.not_mem_nil)
  exact ⟨m, hm, address, hmem⟩

/-- The write that comes after the snapshot is lost. -/
theorem write_after_snapshot_lost : ∃ m, Reach Init step (fun _ _ => True) m ∧ m.phase = .exited ∧
    m.cache.mainCache.lookup (lit "a") = some (lit "1") ∧ m.sent = [] := by
  have hrun : (path step (fun _ _ => True) empty
      [.snapshot [], .client (lit "a#1"), .exit]).map (fun m =>
        (m.phase, m.cache.mainCache.lookup (lit "a"), m.sent.length)) =
      some (.exited, some (lit "1"), 0) := by
    decide +kernel
  obtain ⟨m, hm, hf⟩ := Option.map_eq_some_iff.mp hrun
  simp only [Prod.mk.injEq, List.length_eq_zero_iff] at hf
  exact ⟨m, reach_of_path ⟨rfl, rfl, rfl, rfl⟩ hm, hf⟩

end Migration

end DistCache
