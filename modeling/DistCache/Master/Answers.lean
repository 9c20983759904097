import DistCache.Master.Takeover

/-!
What changes the answers to the clients.

The answer for a key is the client address of the primary that the ring gives.  Connections, heartbeats,
backups that come and go and the clock leave all answers as they are (`steady_step`), and a backup that takes
over gets the keys of its primary and no others (`hands_over`).  The other events move keys between primaries:
a primary that joins, one that dies without a backup, and a shrink.
-/

namespace DistCache

open Lib

/-- The address `ip:port` that a client gets, from the `IP#PORT` of the record. -/
def FdMap.clientAddr (e : FdMap) : Option Str := do
  let ip ← (splitSharp e.ipPort)[0]?
  let port ← (splitSharp e.ipPort)[1]?
  return ip ++ colon :: port

namespace Master

variable {m m' : Master} {fd p b q : ℤ} {msg k : Str} {am : Map Str ℤ} {e f : FdMap} {out : Out}
  {fds : Finset ℤ}

/-- The address that a client gets for a descriptor. -/
def clientAddr (m : Master) (fd : ℤ) : Option Str := (m.cachesList.lookup fd).bind FdMap.clientAddr

lemma handleClientMessage_eq_bind (m : Master) (k : Str) :
    m.handleClientMessage k = (m.lookupFd k).bind m.clientAddr := rfl

/-- The address of a descriptor is a matter of one field. -/
lemma clientAddr_congr
    (h : (m'.cachesList.lookup q).map FdMap.ipPort = (m.cachesList.lookup q).map FdMap.ipPort) :
    m'.clientAddr q = m.clientAddr q := by
  unfold clientAddr
  cases h' : m'.cachesList.lookup q with
  | none =>
    rw [h', Option.map_none, eq_comm, Option.map_eq_none_iff] at h
    rw [h]
  | some e' =>
    rw [h', Option.map_some, eq_comm, Option.map_eq_some_iff] at h
    obtain ⟨e, he, hport⟩ := h
    rw [he, Option.bind_some, Option.bind_some, FdMap.clientAddr, FdMap.clientAddr, hport]

/-- The answers are a matter of the ring, of `fd_node` and of the addresses of its entries. -/
lemma answers_congr (hring : m'.cacheAddrHash = m.cacheAddrHash) (hnode : m'.fdNode = m.fdNode)
    (hport : ∀ q ∈ m.fdNode,
      (m'.cachesList.lookup q).map FdMap.ipPort = (m.cachesList.lookup q).map FdMap.ipPort) (k : Str) :
    m'.handleClientMessage k = m.handleClientMessage k := by
  have hroute : m'.lookupFd k = m.lookupFd k := by
    rw [lookupFd, lookupFd, lookupIndex, lookupIndex, hring, hnode]
  rw [handleClientMessage_eq_bind, handleClientMessage_eq_bind, hroute]
  cases hq : m.lookupFd k with
  | none => rfl
  | some q => exact clientAddr_congr (hport q (mem_of_lookupFd hq))

section Records

variable {l : Map ℤ FdMap} {a top : ℤ} {te : FdMap}

lemma ipPort_insert_of_ne (h : q ≠ a) (e : FdMap) :
    ((l.insert a e).lookup q).map FdMap.ipPort = (l.lookup q).map FdMap.ipPort := by
  rw [Finmap.lookup_insert_of_ne _ h]

lemma ipPort_insert_same (hte : l.lookup top = some te) (hport : f.ipPort = te.ipPort) (q : ℤ) :
    ((l.insert top f).lookup q).map FdMap.ipPort = (l.lookup q).map FdMap.ipPort := by
  rw [lookup_insert_ite]
  split_ifs with hq
  · rw [hq, hte, Option.map_some, Option.map_some, hport]
  · rfl

end Records

/-! ### Heartbeats and deaths that move no key -/

/-- A heartbeat of a cache that does not join as a primary. -/
lemma Sound.steady_heard (hs : m.Sound) (hx : msg.head? = some 120) (hjoins : ¬ m.Joins fd msg (lit "P"))
    (hh : m.Heard fd msg am m') (k : Str) : m'.handleClientMessage k = m.handleClientMessage k := by
  have hne : ∀ {r : Str} {e : FdMap}, m.First fd msg r e → ∀ q ∈ m.fdNode, q ≠ fd := fun hf =>
    hs.ne_of_status (hf.lookup_new hs.known).1 FdMap.status_new_ne
  cases hh with
  | again => rfl
  | primary hf => exact absurd (hf.joins hx) hjoins
  | primaryPaired hf => exact absurd (hf.joins hx) hjoins
  | replica hf | other hf =>
    refine answers_congr ?_ ?_ (fun q hq => ?_) k
    · rfl
    · rfl
    · exact ipPort_insert_of_ne (hne hf q hq) _
  | replicaPaired hf _ hte =>
    refine answers_congr ?_ ?_ (fun q hq => ?_) k
    · rfl
    · rfl
    · refine (ipPort_insert_same hte ?_ q).trans (ipPort_insert_of_ne (hne hf q hq) _)
      rfl

/-- The death of a cache that is no primary. -/
lemma Sound.steady_dead (hs : m.Sound) (hrole : role m.cachesList fd ≠ some statusP) (hd : m.Dead fd out)
    (k : Str) : Master.handleClientMessage { out.master with cachesList := out.master.cachesList.erase fd } k =
      m.handleClientMessage k := by
  have hne : ∀ q ∈ m.fdNode, q ≠ fd := by
    rintro q hq rfl
    exact hrole (hs.primary q hq)
  have herase : ∀ {l : Map ℤ FdMap}, ∀ q ∈ m.fdNode,
      ((l.erase fd).lookup q).map FdMap.ipPort = (l.lookup q).map FdMap.ipPort := fun q hq => by
    rw [Finmap.lookup_erase_ne (hne q hq)]
  cases hd with
  | replica _ _ hb =>
    refine answers_congr ?_ ?_ (fun q hq => ?_) k
    · rfl
    · rfl
    · refine (herase q hq).trans (ipPort_insert_same hb ?_ q)
      rfl
  | other =>
    refine answers_congr ?_ ?_ (fun q hq => ?_) k
    · rfl
    · rfl
    · exact herase q hq
  | paired he hstatus | alone he hstatus | stray he hstatus =>
    exact absurd (by rw [role_of_lookup he, hstatus]) hrole

/-! ### A backup that takes over -/

/-- The keys of one address go to another one, and no other key moves. -/
structure HandsOver (m m' : Master) (old new : Str) : Prop where
  moved : ∀ k, m.handleClientMessage k = some old → m'.handleClientMessage k = some new
  kept : ∀ k addr, m.handleClientMessage k = some addr → addr ≠ old →
    m'.handleClientMessage k = some addr

/-- No other connection has the client address of a primary. -/
def Apart (m : Master) : Prop :=
  ∀ q ∈ m.fdNode, ∀ a ∈ m.cachesList.keys, m.clientAddr q = m.clientAddr a → q = a

instance decidableApart (m : Master) : Decidable m.Apart := by
  unfold Apart; infer_instance

/-- The place of the primary in `fd_node` is its backup's. -/
lemma Backed.hands_over (h : m.Backed p b e f) (hapart : m.Apart) {old new : Str}
    (hold : m.clientAddr p = some old) (hnew : m.clientAddr b = some new) :
    HandsOver m (m.takenOver p b f) old new := by
  have hkept : ∀ q, q ≠ p → (m.takenOver p b f).clientAddr q = m.clientAddr q := fun q hq =>
    clientAddr_congr (h.ipPort hq)
  have hp : p ∈ m.cachesList.keys := Finmap.mem_keys.mpr (Finmap.mem_of_lookup_eq_some h.primary)
  constructor
  · intro k hk
    rw [handleClientMessage_eq_bind] at hk
    obtain ⟨q, hq, hk⟩ := Option.bind_eq_some_iff.mp hk
    obtain rfl : q = p := hapart q (mem_of_lookupFd hq) p hp (hk.trans hold.symm)
    rw [handleClientMessage_eq_bind, h.lookupFd, hq, Option.map_some, if_pos rfl, Option.bind_some,
      hkept b h.ne, hnew]
  · intro k addr hk haddr
    rw [handleClientMessage_eq_bind] at hk
    obtain ⟨q, hq, hk⟩ := Option.bind_eq_some_iff.mp hk
    have hqp : q ≠ p := by
      rintro rfl
      exact haddr (Option.some.inj (hk.symm.trans hold))
    rw [handleClientMessage_eq_bind, h.lookupFd, hq, Option.map_some, if_neg hqp, Option.bind_some,
      hkept q hqp, hk]

/-- No key has been with the backup. -/
lemma Backed.unplaced (h : m.Backed p b e f) (hs : m.Sound) (hapart : m.Apart) {new : Str}
    (hnew : m.clientAddr b = some new) (k : Str) : m.handleClientMessage k ≠ some new := by
  intro hk
  rw [handleClientMessage_eq_bind] at hk
  obtain ⟨q, hq, hk⟩ := Option.bind_eq_some_iff.mp hk
  have hb : b ∈ m.cachesList.keys := Finmap.mem_keys.mpr (Finmap.mem_of_lookup_eq_some h.backup)
  obtain rfl : q = b := hapart q (mem_of_lookupFd hq) b hb (hk.trans hnew.symm)
  refine hs.ne_of_status h.backup ?_ q (mem_of_lookupFd hq) rfl
  rw [h.isBackup]
  decide

end Master

namespace World

variable {w w' : World} {e : Event} {p : ℤ} {r : FdMap}

/-- No primary joins and none is found dead, and nothing is shrunk. -/
def Steady (w : World) : Event → Prop
  | .accept _ | .tick => True
  | .receive fd msg => ¬ w.master.Joins fd msg (lit "P")
  | .detect fd => w.master.heartBeatDetect w.timeNow fd = some false →
    role w.master.cachesList fd ≠ some statusP
  | .shrinkBegin | .shrinkEnd => False

instance decidableSteady (w : World) : (e : Event) → Decidable (w.Steady e)
  | .accept _ | .tick => isTrue trivial
  | .receive fd msg => inferInstanceAs (Decidable (¬ w.master.Joins fd msg (lit "P")))
  | .detect fd => inferInstanceAs (Decidable
      (w.master.heartBeatDetect w.timeNow fd = some false → role w.master.cachesList fd ≠ some statusP))
  | .shrinkBegin | .shrinkEnd => isFalse id

/-- **No key moves** when no primary comes or goes. -/
theorem steady_step (hk : w.Keyed) (hs : w.master.Sound) (hsteady : w.Steady e) (h : w.step e = some w')
    (k : Str) :
    w'.master.handleClientMessage k = w.master.handleClientMessage k := by
  cases e with
  | accept fd =>
    obtain ⟨-, hfd, rfl⟩ := step_accept h
    refine Master.answers_congr ?_ ?_ (fun q hq => ?_) k
    · rfl
    · rfl
    · refine Master.ipPort_insert_of_ne ?_ _
      rintro rfl
      obtain ⟨e, he, -⟩ := Option.map_eq_some_iff.mp (hs.primary q hq)
      exact hfd (hk q e he).2.2
  | receive fd msg =>
    obtain ⟨-, ⟨-, rfl⟩ | ⟨hx, m, am, hh, rfl⟩⟩ := step_receive h
    · rfl
    · exact hs.steady_heard hx hsteady hh k
  | detect fd =>
    rcases step_detect hk h with ⟨-, rfl⟩ | ⟨hdead, out, hd, rfl⟩
    · rfl
    · exact hs.steady_dead (hsteady hdead) hd k
  | tick =>
    cases h
    rfl
  | shrinkBegin => exact hsteady.elim
  | shrinkEnd => exact hsteady.elim

/-- **A takeover.**  When a primary with a backup is found dead, its keys go to its backup, with which no key
has been before, and no other key moves. -/
theorem hands_over (hr : Reach Init step (fun w e => Atomic w e ∧ PopsSound w e) w)
    (hapart : w.master.Apart) (he : w.master.cachesList.lookup p = some r) (hmem : p ∈ w.master.fdNode)
    (hpos : 0 < r.pairFd) (hdead : w.master.heartBeatDetect w.timeNow p = some false)
    (h : w.step (.detect p) = some w') {old new : Str} (hold : w.master.clientAddr p = some old)
    (hnew : w.master.clientAddr r.pairFd = some new) :
    w.master.HandsOver w'.master old new ∧ ∀ k, w.master.handleClientMessage k ≠ some new := by
  obtain ⟨f, hbacked⟩ := backed_of_reach hr hmem he hpos
  obtain ⟨out, hout, hmaster⟩ := hbacked.detect he (keyed_of_reach hr p r he).1 hdead
  obtain ⟨x, hx, rfl⟩ := Option.map_eq_some_iff.mp h
  simp only [exec, hout, Option.map_some, Option.some.injEq] at hx
  subst hx
  refine ⟨?_, hbacked.unplaced (sound_of_reach hr) hapart hnew⟩
  show w.master.HandsOver out.master old new
  rw [hmaster]
  exact hbacked.hands_over hapart hold hnew

end World

end DistCache
