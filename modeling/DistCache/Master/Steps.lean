import DistCache.Master.State

/-!
What each operation of the master can do to its tables, said once: one case per branch of the
source, with the guard of the branch and the tables it leaves.  The invariants are proved from
these cases and never unfold an operation.
-/

namespace DistCache

open Lib

namespace Master

variable {m m' : Master} {fd key top pair : ℤ} {t : ℤ} {msg : Str} {out : Out} {sh : Shrink}

/-! ### Assignments through `caches_list` -/

lemma setPairFd_eq_some_iff : m.setPairFd fd pair = some m' ↔ ∃ e, m.cachesList.lookup fd = some e ∧
    m' = { m with cachesList := m.cachesList.insert fd { e with pairFd := pair } } := by
  simp only [setPairFd, Option.bind_eq_bind, Option.bind_eq_some_iff, Option.pure_def,
    Option.some.injEq]
  simp only [eq_comm]

lemma setStatus_eq_some_iff {status : UInt8} : m.setStatus fd status = some m' ↔
    ∃ e, m.cachesList.lookup fd = some e ∧
      m' = { m with cachesList := m.cachesList.insert fd { e with status := status } } := by
  simp only [setStatus, Option.bind_eq_bind, Option.bind_eq_some_iff, Option.pure_def,
    Option.some.injEq]
  simp only [eq_comm]

/-- The records after `fd`, with record `e`, is paired with `top`, whose record is then `te`. -/
def paired (l : Map ℤ FdMap) (fd top : ℤ) (e te : FdMap) : Map ℤ FdMap :=
  (l.insert fd { e with pairFd := top }).insert top { te with pairFd := fd }

lemma pairUp_insert_eq_some {l : Map ℤ FdMap} {e : FdMap} (hl : m.cachesList = l.insert fd e)
    (h : m.pairUp fd top = some m') :
    ∃ te, (l.insert fd { e with pairFd := top }).lookup top = some te ∧
      m' = { m with cachesList := paired l fd top e te } := by
  simp only [pairUp, Option.bind_eq_bind, Option.bind_eq_some_iff, setPairFd_eq_some_iff, hl] at h
  obtain ⟨m₁, ⟨e₁, he₁, rfl⟩, te, hte, rfl⟩ := h
  rw [lookup_insert_ite, if_pos rfl, Option.some.injEq] at he₁
  subst he₁
  simp only [Finmap.insert_insert] at hte
  exact ⟨te, hte, by simp only [Finmap.insert_insert, paired]⟩

/-! ### Heartbeats -/

/-- `msg` is the first heartbeat of `fd`, in the role `role`, and makes its record `e`. -/
inductive First (m : Master) (fd : ℤ) (msg role : Str) : FdMap → Prop
  | mk {it : FdMap} {ip portClient portCache : Str} {status : UInt8}
      (hit : m.cachesList.lookup fd = some it) (hnew : it.ipPort = noAddr)
      (hip : (splitSharp msg)[1]? = some ip) (hclient : (splitSharp msg)[2]? = some portClient)
      (hcache : (splitSharp msg)[3]? = some portCache) (hrole : (splitSharp msg)[4]? = some role)
      (hstatus : role.head? = some status) :
      First m fd msg role (it.register ip portClient portCache status)

/-- What a heartbeat on `fd` can leave, beside the new times `am`. -/
inductive Heard (m : Master) (fd : ℤ) (msg : Str) (am : Map Str ℤ) : Master → Prop
  /-- It is not the first one. -/
  | again {it : FdMap} (hit : m.cachesList.lookup fd = some it) (hold : it.ipPort ≠ noAddr) :
      Heard m fd msg am { m with cacheAddrMap := am }
  /-- A primary joins and waits for a backup. -/
  | primary {e : FdMap} (hf : First m fd msg (lit "P") e) (hr : m.rcache = []) :
      Heard m fd msg am { m with
        cacheAddrHash := m.cacheAddrHash.addNode m.fdNode.length
        cacheAddrMap := am
        cachesList := m.cachesList.insert fd e
        fdNode := m.fdNode ++ [fd]
        pcache := fd :: m.pcache }
  /-- A primary joins and is paired with the backup on top of `rcache`. -/
  | primaryPaired {e te : FdMap} {top : ℤ} {rest : List ℤ} (hf : First m fd msg (lit "P") e)
      (hr : m.rcache = top :: rest)
      (hte : (m.cachesList.insert fd { e with pairFd := top }).lookup top = some te) :
      Heard m fd msg am { m with
        cacheAddrHash := m.cacheAddrHash.addNode m.fdNode.length
        cacheAddrMap := am
        cachesList := paired m.cachesList fd top e te
        fdNode := m.fdNode ++ [fd]
        rcache := rest }
  /-- A backup joins and waits for a primary. -/
  | replica {e : FdMap} (hf : First m fd msg (lit "R") e) (hp : m.pcache = []) :
      Heard m fd msg am { m with
        cacheAddrMap := am
        cachesList := m.cachesList.insert fd e
        rcache := fd :: m.rcache }
  /-- A backup joins and is paired with the primary on top of `pcache`. -/
  | replicaPaired {e te : FdMap} {top : ℤ} {rest : List ℤ} (hf : First m fd msg (lit "R") e)
      (hp : m.pcache = top :: rest)
      (hte : (m.cachesList.insert fd { e with pairFd := top }).lookup top = some te) :
      Heard m fd msg am { m with
        cacheAddrMap := am
        cachesList := paired m.cachesList fd top e te
        pcache := rest }
  /-- The role is neither `P` nor `R`: the connection gets a record and nothing else. -/
  | other {e : FdMap} {role : Str} (hf : First m fd msg role e) (hP : role ≠ lit "P")
      (hR : role ≠ lit "R") :
      Heard m fd msg am { m with cacheAddrMap := am, cachesList := m.cachesList.insert fd e }

lemma pairUp_fdNode (h : m.pairUp fd top = some m') :
    m'.fdNode = m.fdNode ∧ m'.cacheAddrHash = m.cacheAddrHash := by
  simp only [pairUp, Option.bind_eq_bind, Option.bind_eq_some_iff, setPairFd_eq_some_iff] at h
  obtain ⟨m₁, ⟨e, -, rfl⟩, te, -, rfl⟩ := h
  exact ⟨rfl, rfl⟩

lemma pairPrimary_fdNode (h : m.pairPrimary fd = some m') :
    m'.fdNode = m.fdNode ∧ m'.cacheAddrHash = m.cacheAddrHash := by
  unfold pairPrimary at h
  split at h
  · obtain ⟨m₁, hm₁, rfl⟩ := Option.map_eq_some_iff.mp h
    obtain ⟨hnode, hhash⟩ := pairUp_fdNode hm₁
    exact ⟨hnode, hhash⟩
  · cases h
    exact ⟨rfl, rfl⟩

/-- The tables after a primary joins: those after it is paired or waits, and one more shard. -/
lemma joinPrimary_master (h : m.joinPrimary fd = some out) :
    ∃ m₁, { m with fdNode := m.fdNode ++ [fd] }.pairPrimary fd = some m₁ ∧
      out.master = { m₁ with cacheAddrHash := m.cacheAddrHash.addNode m.fdNode.length } := by
  simp only [joinPrimary, Option.bind_eq_bind, Option.bind_eq_some_iff, Option.pure_def,
    Option.some.injEq] at h
  obtain ⟨m₁, hm₁, fd', -, e, -, addrs, -, rfl⟩ := h
  obtain ⟨hnode, hhash⟩ := pairPrimary_fdNode hm₁
  refine ⟨m₁, hm₁, ?_⟩
  simp [hnode, hhash]

/-- The cases of a heartbeat. -/
theorem heard_of_heartbeat (h : m.heartbeat t fd msg = some out) :
    ∃ am, Heard m fd msg am out.master := by
  simp only [heartbeat, Option.bind_eq_bind, Option.bind_eq_some_iff, Option.pure_def,
    handleHeartBeatResponse] at h
  obtain ⟨it, hit, out₁, hout₁, answer, -, m₁, ⟨ip', -, port', -, hm₁⟩, hout⟩ := h
  cases hm₁
  cases hout
  refine ⟨out₁.master.cacheAddrMap.insert (ip' ++ sharp :: port') t, ?_⟩
  dsimp only
  generalize out₁.master.cacheAddrMap.insert (ip' ++ sharp :: port') t = am
  split_ifs at hout₁ with hnew
  · simp only [firstHeartbeat, Option.bind_eq_bind, Option.bind_eq_some_iff, Option.pure_def] at hout₁
    obtain ⟨it', hit', ip, hip, portClient, hclient, portCache, hcache, role, hrole, status,
      hstatus, hout₁⟩ := hout₁
    have hf : First m fd msg role (it.register ip portClient portCache status) :=
      .mk hit hnew hip hclient hcache hrole hstatus
    rw [hit, Option.some.injEq] at hit'
    subst hit'
    split_ifs at hout₁ with hP hR
    · subst hP
      obtain ⟨m₂, hm₂, hout₁⟩ := joinPrimary_master hout₁
      rw [hout₁]
      unfold pairPrimary at hm₂
      split at hm₂
      next top rest hr =>
        obtain ⟨m₃, hm₃, rfl⟩ := Option.map_eq_some_iff.mp hm₂
        obtain ⟨te, hte, rfl⟩ := pairUp_insert_eq_some rfl hm₃
        exact .primaryPaired hf hr hte
      next hr =>
        cases hm₂
        exact .primary hf hr
    · subst hR
      simp only [joinReplica, Option.bind_eq_bind, Option.bind_eq_some_iff, Option.pure_def,
        Option.some.injEq] at hout₁
      obtain ⟨m₂, hm₂, rfl⟩ := hout₁
      unfold pairReplica at hm₂
      split at hm₂
      next top rest hp =>
        obtain ⟨m₃, hm₃, rfl⟩ := Option.map_eq_some_iff.mp hm₂
        obtain ⟨te, hte, rfl⟩ := pairUp_insert_eq_some rfl hm₃
        exact .replicaPaired hf hp hte
      next hp =>
        cases hm₂
        exact .replica hf hp
    · cases hout₁
      exact .other hf hP hR
  · cases hout₁
    exact .again hit hnew

section Keys

variable {e te : FdMap} {role : Str} {am : Map Str ℤ} {a : ℤ}

lemma First.mem (hf : First m fd msg role e) : fd ∈ m.cachesList := by
  obtain ⟨hit, -⟩ := hf
  exact Finmap.mem_of_lookup_eq_some hit

lemma mem_paired {l : Map ℤ FdMap} (hfd : fd ∈ l)
    (hte : (l.insert fd { e with pairFd := top }).lookup top = some te) :
    a ∈ paired l fd top e te ↔ a ∈ l := by
  have htop := Finmap.mem_of_lookup_eq_some hte
  rw [Finmap.mem_insert] at htop
  unfold paired
  rw [Finmap.mem_insert, Finmap.mem_insert]
  constructor
  · rintro (rfl | rfl | ha)
    · rcases htop with rfl | htop
      · exact hfd
      · exact htop
    · exact hfd
    · exact ha
  · exact fun ha => .inr (.inr ha)

/-- A heartbeat changes records, and neither adds nor removes one. -/
lemma Heard.mem_iff (h : Heard m fd msg am m') : a ∈ m'.cachesList ↔ a ∈ m.cachesList := by
  have hins : ∀ {e : FdMap} {role : Str}, First m fd msg role e →
      (a ∈ m.cachesList.insert fd e ↔ a ∈ m.cachesList) := by
    intro e role hf
    rw [Finmap.mem_insert]
    exact ⟨fun h => h.elim (fun h => h ▸ hf.mem) id, .inr⟩
  cases h with
  | again => exact Iff.rfl
  | primary hf => exact hins hf
  | primaryPaired hf _ hte => exact mem_paired hf.mem hte
  | replica hf => exact hins hf
  | replicaPaired hf _ hte => exact mem_paired hf.mem hte
  | other hf => exact hins hf

end Keys

/-- A heartbeat leaves `fd_node` and the ring as they are, unless a primary joins: it goes to the
end of both. -/
lemma Heard.node_cases (h : Heard m fd msg am m') :
    (m'.fdNode = m.fdNode ∧ m'.cacheAddrHash = m.cacheAddrHash) ∨
      (∃ e, First m fd msg (lit "P") e) ∧ m'.fdNode = m.fdNode ++ [fd] ∧
        m'.cacheAddrHash = m.cacheAddrHash.addNode m.fdNode.length := by
  cases h with
  | again | replica | replicaPaired | other => exact .inl ⟨rfl, rfl⟩
  | primary hf | primaryPaired hf => exact .inr ⟨⟨_, hf⟩, rfl, rfl⟩

lemma heartbeat_closed (h : m.heartbeat t fd msg = some out) : out.closed = [] := by
  simp only [heartbeat, Option.bind_eq_bind, Option.bind_eq_some_iff, Option.pure_def,
    Option.some.injEq] at h
  obtain ⟨it, -, out₁, -, answer, -, m₁, -, rfl⟩ := h
  rfl

/-! ### Deaths -/

/-- What the death of `fd` can leave before its record is erased. -/
inductive Dead (m : Master) (fd : ℤ) : Out → Prop
  /-- A backup: its primary is unpaired and waits.  (A record that is its own partner has just
  lost it when it is read again.) -/
  | replica {e b : FdMap} (he : m.cachesList.lookup fd = some e) (hs : e.status = statusR)
      (hb : m.cachesList.lookup e.pairFd = some b) :
      Dead m fd
        { master := { m with
            cachesList := m.cachesList.insert e.pairFd { b with pairFd := -1 }
            pcache := (if e.pairFd = fd then -1 else e.pairFd) :: m.pcache }
          closed := [fd] }
  /-- A primary with a backup, which takes its place. -/
  | paired {e b : FdMap} {str1 str2 : Str} (he : m.cachesList.lookup fd = some e)
      (hs : e.status = statusP) (hpos : 0 < e.pairFd) (hne : e.pairFd ≠ fd)
      (hb : m.cachesList.lookup e.pairFd = some b) (h₁ : sharpToColon e.ipCache = some str1)
      (h₂ : sharpToColon b.ipCache = some str2) :
      Dead m fd
        { master := { m with
            cachesList := m.cachesList.insert e.pairFd { b with status := statusP, pairFd := -1 }
            fdNode := m.fdNode.set (m.fdNode.idxOf fd) e.pairFd
            pcache := e.pairFd :: m.pcache }
          sends := (m.fdNode.set (m.fdNode.idxOf fd) e.pairFd).map fun fdi =>
            (fdi, lit "C#" ++ str1 ++ sharp :: str2)
          closed := [fd] }
  /-- A primary without a backup: it leaves `fd_node` and the ring. -/
  | alone {e : FdMap} (he : m.cachesList.lookup fd = some e) (hs : e.status = statusP)
      (hpair : ¬ 0 < e.pairFd) (hmem : fd ∈ m.fdNode) :
      Dead m fd
        { master := { m with
            fdNode := m.fdNode.erase fd
            cacheAddrHash := m.cacheAddrHash.deleteNode (m.fdNode.idxOf fd) }
          sends := (m.fdNode.erase fd).map fun fdi => (fdi, lit "D#" ++ e.ipCache)
          closed := [fd] }
  /-- A record with status `'P'` that never entered `fd_node`. -/
  | stray {e : FdMap} (he : m.cachesList.lookup fd = some e) (hs : e.status = statusP)
      (hpair : ¬ 0 < e.pairFd) (hmem : fd ∉ m.fdNode) :
      Dead m fd
        { master := m
          sends := m.fdNode.map fun fdi => (fdi, lit "D#" ++ e.ipCache)
          closed := [fd] }
  /-- A record with neither status: nothing is done, and the connection stays open. -/
  | other {e : FdMap} (he : m.cachesList.lookup fd = some e) (hP : e.status ≠ statusP)
      (hR : e.status ≠ statusR) : Dead m fd { master := m }

lemma dead_replica {e : FdMap} (he : m.cachesList.lookup fd = some e) (hs : e.status = statusR)
    (h : m.deadReplica fd = some out) : Dead m fd out := by
  simp only [deadReplica, Option.bind_eq_bind, Option.bind_eq_some_iff, setPairFd_eq_some_iff,
    Option.pure_def, Option.some.injEq] at h
  obtain ⟨e', he', m₁, ⟨b, hb, rfl⟩, e₂, he₂, rfl⟩ := h
  rw [he, Option.some.injEq] at he'
  subst he'
  have hpush : e₂.pairFd = if e.pairFd = fd then -1 else e.pairFd := by
    rw [lookup_insert_ite] at he₂
    split_ifs at he₂ ⊢ with h₁ h₂ h₂
    · cases he₂
      rfl
    · exact absurd h₁.symm h₂
    · exact absurd h₂.symm h₁
    · rw [he] at he₂
      cases he₂
      rfl
  dsimp only
  rw [hpush]
  exact .replica he hs hb

/-- A primary that is its own partner brings the master down: once its `pair_fd` is `-1`, the next
statement looks up `-1`. -/
lemma dead_paired {e : FdMap} (hkey : ∀ a ∈ m.cachesList, 0 < a)
    (he : m.cachesList.lookup fd = some e) (hs : e.status = statusP) (hpos : 0 < e.pairFd)
    (h : m.deadPaired fd = some out) : Dead m fd out := by
  simp only [deadPaired, Option.bind_eq_bind, Option.bind_eq_some_iff, setPairFd_eq_some_iff,
    setStatus_eq_some_iff, Option.pure_def, Option.some.injEq] at h
  obtain ⟨e', he', b, hb, str1, h₁, str2, h₂, m₁, ⟨b', hb', rfl⟩, e₂, he₂, m₂, ⟨b₂, hb₂, rfl⟩, e₃,
    he₃, rfl⟩ := h
  rw [he, Option.some.injEq] at he'
  subst he'
  rw [hb, Option.some.injEq] at hb'
  subst hb'
  have hne : e.pairFd ≠ fd := by
    intro heq
    rw [heq, lookup_insert_ite, if_pos rfl, Option.some.injEq] at he₂
    subst he₂
    rw [heq, lookup_insert_ite, if_neg (by rw [← heq]; dsimp only; omega)] at hb₂
    have := hkey _ (Finmap.mem_of_lookup_eq_some hb₂)
    dsimp only at this
    omega
  rw [lookup_insert_ite, if_neg hne.symm, he, Option.some.injEq] at he₂
  subst he₂
  rw [lookup_insert_ite, if_pos rfl, Option.some.injEq] at hb₂
  subst hb₂
  rw [lookup_insert_ite, if_neg hne.symm, lookup_insert_ite, if_neg hne.symm, he,
    Option.some.injEq] at he₃
  subst he₃
  simp only [Finmap.insert_insert]
  exact .paired he hs hpos hne hb h₁ h₂

lemma dead_alone {e : FdMap} (he : m.cachesList.lookup fd = some e) (hs : e.status = statusP)
    (hpair : ¬ 0 < e.pairFd) (h : m.deadAlone fd = some out) : Dead m fd out := by
  simp only [deadAlone, Option.bind_eq_bind, he, Option.bind_some, Option.pure_def,
    Option.some.injEq] at h
  subst h
  by_cases hmem : fd ∈ m.fdNode
  · simp only [if_pos hmem]
    exact .alone he hs hpair hmem
  · simp only [if_neg hmem]
    exact .stray he hs hpair hmem

/-- The cases of a death. -/
theorem dead_cases (hkey : ∀ a ∈ m.cachesList, 0 < a) (h : m.dead fd = some out) :
    Dead m fd out := by
  simp only [dead, Option.bind_eq_bind, Option.bind_eq_some_iff] at h
  obtain ⟨e, he, h⟩ := h
  split_ifs at h with hR hP hpos
  · exact dead_replica he hR h
  · exact dead_paired hkey he hP hpos h
  · exact dead_alone he hP hpos h
  · cases h
    exact .other he hP hR

/-- Handling a death changes records, and neither adds nor removes one. -/
lemma Dead.mem_iff {a : ℤ} (h : Dead m fd out) : a ∈ out.master.cachesList ↔ a ∈ m.cachesList := by
  have hins : ∀ {b e : FdMap} {q : ℤ}, m.cachesList.lookup q = some b →
      (a ∈ m.cachesList.insert q e ↔ a ∈ m.cachesList) := by
    intro b e q hb
    rw [Finmap.mem_insert]
    exact ⟨fun h => h.elim (fun h => h ▸ Finmap.mem_of_lookup_eq_some hb) id, .inr⟩
  cases h with
  | replica _ _ hb => exact hins hb
  | paired _ _ _ _ hb => exact hins hb
  | alone => exact Iff.rfl
  | stray => exact Iff.rfl
  | other => exact Iff.rfl

/-- A death leaves `fd_node` and the ring as they are, or puts the backup in the place of its
primary, or takes a primary off both. -/
lemma Dead.node_cases (h : Dead m fd out) :
    (out.master.fdNode = m.fdNode ∧ out.master.cacheAddrHash = m.cacheAddrHash) ∨
      (∃ b, out.master.fdNode = m.fdNode.set (m.fdNode.idxOf fd) b ∧
        out.master.cacheAddrHash = m.cacheAddrHash) ∨
      fd ∈ m.fdNode ∧ out.master.fdNode = m.fdNode.erase fd ∧
        out.master.cacheAddrHash = m.cacheAddrHash.deleteNode (m.fdNode.idxOf fd) := by
  cases h with
  | replica | stray | other => exact .inl ⟨rfl, rfl⟩
  | paired => exact .inr (.inl ⟨_, rfl, rfl⟩)
  | alone _ _ _ hmem => exact .inr (.inr ⟨hmem, rfl, rfl⟩)

/-- The cases of a pass of `periodicDetectCache` at an entry: the cache is alive and nothing
changes, or its death is handled and its record erased. -/
theorem detect_cases (hkey : ∀ a e, m.cachesList.lookup a = some e → e.fd = a ∧ 0 < a)
    (h : m.periodicDetectCache t key = some out) :
    (m.heartBeatDetect t key = some true ∧ out = { master := m }) ∨
      m.heartBeatDetect t key = some false ∧ ∃ o, Dead m key o ∧
      out = { o with master := { o.master with
        cachesList := o.master.cachesList.erase key } } := by
  simp only [periodicDetectCache, Option.bind_eq_bind, Option.bind_eq_some_iff, Option.pure_def] at h
  obtain ⟨it, hit, alive, halive, h⟩ := h
  obtain ⟨hfd, hpos⟩ := hkey key it hit
  rw [hfd] at halive h
  cases alive with
  | true =>
    cases h
    exact .inl ⟨halive, rfl⟩
  | false =>
    simp only [Bool.false_eq_true, if_false, Option.bind_eq_some_iff, gt_iff_lt, hpos, if_true,
      Option.some.injEq] at h
    obtain ⟨o, ho, rfl⟩ := h
    refine .inr ⟨halive, o, dead_cases (fun a ha => ?_) ho, rfl⟩
    obtain ⟨e, he⟩ := Finmap.mem_iff.mp ha
    exact (hkey a e he).2

/-! ### Shrinking -/

/-- The first half of a shrink: the last primary is chosen, its shard is taken off the ring and
its address is broadcast. -/
theorem shrinkBegin_cases (h : m.shrinkBegin = some (out, sh)) :
    m.fdNode.getLast? = some sh.fd ∧
      ∃ e, m.cachesList.lookup sh.fd = some e ∧ sh.cacheServerAddr = e.ipCache ∧
        out = {
          master := { m with cacheAddrHash := m.cacheAddrHash.deleteNode (m.fdNode.length - 1) }
          sends := m.fdNode.map fun fdi => (fdi, lit "K#" ++ e.ipCache) } := by
  simp only [shrinkBegin, Option.bind_eq_bind, Option.bind_eq_some_iff, Option.pure_def,
    Option.some.injEq, Prod.mk.injEq] at h
  obtain ⟨fd, hfd, e, he, rfl, rfl⟩ := h
  exact ⟨by rw [List.getLast?_eq_getElem?]; exact hfd, e, he, rfl, rfl⟩

/-- The second half of a shrink: the last entry of `fd_node` goes, whatever it is by now, and so do
the records of the cache chosen and of its backup. -/
theorem shrinkEnd_cases (h : m.shrinkEnd fd = some out) :
    m.fdNode ≠ [] ∧ ∃ e, m.cachesList.lookup fd = some e ∧
      ((0 < e.pairFd ∧ e.pairFd ≠ fd ∧ out = {
          master := { m with
            fdNode := m.fdNode.dropLast
            cachesList := (m.cachesList.erase e.pairFd).erase fd }
          closed := [e.pairFd, fd] }) ∨
        (¬ 0 < e.pairFd ∧ out = {
          master := { m with
            fdNode := m.fdNode.dropLast
            cachesList := m.cachesList.erase fd }
          closed := [fd] })) := by
  simp only [shrinkEnd, erasePair, Option.bind_eq_bind, Option.bind_eq_some_iff, Option.pure_def] at h
  obtain ⟨o, ⟨e, he, ho⟩, h⟩ := h
  split_ifs at ho with hpos
  · simp only [Option.bind_eq_some_iff, lookup_erase_ite, Option.some.injEq] at ho
    obtain ⟨e', he', rfl⟩ := ho
    split_ifs at he' with hne
    rw [he, Option.some.injEq] at he'
    subst he'
    split_ifs at h with hnil
    cases h
    exact ⟨hnil, e, he, .inl ⟨hpos, Ne.symm hne, rfl⟩⟩
  · cases ho
    split_ifs at h with hnil
    cases h
    exact ⟨hnil, e, he, .inr ⟨hpos, rfl⟩⟩

end Master

end DistCache
