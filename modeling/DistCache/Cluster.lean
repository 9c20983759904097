import DistCache.Cache.CacheList
import DistCache.Lib.Inbox
import DistCache.Master.World

/-!
The master and the primaries connected to it: what the caches will know of each other when they
have read what was sent to them.

The list of caches that a primary keeps is made of messages of different kinds, and it is used by
position, so it has to be the same list everywhere.  It is: once the messages are read, every
primary holds the addresses of `fd_node`, in its order (`Agree`).  In the wait of a shrink that list is
the one without the last primary, which the caches have been told to forget already.
-/

namespace DistCache

open Lib

/-- A text that can be a part of an address. -/
abbrev Field := { f : Str // IsField f ∧ f.length < bufSize }

/-- A cache process, and the messages of the master that it has not read. -/
structure Proc where
  cache : Cache
  inbox : List Str

/-- The world of the master, and the process behind each descriptor. -/
structure Cluster where
  world : World
  procs : ℤ → Option Proc

namespace Cluster

inductive Event where
  /-- A primary is started and connects, and `accept` returns `fd`. -/
  | accept (fd cacheSizeLocal : ℤ) (ip portClient portCache : Field)
  /-- The master reads a heartbeat from `fd`. -/
  | heartbeat (fd : ℤ)
  /-- The callback of the cache behind `fd` reads a message. -/
  | deliver (fd : ℤ)
  /-- A pass of `periodicDetectCache` comes to the entry `fd`. -/
  | detect (fd : ℤ)
  /-- `shrinkageCapacity` up to its broadcast. -/
  | shrinkBegin
  /-- `shrinkageCapacity` after its wait. -/
  | shrinkEnd
  /-- A second passes. -/
  | tick

/-- The processes when messages are sent to them. -/
def post (procs : ℤ → Option Proc) (sends : List (ℤ × Str)) : ℤ → Option Proc := fun fd =>
  (procs fd).map fun p => { p with inbox := p.inbox ++ addressed sends fd }

/-- A piece of a thread of the master. -/
def master (c : Cluster) (e : DistCache.Event) : Option Cluster :=
  (c.world.exec e).map fun r => ⟨r.1, post c.procs r.2⟩

/-- The cluster after an event. -/
def step (flowOff : Str → ℤ) (c : Cluster) : Event → Option Cluster
  | .accept fd cacheSizeLocal ip portClient portCache =>
    (c.master (.accept fd)).map fun c => { c with
      procs := Function.update c.procs fd <| some
        ⟨Cache.new cacheSizeLocal (lit "P") ip portClient portCache, []⟩ }
  | .heartbeat fd => do
    let p ← c.procs fd
    c.master (.receive fd p.cache.heartMessage)
  | .deliver fd => do
    let p ← c.procs fd
    let message ← p.inbox.head?
    let cache ← p.cache.receive flowOff message
    return { c with procs := Function.update c.procs fd (some ⟨cache, p.inbox.tail⟩) }
  | .detect fd => c.master (.detect fd)
  | .shrinkBegin => c.master .shrinkBegin
  | .shrinkEnd => c.master .shrinkEnd
  | .tick => c.master .tick

/-- The master has started, and no cache is there. -/
def Init (c : Cluster) : Prop := ∃ t₀, c = ⟨World.start t₀, fun _ => none⟩

/-- The address of the cache behind `fd`, for other caches. -/
def addr (c : Cluster) (fd : ℤ) : Str × Str := ((c.procs fd).map fun p => p.cache.cacheAddr).getD default

/-- No primary joins or dies in the wait of a shrink, and one that joins has an address of its own. -/
def Orderly (c : Cluster) : Event → Prop
  | .heartbeat fd => (c.world.master.cachesList.lookup fd).map FdMap.ipPort = some noAddr →
      c.world.shrinking = none ∧ ∀ a ∈ c.world.master.fdNode, c.addr a ≠ c.addr fd
  | .detect _ => c.world.shrinking = none
  | _ => True

/-- The primaries that stay: in the wait of a shrink the last one does not. -/
def staying (w : World) : List ℤ :=
  match w.shrinking with
  | none => w.master.fdNode
  | some _ => w.master.fdNode.dropLast

end Cluster

/-! ### What a heartbeat of a primary makes the master send -/

namespace Master

variable {m : Master} {fd t : ℤ} {msg : Str} {out : Out} {e : FdMap}

/-- A heartbeat that is not the first one is answered. -/
lemma heartbeat_again (hit : m.cachesList.lookup fd = some e) (hold : e.ipPort ≠ noAddr)
    (hstatus : e.status = statusP) (hpair : e.pairFd = -1) (h : m.heartbeat t fd msg = some out) :
    out.sends = [(fd, lit "P#None")] ∧ ∃ am, out.master = { m with cacheAddrMap := am } := by
  have hreply : m.reply fd = some (lit "P#None") := by
    simp [reply, hit, hpair, hstatus]
    rfl
  simp only [heartbeat, hit, if_neg hold, hreply, handleHeartBeatResponse, Option.bind_eq_bind,
    Option.bind_some, Option.bind_eq_some_iff, Option.pure_def, Option.some.injEq] at h
  obtain ⟨m₁, ⟨_, -, _, -, rfl⟩, rfl⟩ := h
  exact ⟨rfl, _, rfl⟩

/-- The first heartbeat of a primary that finds no backup. -/
lemma heartbeat_first {ip portClient portCache x : Str}
    (hit : m.cachesList.lookup fd = some (FdMap.new fd)) (hr : m.rcache = [])
    (hmsg : splitSharp msg = [x, ip, portClient, portCache, lit "P"])
    (h : m.heartbeat t fd msg = some out) :
    ∃ am addrs,
      (m.fdNode ++ [fd]).mapM (fun fdi => ((m.cachesList.insert fd
        ((FdMap.new fd).register ip portClient portCache statusP)).lookup fdi).map FdMap.ipCache) =
          some addrs ∧
      out.master = { m with
        cacheAddrHash := m.cacheAddrHash.addNode m.fdNode.length
        cacheAddrMap := am
        cachesList := m.cachesList.insert fd
          ((FdMap.new fd).register ip portClient portCache statusP)
        fdNode := m.fdNode ++ [fd]
        pcache := fd :: m.pcache } ∧
      out.sends = (fd, (addrs.flatMap fun a => sharp :: a).drop 1) ::
        ((m.fdNode ++ [fd]).map fun fdi => (fdi, lit "N#" ++ joinAddr (ip, portCache))) ++
          [(fd, lit "P#None")] := by
  have hhead : (lit "P").head? = some statusP := by decide
  simp only [heartbeat, hit, if_pos (show (FdMap.new fd).ipPort = noAddr from rfl), firstHeartbeat,
    hmsg, List.getElem?_cons_succ, List.getElem?_cons_zero, hhead, Option.bind_eq_bind,
    Option.bind_some, if_true, joinPrimary, pairPrimary, hr] at h
  have hlen : (m.fdNode ++ [fd]).length - 1 = m.fdNode.length := by simp
  have hlast : (m.fdNode ++ [fd])[m.fdNode.length]? = some fd := by simp
  rw [hlen, hlast, Option.bind_some, Finmap.lookup_insert, Option.bind_some] at h
  simp only [Option.bind_eq_some_iff, Option.pure_def, Option.some.injEq] at h
  obtain ⟨out₁, ⟨addrs, haddrs, rfl⟩, answer, hanswer, m₁, hm₁, rfl⟩ := h
  simp only [reply, Finmap.lookup_insert, Option.bind_eq_bind, Option.bind_some] at hanswer
  cases hanswer
  simp only [handleHeartBeatResponse, Option.bind_eq_bind, Option.bind_eq_some_iff,
    Option.pure_def, Option.some.injEq] at hm₁
  obtain ⟨ip', -, port', -, rfl⟩ := hm₁
  refine ⟨m.cacheAddrMap.insert (ip' ++ sharp :: port') t, addrs, haddrs, ?_, rfl⟩
  rw [hr]

end Master

/-! ### What the caches have been told -/

/-- What the master knows of a primary that has joined as `fd`. -/
def Cache.record (c : Cache) (fd : ℤ) : FdMap :=
  (FdMap.new fd).register c.localCacheIP c.portForClient c.portForCache statusP

/-- A cache that says `P` in its heartbeats, with addresses that can be sent. -/
structure Cache.Primary (c : Cache) : Prop where
  role : c.prStatus = lit "P"
  addr : IsAddr c.cacheAddr
  portForClient : IsField c.portForClient

/-- A primary that has been told nothing. -/
structure Proc.Untold (p : Proc) : Prop where
  inbox : p.inbox = []
  flag : p.cache.initialFlag = false
  status : p.cache.status = lit "P"
  list : p.cache.cacheList = []

lemma Cache.ipPort_record_ne {c : Cache} {fd : ℤ} : (c.record fd).ipPort ≠ noAddr := by
  intro h
  have hmem : sharp ∈ noAddr := h ▸ by simp [Cache.record, FdMap.register]
  revert hmem
  decide

lemma Cache.Primary.split_heartMessage {c : Cache} (hc : c.Primary) :
    splitSharp c.heartMessage =
      [lit "x", c.localCacheIP, c.portForClient, c.portForCache, lit "P"] := by
  have hx : IsField (lit "x") := ⟨by decide, by decide⟩
  have hP : IsField (lit "P") := ⟨by decide, by decide⟩
  have hmsg : c.heartMessage = lit "x" ++ sharp :: (c.localCacheIP ++ sharp :: (c.portForClient ++
      sharp :: (c.portForCache ++ sharp :: lit "P"))) := by
    rw [heartMessage, hc.role, show lit "x#" = lit "x" ++ [sharp] from rfl]
    simp
  have hip : IsField c.localCacheIP := hc.addr.ip
  have hport : IsField c.portForCache := hc.addr.port
  rw [hmsg, splitSharp_cons hx, splitSharp_cons hip, splitSharp_cons hc.portForClient,
    splitSharp_pair hport hP]

namespace Cluster

variable {c c' : Cluster} {w' : World} {sends : List (ℤ × Str)} {flowOff : Str → ℤ} {fd : ℤ}
  {e : DistCache.Event}

/-- The records of the master are those of primaries, in `fd_node`, and of connections from which
nothing was heard; and every primary that stays will keep the list of those that stay when it has
read its messages. -/
structure Agree (flowOff : Str → ℤ) (c : Cluster) : Prop where
  keyed : c.world.Keyed
  alone : c.world.master.rcache = []
  node : ∀ a ∈ c.world.master.fdNode, ∃ p, c.procs a = some p ∧ p.cache.Primary ∧
    c.world.master.cachesList.lookup a = some (p.cache.record a)
  untold : ∀ a e, c.world.master.cachesList.lookup a = some e → a ∉ c.world.master.fdNode →
    e = FdMap.new a ∧ ∃ p, c.procs a = some p ∧ p.cache.Primary ∧ p.Untold
  last : ∀ sh ∈ c.world.shrinking, c.world.master.fdNode.getLast? = some sh.fd
  distinct : (c.world.master.fdNode.map c.addr).Nodup
  lists : ∀ a ∈ staying c.world, ∀ p, c.procs a = some p →
    Drains (Cache.receive flowOff) p.cache p.inbox
      (Cache.Listed (c.addr a) ((staying c.world).map c.addr))

lemma addr_of_procs {p : Proc} (hp : c.procs fd = some p) : c.addr fd = p.cache.cacheAddr := by
  rw [addr, hp]
  rfl

lemma addr_congr {a : ℤ} (h : c'.procs a = c.procs a) : c'.addr a = c.addr a := by
  unfold addr
  rw [h]

lemma post_of_procs {p : Proc} (hp : c.procs fd = some p) :
    post c.procs sends fd = some { p with inbox := p.inbox ++ addressed sends fd } := by
  unfold post
  rw [hp]
  rfl

lemma addr_post : addr ⟨w', post c.procs sends⟩ = c.addr := by
  funext a
  unfold addr post
  rw [Option.map_map]
  rfl

/-- A piece of a thread of the master that adds no primary keeps the agreement, when the messages it
sends make of the old list the new one. -/
lemma Agree.posted (hi : c.Agree flowOff) (hkeyed : w'.Keyed) (halone : w'.master.rcache = [])
    (hsub : w'.master.fdNode.Sublist c.world.master.fdNode)
    (hnode : ∀ a ∈ w'.master.fdNode,
      w'.master.cachesList.lookup a = c.world.master.cachesList.lookup a)
    (huntold : ∀ a e, w'.master.cachesList.lookup a = some e → a ∉ w'.master.fdNode →
      c.world.master.cachesList.lookup a = some e ∧ a ∉ c.world.master.fdNode ∧
        addressed sends a = [])
    (hlast : ∀ sh ∈ w'.shrinking, w'.master.fdNode.getLast? = some sh.fd)
    (hlists : ∀ a ∈ staying w', a ∈ staying c.world ∧ ∀ cache,
      Cache.Listed (c.addr a) ((staying c.world).map c.addr) cache →
        Drains (Cache.receive flowOff) cache (addressed sends a)
          (Cache.Listed (c.addr a) ((staying w').map c.addr))) :
    Agree flowOff ⟨w', post c.procs sends⟩ := by
  refine ⟨hkeyed, halone, ?_, ?_, hlast, ?_, ?_⟩
  · intro a ha
    obtain ⟨p, hp, hprim, hrec⟩ := hi.node a (hsub.subset ha)
    exact ⟨_, post_of_procs hp, hprim, (hnode a ha).trans hrec⟩
  · intro a e he ha
    obtain ⟨he', ha', hnone⟩ := huntold a e he ha
    obtain ⟨hnew, p, hp, hprim, huntold⟩ := hi.untold a e he' ha'
    refine ⟨hnew, _, post_of_procs hp, hprim, ?_, huntold.flag, huntold.status, huntold.list⟩
    rw [hnone, huntold.inbox]
    rfl
  · rw [addr_post]
    exact hi.distinct.sublist (hsub.map _)
  · intro a ha p hp
    rw [addr_post]
    obtain ⟨q, hq, rfl⟩ := Option.map_eq_some_iff.mp hp
    obtain ⟨hold, hmore⟩ := hlists a ha
    exact (hi.lists a hold q hq).append hmore

/-! ### The threads of the master -/

lemma world_step (h : c.master e = some c') : c.world.step e = some c'.world := by
  obtain ⟨r, hr, rfl⟩ := Option.map_eq_some_iff.mp h
  rw [World.step, hr, Option.map_some]

lemma Agree.record_cases {f : FdMap} (hi : c.Agree flowOff)
    (he : c.world.master.cachesList.lookup fd = some f) :
    (fd ∈ c.world.master.fdNode ∧ ∃ p, c.procs fd = some p ∧ p.cache.Primary ∧
      f = p.cache.record fd) ∨ (fd ∉ c.world.master.fdNode ∧ f = FdMap.new fd) := by
  by_cases hfd : fd ∈ c.world.master.fdNode
  · obtain ⟨p, hp, hprim, hrec⟩ := hi.node fd hfd
    rw [he, Option.some.injEq] at hrec
    exact .inl ⟨hfd, p, hp, hprim, hrec⟩
  · exact .inr ⟨hfd, (hi.untold fd f he hfd).1⟩

lemma mem_of_staying {w : World} {a : ℤ} (h : a ∈ staying w) : a ∈ w.master.fdNode := by
  unfold staying at h
  split at h
  · exact h
  · exact List.dropLast_subset _ h

lemma staying_of_idle {w : World} (h : w.shrinking = none) : staying w = w.master.fdNode := by
  rw [staying, h]

lemma staying_of_busy {w : World} {sh : Shrink} (h : w.shrinking = some sh) :
    staying w = w.master.fdNode.dropLast := by
  rw [staying, h]

/-- A message that starts with `x` is a heartbeat. -/
lemma master_receive {msg : Str} (hx : msg.head? = some 120)
    (h : c.master (.receive fd msg) = some c') : ∃ out,
      c.world.master.heartbeat c.world.timeNow fd msg = some out ∧
      c' = ⟨{ c.world with master := out.master }, post c.procs out.sends⟩ := by
  obtain ⟨r, hr, rfl⟩ := Option.map_eq_some_iff.mp h
  simp only [World.exec] at hr
  split_ifs at hr
  obtain ⟨out, hout, rfl⟩ := Option.map_eq_some_iff.mp hr
  rw [Master.receive, if_pos hx] at hout
  refine ⟨out, hout, ?_⟩
  simp [World.after, Master.heartbeat_closed hout]

/-- A heartbeat of a primary that has joined is answered, and its time is kept. -/
lemma Agree.master_again {msg : Str} (hi : c.Agree flowOff) (hfd : fd ∈ c.world.master.fdNode)
    (hx : msg.head? = some 120) (h : c.master (.receive fd msg) = some c') : ∃ am,
      c' = ⟨{ c.world with master := { c.world.master with cacheAddrMap := am } },
        post c.procs [(fd, lit "P#None")]⟩ := by
  obtain ⟨⟨m, sends, closed⟩, hout, rfl⟩ := master_receive hx h
  obtain ⟨p, hp, hprim, hrec⟩ := hi.node fd hfd
  obtain ⟨rfl, am, rfl⟩ := Master.heartbeat_again hrec Cache.ipPort_record_ne rfl rfl hout
  exact ⟨am, rfl⟩

/-- A heartbeat of a primary that has joined. -/
lemma Agree.again {msg : Str} (hi : c.Agree flowOff) (hfd : fd ∈ c.world.master.fdNode)
    (hx : msg.head? = some 120) (h : c.master (.receive fd msg) = some c') : c'.Agree flowOff := by
  have hkeyed := hi.keyed.step (world_step h)
  obtain ⟨am, rfl⟩ := hi.master_again hfd hx h
  refine hi.posted hkeyed hi.alone (List.Sublist.refl _) (fun a _ => rfl) ?_ hi.last ?_
  · intro a e he ha
    have hne : fd ≠ a := fun heq => ha (heq ▸ hfd)
    exact ⟨he, ha, by rw [addressed_cons, if_neg hne, addressed_nil]⟩
  · intro a ha
    refine ⟨ha, fun cache hc => ?_⟩
    rw [addressed_cons, addressed_nil]
    split_ifs
    · exact drains_singleton.mpr (hc.answer flowOff)
    · exact drains_nil.mpr hc

lemma Agree.nodup (hi : c.Agree flowOff) : c.world.master.fdNode.Nodup := .of_map _ hi.distinct

/-- A primary dies, and those that are left are told. -/
lemma Agree.dead {p : Proc} (hi : c.Agree flowOff) (hidle : c.world.shrinking = none)
    (hfd : fd ∈ c.world.master.fdNode) (hp : c.procs fd = some p) (hprim : p.cache.Primary)
    (hkeyed : w'.Keyed) (halone : w'.master.rcache = []) (hidle' : w'.shrinking = none)
    (hnode : w'.master.fdNode = c.world.master.fdNode.erase fd)
    (hl : w'.master.cachesList = c.world.master.cachesList.erase fd)
    (hsends : sends = (c.world.master.fdNode.erase fd).map fun fdi =>
      (fdi, lit "D#" ++ (p.cache.record fd).ipCache)) :
    Agree flowOff ⟨w', post c.procs sends⟩ := by
  have hne : ∀ a ∈ w'.master.fdNode, a ≠ fd := by
    intro a ha
    rw [hnode, hi.nodup.mem_erase_iff] at ha
    exact ha.1
  refine hi.posted hkeyed halone (hnode ▸ List.erase_sublist) ?_ ?_ ?_ ?_
  · intro a ha
    rw [hl, lookup_erase_ite, if_neg (hne a ha)]
  · intro a e he ha
    rw [hl, lookup_erase_ite] at he
    split_ifs at he with ha'
    refine ⟨he, fun hmem => ha ?_, ?_⟩
    · rw [hnode]
      exact (List.mem_erase_of_ne ha').mpr hmem
    · rw [hsends, addressed_broadcast (hi.nodup.erase fd), if_neg (hnode ▸ ha)]
  · intro sh hsh
    rw [hidle'] at hsh
    cases hsh
  · intro a ha
    have haddr : (p.cache.record fd).ipCache = joinAddr (c.addr fd) := by
      rw [addr_of_procs hp]
      rfl
    rw [staying_of_idle hidle', hnode] at *
    rw [staying_of_idle hidle]
    refine ⟨List.mem_of_mem_erase ha, fun cache hc => ?_⟩
    rw [hsends, addressed_broadcast (hi.nodup.erase fd), if_pos ha, haddr, drains_singleton,
      ← map_erase_of_nodup hi.distinct hfd]
    exact hc.dead flowOff (addr_of_procs hp ▸ hprim.addr) (List.mem_map_of_mem hfd)

/-- A pass of `periodicDetectCache`. -/
lemma Agree.detect (hi : c.Agree flowOff) (hidle : c.world.shrinking = none)
    (h : c.master (.detect fd) = some c') : c'.Agree flowOff := by
  have hkeyed := hi.keyed.step (world_step h)
  obtain ⟨r, hr, rfl⟩ := Option.map_eq_some_iff.mp h
  obtain ⟨out, hout, rfl⟩ := Option.map_eq_some_iff.mp hr
  have hkeys : ∀ a e, c.world.master.cachesList.lookup a = some e → e.fd = a ∧ 0 < a :=
    fun a e he => ⟨(hi.keyed a e he).1, (hi.keyed a e he).2.1⟩
  rcases Master.detect_cases hkeys hout with ⟨-, rfl⟩ | ⟨-, o, hd, rfl⟩
  · exact hi.posted hkeyed hi.alone (List.Sublist.refl _) (fun a _ => rfl)
      (fun a e he ha => ⟨he, ha, rfl⟩) hi.last fun a ha => ⟨ha, fun cache hc => drains_nil.mpr hc⟩
  · cases hd with
    | replica he hs =>
      rcases hi.record_cases he with ⟨-, p, -, -, rfl⟩ | ⟨-, rfl⟩
      · exact absurd hs (show statusP ≠ statusR by decide)
      · exact absurd hs (show 110 ≠ statusR by decide)
    | paired he hs hpos =>
      rcases hi.record_cases he with ⟨-, p, -, -, rfl⟩ | ⟨-, rfl⟩ <;>
        exact absurd hpos (show ¬ 0 < (-1 : ℤ) by decide)
    | alone he hs hpair hmem =>
      obtain ⟨-, p, hp, hprim, rfl⟩ | ⟨hmem', -⟩ := hi.record_cases he
      · exact hi.dead hidle hmem hp hprim hkeyed hi.alone hidle rfl rfl rfl
      · exact absurd hmem hmem'
    | stray he hs hpair hmem =>
      rcases hi.record_cases he with ⟨hmem', -⟩ | ⟨-, rfl⟩
      · exact absurd hmem' hmem
      · exact absurd hs (show 110 ≠ statusP by decide)
    | other he hP hR =>
      rcases hi.record_cases he with ⟨-, p, -, -, rfl⟩ | ⟨hmem, rfl⟩
      · exact absurd rfl hP
      · -- a connection from which nothing was heard is forgotten
        refine hi.posted hkeyed hi.alone (List.Sublist.refl _) ?_ ?_ hi.last
          fun a ha => ⟨ha, fun cache hc => drains_nil.mpr hc⟩
        · intro a ha
          have hne : a ≠ fd := fun heq => hmem (heq ▸ ha)
          exact lookup_erase_ite.trans (if_neg hne)
        · intro a e he ha
          have he' := lookup_erase_ite.symm.trans he
          split_ifs at he'
          exact ⟨he', ha, rfl⟩

/-- The primary chosen by a shrink is the last one, and stands there only. -/
lemma Agree.dropLast_eq_erase (hi : c.Agree flowOff) (hlast : c.world.master.fdNode.getLast? = some fd) :
    c.world.master.fdNode.dropLast = c.world.master.fdNode.erase fd := by
  obtain ⟨l, hl⟩ := List.getLast?_eq_some_iff.mp hlast
  have hnodup := hi.nodup
  rw [hl, List.nodup_append] at hnodup
  have hnot : fd ∉ l := fun hmem => hnodup.2.2 _ hmem _ List.mem_cons_self rfl
  rw [hl, List.dropLast_concat, List.erase_append_right _ hnot, List.erase_cons_head, List.append_nil]

/-- The last primary is chosen, and all are told to forget it. -/
lemma Agree.shrinkBegin (hi : c.Agree flowOff) (h : c.master .shrinkBegin = some c') :
    c'.Agree flowOff := by
  have hkeyed := hi.keyed.step (world_step h)
  obtain ⟨r, hr, rfl⟩ := Option.map_eq_some_iff.mp h
  simp only [World.exec] at hr
  split_ifs at hr with hidle
  obtain ⟨⟨out, sh⟩, hout, rfl⟩ := Option.map_eq_some_iff.mp hr
  obtain ⟨hlast, f, he, -, rfl⟩ := Master.shrinkBegin_cases hout
  have hsh : sh.fd ∈ c.world.master.fdNode := List.mem_of_getLast? hlast
  obtain ⟨-, p, hp, hprim, rfl⟩ | ⟨hsh', -⟩ := hi.record_cases he
  · have haddr : (p.cache.record sh.fd).ipCache = joinAddr (c.addr sh.fd) := by
      rw [addr_of_procs hp]
      rfl
    have hdrop := hi.dropLast_eq_erase hlast
    refine hi.posted hkeyed hi.alone (List.Sublist.refl _) (fun a _ => rfl) ?_ ?_ ?_
    · intro a e he ha
      refine ⟨he, ha, ?_⟩
      rw [addressed_broadcast hi.nodup]
      exact if_neg ha
    · intro sh' hsh'
      cases hsh'
      exact hlast
    · intro a ha
      have ha' : a ∈ c.world.master.fdNode.erase sh.fd := hdrop ▸ ha
      obtain ⟨hne, hmem⟩ := hi.nodup.mem_erase_iff.mp ha'
      have hother : c.addr sh.fd ≠ c.addr a := fun heq =>
        hne (List.inj_on_of_nodup_map hi.distinct hsh hmem heq).symm
      rw [staying_of_idle hidle]
      refine ⟨hmem, fun cache hc => ?_⟩
      rw [addressed_broadcast hi.nodup, if_pos hmem, haddr, drains_singleton]
      have hlist : (staying { c.world with shrinking := some sh }).map c.addr =
          (c.world.master.fdNode.map c.addr).erase (c.addr sh.fd) := by
        rw [map_erase_of_nodup hi.distinct hsh, ← hdrop]
        rfl
      have hshrunk := hc.shrunk flowOff (addr_of_procs hp ▸ hprim.addr) hother
        (List.mem_map_of_mem hsh)
      rw [← hlist] at hshrunk
      exact hshrunk
  · exact absurd hsh hsh'

/-- The last primary is forgotten by the master as well. -/
lemma Agree.shrinkEnd (hi : c.Agree flowOff) (h : c.master .shrinkEnd = some c') :
    c'.Agree flowOff := by
  have hkeyed := hi.keyed.step (world_step h)
  obtain ⟨r, hr, rfl⟩ := Option.map_eq_some_iff.mp h
  simp only [World.exec, Option.bind_eq_bind, Option.bind_eq_some_iff] at hr
  obtain ⟨sh, hsh, hr⟩ := hr
  split_ifs at hr
  obtain ⟨out, hout, rfl⟩ := Option.map_eq_some_iff.mp hr
  have hlast := hi.last sh hsh
  obtain ⟨l, hl⟩ := List.getLast?_eq_some_iff.mp hlast
  have hmem : sh.fd ∈ c.world.master.fdNode := List.mem_of_getLast? hlast
  obtain ⟨-, f, he, ⟨hpos, -⟩ | ⟨-, rfl⟩⟩ := Master.shrinkEnd_cases hout
  · rcases hi.record_cases he with ⟨-, p, -, -, rfl⟩ | ⟨hsh', -⟩
    · exact absurd hpos (show ¬ 0 < (-1 : ℤ) by decide)
    · exact absurd hmem hsh'
  · have hnodup := hi.nodup
    rw [hl, List.nodup_append] at hnodup
    have hdrop : c.world.master.fdNode.dropLast = l := by rw [hl, List.dropLast_concat]
    have hne : ∀ a ∈ l, a ≠ sh.fd := fun a ha => hnodup.2.2 a ha _ List.mem_cons_self
    refine hi.posted hkeyed hi.alone (List.dropLast_sublist _) ?_ ?_ ?_ ?_
    · intro a ha
      dsimp only [World.after] at ha ⊢
      rw [hdrop] at ha
      rw [lookup_erase_ite, if_neg (hne a ha)]
    · intro a e he ha
      dsimp only [World.after] at he ha
      rw [hdrop] at ha
      rw [lookup_erase_ite] at he
      split_ifs at he with ha'
      refine ⟨he, fun hmem => ?_, rfl⟩
      rw [hl, List.mem_append, List.mem_singleton] at hmem
      exact hmem.elim ha ha'
    · intro sh' hsh'
      cases hsh'
    · intro a ha
      rw [staying_of_busy hsh]
      exact ⟨ha, fun cache hc => drains_nil.mpr hc⟩

/-! ### Processes that come -/

lemma post_nil : post c.procs [] = c.procs := by
  funext a
  unfold post
  cases c.procs a <;> simp

/-- A primary is started and connects, and nothing else happens. -/
lemma step_accept {size : ℤ} {ip portClient portCache : Field}
    (h : c.step flowOff (.accept fd size ip portClient portCache) = some c') :
    fd ∉ c.world.openFds ∧ c.world.step (.accept fd) = some c'.world ∧
      c'.world.master = c.world.master.accept fd ∧ c'.world.shrinking = c.world.shrinking ∧
      c'.procs fd = some ⟨Cache.new size (lit "P") ip portClient portCache, []⟩ ∧
      ∀ a, a ≠ fd → c'.procs a = c.procs a := by
  obtain ⟨c₁, h₁, rfl⟩ := Option.map_eq_some_iff.mp h
  have hstep := world_step h₁
  obtain ⟨r, hr, rfl⟩ := Option.map_eq_some_iff.mp h₁
  simp only [World.exec] at hr
  split_ifs at hr with hfd
  cases hr
  rw [post_nil]
  exact ⟨hfd.2, hstep, rfl, rfl, Function.update_self .., fun a ha => Function.update_of_ne ha _ _⟩

/-- A connection that is accepted is none of the primaries. -/
lemma Agree.ne_of_not_open {a : ℤ} (hi : c.Agree flowOff) (hfd : fd ∉ c.world.openFds)
    (ha : a ∈ c.world.master.fdNode) : a ≠ fd := by
  rintro rfl
  obtain ⟨p, -, -, hrec⟩ := hi.node a ha
  exact hfd (hi.keyed a _ hrec).2.2

/-- A primary connects. -/
lemma Agree.accept {size : ℤ} {ip portClient portCache : Field} (hi : c.Agree flowOff)
    (h : c.step flowOff (.accept fd size ip portClient portCache) = some c') : c'.Agree flowOff := by
  obtain ⟨hfd, hstep, hmaster, hsh, hnew, hprocs⟩ := step_accept h
  have hkeyed := hi.keyed.step hstep
  have hne : ∀ a ∈ c.world.master.fdNode, a ≠ fd := fun a => hi.ne_of_not_open hfd
  have haddr : ∀ a ∈ c.world.master.fdNode, c'.addr a = c.addr a :=
    fun a ha => addr_congr (hprocs a (hne a ha))
  have hmap := List.map_congr_left haddr
  have hstaying : (staying c.world).map c'.addr = (staying c.world).map c.addr :=
    List.map_congr_left fun a ha => haddr a (mem_of_staying ha)
  have hstay : staying c'.world = staying c.world := by
    unfold staying
    rw [hsh, hmaster]
    rfl
  refine ⟨hkeyed, ?_, ?_, ?_, ?_, ?_, ?_⟩
  · rw [hmaster]
    exact hi.alone
  · intro a ha
    rw [hmaster] at ha ⊢
    obtain ⟨p, hp, hprim, hrec⟩ := hi.node a ha
    refine ⟨p, (hprocs a (hne a ha)).trans hp, hprim, ?_⟩
    exact (lookup_insert_ite.trans (if_neg (hne a ha))).trans hrec
  · intro a e he ha
    rw [hmaster] at he ha
    have he' := lookup_insert_ite.symm.trans he
    split_ifs at he' with hafd
    · cases he'
      subst hafd
      exact ⟨rfl, _, hnew, ⟨rfl, ⟨ip.2.1, portCache.2.1, ip.2.2, portCache.2.2⟩, portClient.2.1⟩,
        ⟨rfl, rfl, rfl, rfl⟩⟩
    · obtain ⟨hfresh, p, hp, hprim, huntold⟩ := hi.untold a e he' ha
      exact ⟨hfresh, p, (hprocs a hafd).trans hp, hprim, huntold⟩
  · rw [hsh, hmaster]
    exact hi.last
  · rw [hmaster]
    exact hmap ▸ hi.distinct
  · intro a ha p hp
    rw [hstay] at ha ⊢
    rw [hstaying, haddr a (mem_of_staying ha)]
    exact hi.lists a ha p ((hprocs a (hne a (mem_of_staying ha))).symm.trans hp)

/-- A cache reads the first of its messages, and nothing else happens. -/
lemma step_deliver (h : c.step flowOff (.deliver fd) = some c') : ∃ p message rest cache,
    c.procs fd = some p ∧ p.inbox = message :: rest ∧ p.cache.receive flowOff message = some cache ∧
      c'.world = c.world ∧ c'.procs fd = some ⟨cache, rest⟩ ∧ ∀ a, a ≠ fd → c'.procs a = c.procs a := by
  simp only [step, Option.bind_eq_bind, Option.bind_eq_some_iff, Option.pure_def,
    Option.some.injEq] at h
  obtain ⟨p, hp, message, hmessage, cache, hcache, rfl⟩ := h
  obtain ⟨rest, hinbox⟩ := List.head?_eq_some_iff.mp hmessage
  refine ⟨p, message, rest, cache, hp, hinbox, hcache, rfl, ?_, fun a ha => Function.update_of_ne ha _ _⟩
  rw [hinbox]
  exact Function.update_self ..

/-- The messages of the master leave the addresses of a cache alone. -/
lemma addr_deliver (h : c.step flowOff (.deliver fd) = some c') : c'.addr = c.addr := by
  obtain ⟨p, message, rest, cache, hp, -, hcache, -, hself, hother⟩ := step_deliver h
  obtain ⟨⟨_, _, _, _, _, _, _, _, _, _, hcache'⟩, -⟩ := Cache.receive_cases hcache
  have hcacheAddr : cache.cacheAddr = p.cache.cacheAddr := by rw [hcache']; rfl
  funext a
  by_cases ha : a = fd
  · rw [ha, addr_of_procs hself, addr_of_procs hp, hcacheAddr]
  · exact addr_congr (hother a ha)

/-- A cache reads a message. -/
lemma Agree.deliver (hi : c.Agree flowOff) (h : c.step flowOff (.deliver fd) = some c') :
    c'.Agree flowOff := by
  obtain ⟨p, message, rest, cache, hp, hinbox, hcache, hworld, hself, hother⟩ := step_deliver h
  obtain ⟨⟨_, _, _, _, _, _, _, _, _, _, hcache'⟩, hpr⟩ := Cache.receive_cases hcache
  have hrecord : cache.record fd = p.cache.record fd := by rw [hcache']; rfl
  have hprimary : p.cache.Primary → cache.Primary := by
    rintro ⟨hrole, haddr, hclient⟩
    refine ⟨hpr.elim (fun h => h.trans hrole) id, ?_, ?_⟩ <;> rw [hcache']
    · exact haddr
    · exact hclient
  have haddr := addr_deliver h
  refine ⟨hworld ▸ hi.keyed, hworld ▸ hi.alone, ?_, ?_, hworld ▸ hi.last, ?_, ?_⟩
  · intro a ha
    rw [hworld] at ha ⊢
    obtain ⟨q, hq, hprim, hrec⟩ := hi.node a ha
    by_cases hafd : a = fd
    · subst hafd
      rw [hp, Option.some.injEq] at hq
      subst hq
      exact ⟨_, hself, hprimary hprim, by rw [hrec, hrecord]⟩
    · exact ⟨q, (hother a hafd).trans hq, hprim, hrec⟩
  · intro a e he ha
    rw [hworld] at he ha
    obtain ⟨hnew, q, hq, hprim, huntold⟩ := hi.untold a e he ha
    have hafd : a ≠ fd := by
      rintro rfl
      rw [hp, Option.some.injEq] at hq
      subst hq
      rw [huntold.inbox] at hinbox
      cases hinbox
    exact ⟨hnew, q, (hother a hafd).trans hq, hprim, huntold⟩
  · rw [hworld, haddr]
    exact hi.distinct
  · intro a ha q hq
    rw [hworld] at ha ⊢
    rw [haddr]
    by_cases hafd : a = fd
    · subst hafd
      rw [hself, Option.some.injEq] at hq
      subst hq
      have hdrains := hi.lists a ha p hp
      rw [hinbox] at hdrains
      exact hdrains.deliver hcache
    · exact hi.lists a ha q ((hother a hafd).symm.trans hq)

/-! ### A primary that joins -/

/-- The messages sent when a primary joins, by receiver. -/
lemma addressed_join {l : List ℤ} {all newcomer answer : Str} {a : ℤ} (hl : (l ++ [fd]).Nodup) :
    addressed ((fd, all) :: ((l ++ [fd]).map fun fdi => (fdi, newcomer)) ++ [(fd, answer)]) a =
      if a = fd then [all, newcomer, answer] else if a ∈ l then [newcomer] else [] := by
  rw [addressed_append, addressed_cons, addressed_broadcast hl, addressed_cons, addressed_nil]
  by_cases ha : a = fd
  · subst ha
    simp
  · simp [ha, Ne.symm ha]

/-- What a newcomer is sent: the whole list, its own announcement, which it passes over, and the
answer to its heartbeat. -/
lemma drains_newcomer {p : Proc} {l : List (Str × Str)} (hp : p.Untold) (hne : l ≠ [])
    (hl : ∀ y ∈ l, IsAddr y) (hown : IsAddr p.cache.cacheAddr) :
    Drains (Cache.receive flowOff) p.cache
      (p.inbox ++ [((l.map joinAddr).flatMap fun x => sharp :: x).drop 1,
        lit "N#" ++ joinAddr p.cache.cacheAddr, lit "P#None"])
      (Cache.Listed p.cache.cacheAddr l) := by
  obtain ⟨c₁, hc₁, hlisted⟩ := Cache.receive_first flowOff hp.flag hp.status hp.list hne hl
  obtain ⟨c₂, hc₂, hlisted'⟩ := hlisted.newcomer flowOff hown
  rw [if_pos rfl] at hlisted'
  rw [hp.inbox, List.nil_append]
  exact drains_cons.mpr ⟨c₁, hc₁, drains_cons.mpr ⟨c₂, hc₂,
    drains_singleton.mpr (hlisted'.answer flowOff)⟩⟩

/-- A primary joins, and its address goes to the end of every list. -/
lemma Agree.joined {p : Proc} (hi : c.Agree flowOff) (hp : c.procs fd = some p)
    (hprim : p.cache.Primary) (huntold : p.Untold) (hidle : c.world.shrinking = none)
    (hnot : fd ∉ c.world.master.fdNode) (hown : ∀ a ∈ c.world.master.fdNode, c.addr a ≠ c.addr fd)
    (hkeyed : w'.Keyed) (halone : w'.master.rcache = []) (hidle' : w'.shrinking = none)
    (hnode : w'.master.fdNode = c.world.master.fdNode ++ [fd])
    (hl : w'.master.cachesList = c.world.master.cachesList.insert fd (p.cache.record fd))
    (hsends : ∀ a, addressed sends a =
      if a = fd then
        [(((w'.master.fdNode.map c.addr).map joinAddr).flatMap fun x => sharp :: x).drop 1,
          lit "N#" ++ joinAddr (c.addr fd), lit "P#None"]
      else if a ∈ c.world.master.fdNode then [lit "N#" ++ joinAddr (c.addr fd)] else []) :
    Agree flowOff ⟨w', post c.procs sends⟩ := by
  have hne : ∀ a ∈ c.world.master.fdNode, a ≠ fd := fun a ha heq => hnot (heq ▸ ha)
  have hfd : IsAddr (c.addr fd) := addr_of_procs hp ▸ hprim.addr
  have hstaying := staying_of_idle hidle
  have hmap : w'.master.fdNode.map c.addr = c.world.master.fdNode.map c.addr ++ [c.addr fd] := by
    rw [hnode, List.map_append]
    rfl
  have haddrs : ∀ y ∈ w'.master.fdNode.map c.addr, IsAddr y := by
    intro y hy
    rw [hmap, List.mem_append, List.mem_singleton, List.mem_map] at hy
    obtain ⟨b, hb, rfl⟩ | rfl := hy
    · obtain ⟨q, hq, hprim', -⟩ := hi.node b hb
      exact addr_of_procs hq ▸ hprim'.addr
    · exact hfd
  refine ⟨hkeyed, halone, ?_, ?_, ?_, ?_, ?_⟩
  · intro a ha
    dsimp only at ha ⊢
    rw [hl, lookup_insert_ite]
    split_ifs with hafd
    · subst hafd
      exact ⟨_, post_of_procs hp, hprim, rfl⟩
    · rw [hnode, List.mem_append, List.mem_singleton] at ha
      obtain ⟨q, hq, hprim', hrec⟩ := hi.node a (ha.resolve_right hafd)
      exact ⟨_, post_of_procs hq, hprim', hrec⟩
  · intro a e he ha
    dsimp only at he ha
    rw [hnode, List.mem_append, List.mem_singleton, not_or] at ha
    rw [hl, lookup_insert_ite, if_neg ha.2] at he
    obtain ⟨hnew, q, hq, hprim', hunt⟩ := hi.untold a e he ha.1
    refine ⟨hnew, _, post_of_procs hq, hprim', ?_, hunt.flag, hunt.status, hunt.list⟩
    rw [hsends, if_neg ha.2, if_neg ha.1, hunt.inbox]
    rfl
  · intro sh hsh
    dsimp only at hsh
    rw [hidle'] at hsh
    cases hsh
  · rw [addr_post, hmap, ← List.concat_eq_append]
    refine hi.distinct.concat fun hmem => ?_
    obtain ⟨a, ha, heq⟩ := List.mem_map.mp hmem
    exact hown a ha heq
  · intro a ha q hq
    dsimp only at ha hq ⊢
    rw [staying_of_idle hidle'] at ha ⊢
    rw [addr_post]
    obtain ⟨q, hold, rfl⟩ := Option.map_eq_some_iff.mp hq
    rw [hsends]
    split_ifs with hafd hmem
    · subst hafd
      rw [hp, Option.some.injEq] at hold
      subst hold
      have hne' : w'.master.fdNode.map c.addr ≠ [] := by simp [hmap]
      rw [addr_of_procs hp]
      exact drains_newcomer huntold hne' haddrs hprim.addr
    · rw [hmap]
      refine (hi.lists a (hstaying ▸ hmem) q hold).append fun cache hc => drains_singleton.mpr ?_
      have hnewcomer := hc.newcomer flowOff hfd
      rw [if_neg (hown a hmem).symm, hstaying] at hnewcomer
      exact hnewcomer
    · rw [hnode, List.mem_append, List.mem_singleton] at ha
      exact absurd ha (not_or.mpr ⟨hmem, hafd⟩)

/-- The first heartbeat of a primary. -/
lemma Agree.join {p : Proc} (hi : c.Agree flowOff) (hp : c.procs fd = some p)
    (hnew : (c.world.master.cachesList.lookup fd).map FdMap.ipPort = some noAddr)
    (hidle : c.world.shrinking = none) (hown : ∀ a ∈ c.world.master.fdNode, c.addr a ≠ c.addr fd)
    (h : c.master (.receive fd p.cache.heartMessage) = some c') : c'.Agree flowOff := by
  have hkeyed := hi.keyed.step (world_step h)
  obtain ⟨f, hf, hport⟩ := Option.map_eq_some_iff.mp hnew
  obtain ⟨-, q, -, -, rfl⟩ | ⟨hnot, rfl⟩ := hi.record_cases hf
  · exact absurd hport Cache.ipPort_record_ne
  obtain ⟨-, q, hq, hprim, huntold⟩ := hi.untold fd _ hf hnot
  rw [hp, Option.some.injEq] at hq
  subst hq
  obtain ⟨⟨m, sends, closed⟩, hout, rfl⟩ := master_receive rfl h
  obtain ⟨am, addrs, haddrs, rfl, rfl⟩ :=
    Master.heartbeat_first hf hi.alone hprim.split_heartMessage hout
  have hne : ∀ a ∈ c.world.master.fdNode, a ≠ fd := fun a ha heq => hnot (heq ▸ ha)
  have hnodup : (c.world.master.fdNode ++ [fd]).Nodup := by
    rw [← List.concat_eq_append]
    exact hi.nodup.concat hnot
  -- the master knows the address of every primary
  have hall : addrs = ((c.world.master.fdNode ++ [fd]).map c.addr).map joinAddr := by
    rw [List.map_map]
    refine Option.some.inj (haddrs.symm.trans (mapM_eq_some_map fun a ha => ?_))
    rw [lookup_insert_ite, Function.comp_apply]
    split_ifs with hafd
    · rw [hafd, addr_of_procs hp]
      rfl
    · rw [List.mem_append, List.mem_singleton] at ha
      obtain ⟨q, hq, -, hrec⟩ := hi.node a (ha.resolve_right hafd)
      rw [addr_of_procs hq, hrec]
      rfl
  refine hi.joined hp hprim huntold hidle hnot hown hkeyed hi.alone hidle rfl rfl fun a => ?_
  rw [addressed_join hnodup, hall, addr_of_procs hp]
  rfl

/-! ### Runs -/

/-- A heartbeat of a cache. -/
lemma Agree.heartbeat (hi : c.Agree flowOff) (hok : c.Orderly (.heartbeat fd))
    (h : c.step flowOff (.heartbeat fd) = some c') : c'.Agree flowOff := by
  simp only [step, Option.bind_eq_bind, Option.bind_eq_some_iff] at h
  obtain ⟨p, hp, h⟩ := h
  by_cases hnew : (c.world.master.cachesList.lookup fd).map FdMap.ipPort = some noAddr
  · obtain ⟨hidle, hown⟩ := hok hnew
    exact hi.join hp hnew hidle hown h
  · obtain ⟨out, hout, -⟩ := master_receive rfl h
    simp only [Master.heartbeat, Option.bind_eq_bind, Option.bind_eq_some_iff] at hout
    obtain ⟨f, hf, -⟩ := hout
    obtain ⟨hfd, -⟩ | ⟨-, rfl⟩ := hi.record_cases hf
    · exact hi.again hfd rfl h
    · rw [hf] at hnew
      exact absurd rfl hnew

lemma Agree.tick (hi : c.Agree flowOff) (h : c.master .tick = some c') : c'.Agree flowOff := by
  have hkeyed := hi.keyed.step (world_step h)
  obtain ⟨r, hr, rfl⟩ := Option.map_eq_some_iff.mp h
  cases hr
  exact hi.posted hkeyed hi.alone (List.Sublist.refl _) (fun a _ => rfl)
    (fun a e he ha => ⟨he, ha, rfl⟩) hi.last fun a ha => ⟨ha, fun cache hc => drains_nil.mpr hc⟩

/-- Every event keeps the agreement. -/
lemma Agree.step {e : Event} (hi : c.Agree flowOff) (hok : c.Orderly e)
    (h : c.step flowOff e = some c') : c'.Agree flowOff := by
  cases e with
  | accept => exact hi.accept h
  | heartbeat => exact hi.heartbeat hok h
  | deliver => exact hi.deliver h
  | detect => exact hi.detect hok h
  | shrinkBegin => exact hi.shrinkBegin h
  | shrinkEnd => exact hi.shrinkEnd h
  | tick => exact hi.tick h

lemma agree_init (hi : Init c) : c.Agree flowOff := by
  obtain ⟨t₀, rfl⟩ := hi
  have hno : ∀ {a : ℤ} {e : FdMap}, (World.start t₀).master.cachesList.lookup a ≠ some e := by
    intro a e he
    simp [World.start, Master.start] at he
  refine ⟨fun a e he => absurd he hno, rfl, ?_, fun a e he => absurd he hno, ?_, List.nodup_nil, ?_⟩
  · intro a ha
    exact absurd ha List.not_mem_nil
  · intro sh hsh
    cases hsh
  · intro a ha
    exact absurd ha List.not_mem_nil

/-- **The lists of the caches.**  When no shrink is in its wait, every primary accepts all messages
sent to it, and its list is then that of the addresses of `fd_node`, in the order of `fd_node`. -/
theorem lists_agree (hr : Reach Init (step flowOff) Orderly c) (hidle : c.world.shrinking = none) :
    ∃ addrs, c.world.master.fdNode.mapM (fun fd =>
        (c.world.master.cachesList.lookup fd).map FdMap.ipCache) = some addrs ∧
      ∀ fd ∈ c.world.master.fdNode, ∃ p cache, c.procs fd = some p ∧
        p.inbox.foldlM (Cache.receive flowOff) p.cache = some cache ∧
        cache.cacheList.map joinAddr = addrs := by
  have hi : c.Agree flowOff :=
    hr.invariant (fun _ => agree_init) fun _ _ _ _ hi hok hs => hi.step hok hs
  refine ⟨(c.world.master.fdNode.map c.addr).map joinAddr, ?_, fun fd hfd => ?_⟩
  · rw [List.map_map]
    refine mapM_eq_some_map fun a ha => ?_
    obtain ⟨p, hp, -, hrec⟩ := hi.node a ha
    rw [hrec, Function.comp_apply, addr_of_procs hp]
    rfl
  · obtain ⟨p, hp, -, -⟩ := hi.node fd hfd
    obtain ⟨cache, hcache, hlisted⟩ := hi.lists fd (staying_of_idle hidle ▸ hfd) p hp
    refine ⟨p, cache, hp, hcache, ?_⟩
    rw [hlisted.list, staying_of_idle hidle]

instance decidableOrderly (c : Cluster) : (e : Event) → Decidable (c.Orderly e)
  | .heartbeat fd => inferInstanceAs (Decidable
      ((c.world.master.cachesList.lookup fd).map FdMap.ipPort = some noAddr →
        c.world.shrinking = none ∧ ∀ a ∈ c.world.master.fdNode, c.addr a ≠ c.addr fd))
  | .detect _ => inferInstanceAs (Decidable (c.world.shrinking = none))
  | .accept .. | .deliver _ | .shrinkBegin | .shrinkEnd | .tick => isTrue trivial

/-- A part of an address. -/
def field (s : String) (h : lit s ≠ [] ∧ sharp ∉ lit s ∧ (lit s).length < bufSize) : Field :=
  ⟨lit s, ⟨h.1, h.2.1⟩, h.2.2⟩

/-- Three primaries join, the first one falls silent and is found dead, and the second one reads
what it was sent. -/
def firstDies : List Event :=
  [.accept 5 10 (field "127.0.0.1" (by decide)) (field "8001" (by decide)) (field "9001" (by decide)),
    .heartbeat 5,
    .accept 6 10 (field "127.0.0.1" (by decide)) (field "8002" (by decide)) (field "9002" (by decide)),
    .heartbeat 6, .tick, .deliver 6,
    .accept 7 10 (field "127.0.0.1" (by decide)) (field "8003" (by decide)) (field "9003" (by decide)),
    .heartbeat 7, .tick, .tick, .tick, .tick, .heartbeat 6, .detect 5,
    .deliver 6, .deliver 6, .deliver 6, .deliver 6, .deliver 6]

theorem lists_agree_firstDies : ∃ c p, path (step fun _ => 0) Orderly
    ⟨World.start 1638316800, fun _ => none⟩ firstDies = some c ∧ c.procs 6 = some p ∧
      p.inbox = [] ∧
      p.cache.cacheList.map joinAddr = [lit "127.0.0.1#9002", lit "127.0.0.1#9003"] := by
  have hnode : (path (step fun _ => 0) Orderly ⟨World.start 1638316800, fun _ => none⟩
      firstDies).map (fun c => (c.world.shrinking.isNone, c.world.master.fdNode)) =
      some (true, [6, 7]) := by
    decide +kernel
  have hinbox : (path (step fun _ => 0) Orderly ⟨World.start 1638316800, fun _ => none⟩
      firstDies).bind (fun c => (c.procs 6).map Proc.inbox) = some [] := by
    decide +kernel
  have haddrs : (path (step fun _ => 0) Orderly ⟨World.start 1638316800, fun _ => none⟩
      firstDies).bind (fun c => c.world.master.fdNode.mapM fun fd =>
        (c.world.master.cachesList.lookup fd).map FdMap.ipCache) =
      some [lit "127.0.0.1#9002", lit "127.0.0.1#9003"] := by
    decide +kernel
  obtain ⟨c, hc, hf⟩ := Option.map_eq_some_iff.mp hnode
  simp only [Prod.mk.injEq, Option.isNone_iff_eq_none] at hf
  rw [hc, Option.bind_some] at hinbox haddrs
  obtain ⟨p, hp, hempty⟩ := Option.map_eq_some_iff.mp hinbox
  obtain ⟨addrs, haddrs', hlists⟩ := lists_agree (reach_of_path ⟨_, rfl⟩ hc) hf.1
  obtain ⟨q, cache, hq, hread, hlist⟩ := hlists 6 (by rw [hf.2]; decide)
  rw [hp, Option.some.injEq] at hq
  subst hq
  rw [haddrs, Option.some.injEq] at haddrs'
  rw [hempty] at hread
  cases hread
  exact ⟨c, p, hc, hp, hempty, hlist.trans haddrs'.symm⟩

end Cluster

end DistCache
