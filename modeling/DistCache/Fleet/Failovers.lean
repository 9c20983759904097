import DistCache.Fleet.Reads
import DistCache.Master.Answers
import DistCache.Recovery

/-!
What the clients of the whole system read when backups take over.

A client keeps the address of a primary that has died, in its local cache, in its timers and in messages on
their way, and no message tells it of the takeover.  But at that address nobody listens any more, so no
request is handled where the master would not send it now.  A backup starts with the requests that it has got
from its primary; with these in the place of the primary's, a read finds the latest write of its key
(`reads_survive`).
-/

namespace DistCache

open Lib

/-! ### A backup that has got requests -/

/-- No request begins like the list of caches. -/
lemma Request.head_text (request : Request) : request.text.head? ≠ some sharp := by
  have hkey : ∀ (key : Word) (rest : Str), (key.1 ++ rest).head? ≠ some sharp := by
    intro key rest hhead
    obtain ⟨c, l, hcons⟩ := List.exists_cons_of_ne_nil key.2.ne_nil
    rw [hcons, List.cons_append, List.head?_cons, Option.some.injEq] at hhead
    exact key.2.sharp_free (by rw [hcons, hhead]; exact List.mem_cons_self)
  cases request with
  | read key =>
    have htext : (Request.read key).text = key.1 ++ [] := (List.append_nil key.1).symm
    rw [htext]
    exact hkey key []
  | write key value =>
    have htext : (Request.write key value).text = key.1 ++ (lit "#" ++ value.1) := by
      rw [Request.text, Client.sendRequestToCacheServer, if_pos value.2.ne_nil, List.append_assoc]
    rw [htext]
    exact hkey key _

namespace Cache

variable {c c' : Cache} {addr : Str} {history : List Request}

lemma Served.congr (hc : Served addr history c) (haddress : c'.address = c.address)
    (hstore : c'.mainCache = c.mainCache) : Served addr history c' where
  address := haddress.trans hc.address
  capacity := by
    rw [hstore]
    exact hc.capacity
  keys := by
    rw [hstore]
    exact hc.keys
  values k v := by
    rw [hstore]
    exact hc.values k v

/-- What a request makes of the store. -/
lemma Served.serve (hc : Served addr history c) (request : Request) : Served addr (history ++ [request])
    { c with mainCache := c.mainCache.serve request.text } := by
  have hserved : ∃ c₁ reply, c.clientChat request.text = some (c₁, reply) ∧
      Served addr (history ++ [request]) c₁ := by
    cases request with
    | read key =>
      by_cases hmem : key.1 ∈ c.mainCache.keys
      · obtain ⟨v, hv⟩ := LruCache.exists_lookup hmem
        obtain ⟨c₁, h, hc₁⟩ := hc.read_held hv
        exact ⟨c₁, _, h, hc₁⟩
      · obtain ⟨c₁, h, hc₁⟩ := hc.read_missing hmem
        exact ⟨c₁, _, h, hc₁⟩
    | write key value =>
      obtain ⟨c₁, h, hc₁⟩ := hc.write key value
      exact ⟨c₁, _, h, hc₁⟩
  obtain ⟨c₁, reply, h, hc₁⟩ := hserved
  obtain ⟨buffer, hchat⟩ := c.clientChat_eq request.text
  rw [hchat, Option.some.injEq, Prod.mk.injEq] at h
  obtain ⟨rfl, -⟩ := h
  exact hc₁.congr rfl rfl

/-- What `replica_cache` makes of the requests that it gets. -/
lemma Served.replicaAll (hc : Served addr history c) (requests : List Request) :
    ∃ c', c.replicaAll (requests.map Request.text) = some c' ∧ Served addr (history ++ requests) c' := by
  have hfree : ∀ message ∈ requests.map Request.text, message.head? ≠ some sharp := by
    intro message hmem
    obtain ⟨request, -, rfl⟩ := List.mem_map.mp hmem
    exact request.head_text
  refine ⟨_, c.replicaAll_eq hfree, ?_⟩
  clear hfree
  induction requests generalizing c history with
  | nil =>
    rw [List.append_nil]
    exact hc
  | cons request requests ih =>
    have hrest := ih (hc.serve request)
    rw [List.append_assoc, List.singleton_append] at hrest
    exact hrest

end Cache

/-! ### The whole system -/

/-- The master among its threads, the clients and the cache servers, and the requests that the stores of the
servers come from. -/
structure Service where
  world : World
  fleet : Fleet
  past : List Handled

namespace Service

inductive Event where
  /-- Something that happens to a client, a cache server or a message. -/
  | fleet (e : Fleet.Event)
  /-- Something that happens to the master. -/
  | master (e : DistCache.Event)
  /-- The cache server at `addr` dies. -/
  | crash (addr : Str)
  /-- A pass of `periodicDetectCache` finds a primary dead that has a backup, and the backup has got these of
  the requests to it. -/
  | takeover (fd : ℤ) (got : List Handled)

/-- The requests that the store of a server comes from. -/
def handledAt (past : List Handled) (addr : Str) : List Handled := past.filter fun h => h.addr = addr

/-- After a takeover: what the backup has got has been handled by the backup, and the rest of the requests to
its primary is lost. -/
def handOver (past : List Handled) (old new : Str) (got : List Handled) : List Handled :=
  (past.filter fun h => h.addr ≠ old) ++ got.map fun h => { h with addr := new }

/-- One step.  The messages of the master to the caches are no part of it. -/
def step (s : Service) : Event → Option Service
  | .fleet e => (s.fleet.step s.world.master e).map fun f =>
    { s with fleet := f, past := s.past ++ f.log.drop s.fleet.log.length }
  | .master e => (s.world.step e).map fun w => { s with world := w }
  | .crash addr => some { s with fleet := { s.fleet with
      servers := Function.update s.fleet.servers addr none } }
  | .takeover fd got => do
    let e ← s.world.master.cachesList.lookup fd
    let old ← s.world.master.clientAddr fd
    let new ← s.world.master.clientAddr e.pairFd
    let w ← s.world.step (.detect fd)
    if fd ∈ s.world.master.fdNode ∧ 0 < e.pairFd ∧
        s.world.master.heartBeatDetect s.world.timeNow fd = some false ∧
        got.Sublist (handledAt s.past old) then
      let backup := (s.fleet.servers new).bind fun c => c.replicaAll (got.map Handled.message)
      some ⟨w, { s.fleet with servers := Function.update s.fleet.servers new backup },
        handOver s.past old new got⟩
    else none

/-- The runs of the master in which what is taken off its stacks waits. -/
def Reached (w : World) : Prop :=
  Reach World.Init World.step (fun w e => World.Atomic w e ∧ World.PopsSound w e) w

/-- The master has been at work, and no client has sent anything. -/
def Init (s : Service) : Prop := Reached s.world ∧ s.fleet.Init ∧ s.past = []

/-- No primary joins and nothing is shrunk; a primary that is found dead has a backup and is dead, and no other
cache has the client address of a primary. -/
def Allowed (s : Service) : Event → Prop
  | .fleet _ | .crash _ => True
  | .master e => s.world.Atomic e ∧ s.world.PopsSound e ∧ s.world.Steady e
  | .takeover fd _ => s.world.Atomic (.detect fd) ∧ s.world.master.Apart ∧
    ∀ old ∈ s.world.master.clientAddr fd, (s.fleet.servers old).isNone

instance decidableAllowed (s : Service) : (e : Event) → Decidable (s.Allowed e)
  | .fleet _ | .crash _ => isTrue trivial
  | .master e =>
    inferInstanceAs (Decidable (s.world.Atomic e ∧ s.world.PopsSound e ∧ s.world.Steady e))
  | .takeover fd _ => inferInstanceAs (Decidable (s.world.Atomic (.detect fd) ∧ s.world.master.Apart ∧
      ∀ old ∈ s.world.master.clientAddr fd, (s.fleet.servers old).isNone))

/-- An address that may be held for a key: the one that the master gives, or one where nobody listens. -/
def Knows (s : Service) (key addr : Str) : Prop :=
  s.world.master.Places key addr ∨ IsField addr ∧ s.fleet.servers addr = none

/-- The past in the words of its requests, and the stores of the servers after them. -/
structure Kept (s : Service) (l : List Answered) : Prop where
  past : s.past = l.map Answered.entry
  placed : ∀ d ∈ l, s.world.master.Places d.request.key d.addr
  stored : s.fleet.Stored l

structure Inv (s : Service) : Prop where
  reached : Reached s.world
  held : s.fleet.Held s.Knows
  kept : ∃ l, s.Kept l

variable {s s' : Service} {e : Event} {key addr old new : Str} {l : List Answered} {got : List Handled}

lemma Knows.isField (h : s.Knows key addr) : IsField addr :=
  h.elim (fun hplaces => hplaces.isField) fun hnone => hnone.1

/-- Nobody comes to listen at an address where nobody does. -/
lemma Knows.of_none (h : s.Knows key addr) (hplaces : s.world.master.Places key addr → s'.Knows key addr)
    (hnone : s.fleet.servers addr = none → s'.fleet.servers addr = none) : s'.Knows key addr :=
  h.elim hplaces fun h => .inr ⟨h.1, hnone h.2⟩

lemma inv_init (h : Init s) : s.Inv := by
  obtain ⟨hreached, hfleet, hpast⟩ := h
  refine ⟨hreached, Fleet.held_init _ hfleet, [], hpast, fun d hd => absurd hd List.not_mem_nil, ?_⟩
  exact Fleet.stored_deployed hfleet.servers

/-! ### Steps that hand nothing over -/

/-- The clients and the servers: at most one request is handled. -/
lemma Kept.fleet (hl : s.Kept l) (hheld : s.fleet.Held s.Knows) {f : Fleet}
    (hs : s.fleet.Serves f) : ∃ new : Option Answered,
      f.log = s.fleet.log ++ new.toList.map Answered.entry ∧
      Kept { s with fleet := f, past := s.past ++ f.log.drop s.fleet.log.length } (l ++ new.toList) ∧
      ∀ d ∈ new, d.Right s.world.master l := by
  cases hs with
  | nothing hservers hlog =>
    refine ⟨none, by rw [hlog]; simp, ⟨?_, ?_, fun addr c hc => ?_⟩, fun d hd => by cases hd⟩
    · rw [hlog, List.drop_length, List.append_nil, Option.toList_none, List.append_nil]
      exact hl.past
    · rw [Option.toList_none, List.append_nil]
      exact hl.placed
    · rw [Option.toList_none, List.append_nil]
      exact hl.stored addr c (hservers ▸ hc)
  | @request i addr message c r hmail hc hr hservers hlog =>
    obtain ⟨request, rfl, hknows⟩ := hheld.mail _ hmail
    -- somebody listens there
    have hplaces : s.world.master.Places request.key addr := by
      rcases hknows with hplaces | ⟨-, hnone⟩
      · exact hplaces
      · rw [hnone] at hc
        cases hc
    obtain ⟨hstored, hright⟩ := hl.stored.serve hl.placed hplaces hc hr hservers
    refine ⟨some ⟨addr, i, request, r.2⟩, hlog, ⟨?_, fun d hd => ?_, hstored⟩, fun d hd => ?_⟩
    · dsimp only
      rw [hlog, List.drop_left, hl.past, List.map_append]
      rfl
    · rcases List.mem_append.mp hd with hd | hd
      · exact hl.placed d hd
      · rw [List.mem_singleton.mp hd]
        exact hplaces
    · rw [Option.mem_some] at hd
      exact hd ▸ hright

/-- Where nobody listens nobody comes to listen. -/
lemma servers_none {f f' : Fleet} (hs : f.Serves f') (h : f.servers addr = none) :
    f'.servers addr = none := by
  cases hs with
  | nothing hservers => rw [hservers, h]
  | @request _ addr' _ _ _ _ hc _ hservers =>
    have hne : addr ≠ addr' := by
      rintro rfl
      rw [h] at hc
      cases hc
    rw [hservers, Function.update_of_ne hne, h]

lemma Inv.fleet (hi : s.Inv) {e : Fleet.Event} (hs : s.step (.fleet e) = some s') : s'.Inv := by
  obtain ⟨f, hf, rfl⟩ := Option.map_eq_some_iff.mp hs
  have hserves := Fleet.serves_of_step hf
  obtain ⟨l, hl⟩ := hi.kept
  obtain ⟨new, -, hkept, -⟩ := hl.fleet hi.held hserves
  refine ⟨hi.reached, ?_, _, hkept⟩
  have hheld := hi.held.step (fun _ _ hplaces => .inl hplaces) (fun _ _ hknows => hknows.isField) hf
  exact hheld.mono fun key addr hknows => hknows.of_none .inl (servers_none hserves)

/-- The master: no key moves. -/
lemma Inv.master (hi : s.Inv) {e : DistCache.Event} (hok : s.Allowed (.master e))
    (hs : s.step (.master e) = some s') : s'.Inv := by
  obtain ⟨w, hw, rfl⟩ := Option.map_eq_some_iff.mp hs
  obtain ⟨hatomic, hpops, hsteady⟩ := hok
  have hsame : ∀ key addr, s.world.master.Places key addr → w.master.Places key addr :=
    fun key addr hplaces => (World.steady_step (World.keyed_of_reach hi.reached)
      (World.sound_of_reach hi.reached) hsteady hw key).trans hplaces
  obtain ⟨l, hl⟩ := hi.kept
  refine ⟨hi.reached.next ⟨hatomic, hpops⟩ hw, ?_, l, hl.past, fun d hd => hsame _ _ (hl.placed d hd),
    hl.stored⟩
  exact hi.held.mono fun key addr hknows => hknows.of_none (fun h => .inl (hsame _ _ h)) id

lemma Inv.crash (hi : s.Inv) (hs : s.step (.crash addr) = some s') : s'.Inv := by
  cases hs
  have hnone : ∀ a, s.fleet.servers a = none → Function.update s.fleet.servers addr none a = none := by
    intro a ha
    rw [Function.update_apply, ha, ite_self]
  obtain ⟨l, hl⟩ := hi.kept
  refine ⟨hi.reached, (hi.held.setServers _).mono fun key a hknows => hknows.of_none .inl (hnone a), l,
    hl.past, hl.placed, fun a c hc => ?_⟩
  dsimp only at hc
  rw [Function.update_apply] at hc
  split_ifs at hc
  exact hl.stored a c hc

/-! ### Takeovers -/

/-- What has been handled by the backup instead. -/
def moved (new : Str) (d : Answered) : Answered := { d with addr := new }

lemma requestsAt_moved (new : Str) (g : List Answered) :
    Answered.requestsAt addr (g.map (moved new)) = if new = addr then g.map Answered.request else [] := by
  unfold Answered.requestsAt
  split_ifs with h
  · rw [List.filter_eq_self.mpr, List.map_map]
    · rfl
    · intro d hd
      obtain ⟨d, -, rfl⟩ := List.mem_map.mp hd
      exact decide_eq_true h
  · rw [List.filter_eq_nil_iff.mpr]
    · rfl
    · intro d hd
      obtain ⟨d, -, rfl⟩ := List.mem_map.mp hd
      exact fun haddr => h (of_decide_eq_true haddr)

/-- What is kept of the requests to the others. -/
lemma requestsAt_rest (h : addr ≠ old) :
    Answered.requestsAt addr (l.filter fun d => d.addr ≠ old) = Answered.requestsAt addr l := by
  unfold Answered.requestsAt
  rw [List.filter_filter]
  congr 1
  refine List.filter_congr fun d _ => ?_
  by_cases hd : d.addr = addr
  · simp [hd, h]
  · simp [hd]

/-- The backup starts with what it has got, and what it has got was handled. -/
lemma Kept.handOver (hl : s.Kept l) {w : World} (hover : s.world.master.HandsOver w.master old new)
    (hfresh : ∀ k, s.world.master.handleClientMessage k ≠ some new) (hdead : s.fleet.servers old = none)
    (hgot : got.Sublist (handledAt s.past old)) : ∃ l', Kept ⟨w, { s.fleet with
      servers := Function.update s.fleet.servers new
        ((s.fleet.servers new).bind fun c => c.replicaAll (got.map Handled.message)) },
      Service.handOver s.past old new got⟩ l' := by
  -- the requests that the backup has got
  have hpast : handledAt s.past old = (l.filter fun d => d.addr = old).map Answered.entry := by
    rw [hl.past, handledAt, List.filter_map]
    rfl
  obtain ⟨g, hsub, rfl⟩ := List.sublist_map_iff.mp (hpast ▸ hgot)
  have hg : ∀ d ∈ g, s.world.master.Places d.request.key old := by
    intro d hd
    obtain ⟨hd, haddr⟩ := List.mem_filter.mp (hsub.subset hd)
    exact of_decide_eq_true haddr ▸ hl.placed d hd
  have hmessages : (g.map Answered.entry).map Handled.message =
      (g.map Answered.request).map Request.text := by
    rw [List.map_map, List.map_map]
    rfl
  have hnew : Answered.requestsAt new l = [] := by
    rw [Answered.requestsAt, List.filter_eq_nil_iff.mpr, List.map_nil]
    intro d hd haddr
    exact hfresh d.request.key (of_decide_eq_true haddr ▸ hl.placed d hd)
  refine ⟨(l.filter fun d => d.addr ≠ old) ++ g.map (moved new), ?_, fun d hd => ?_, fun addr c hc => ?_⟩
  · dsimp only [Service.handOver]
    rw [hl.past, List.filter_map, List.map_append, List.map_map, List.map_map]
    rfl
  · rcases List.mem_append.mp hd with hd | hd
    · obtain ⟨hd, haddr⟩ := List.mem_filter.mp hd
      exact hover.kept _ _ (hl.placed d hd) (of_decide_eq_true haddr)
    · obtain ⟨d', hd', rfl⟩ := List.mem_map.mp hd
      exact hover.moved _ (hg d' hd')
  · have happend : Answered.requestsAt addr ((l.filter fun d => d.addr ≠ old) ++ g.map (moved new)) =
        Answered.requestsAt addr (l.filter fun d => d.addr ≠ old) ++
          Answered.requestsAt addr (g.map (moved new)) := by
      simp only [Answered.requestsAt, List.filter_append, List.map_append]
    rw [happend, requestsAt_moved]
    dsimp only at hc
    by_cases haddr : addr = new
    · subst haddr
      rw [Function.update_self, hmessages] at hc
      obtain ⟨b, hb, hc⟩ := Option.bind_eq_some_iff.mp hc
      obtain ⟨c', hc', hserved⟩ := (hl.stored addr b hb).replicaAll (g.map Answered.request)
      rw [hc, Option.some.injEq] at hc'
      subst hc'
      have hne : addr ≠ old := by
        rintro rfl
        rw [hdead] at hb
        cases hb
      rw [requestsAt_rest hne, if_pos rfl]
      exact hserved
    · rw [Function.update_of_ne haddr] at hc
      have hne : addr ≠ old := by
        rintro rfl
        rw [hdead] at hc
        cases hc
      rw [requestsAt_rest hne, if_neg (Ne.symm haddr), List.append_nil]
      exact hl.stored addr c hc

lemma Inv.takeover (hi : s.Inv) {fd : ℤ} (hok : s.Allowed (.takeover fd got))
    (hs : s.step (.takeover fd got) = some s') : s'.Inv := by
  simp only [step, Option.bind_eq_bind, Option.bind_eq_some_iff] at hs
  obtain ⟨e, he, old, hold, new, hnew, w, hw, hs⟩ := hs
  split_ifs at hs with hguard
  obtain ⟨hmem, hpos, hdead, hgot⟩ := hguard
  obtain ⟨hatomic, hapart, hgone⟩ := hok
  have hnone : s.fleet.servers old = none := Option.isNone_iff_eq_none.mp (hgone old hold)
  obtain ⟨hover, hfresh⟩ := World.hands_over hi.reached hapart he hmem hpos hdead hw hold hnew
  obtain ⟨l, hl⟩ := hi.kept
  have hkept := hl.handOver hover hfresh hnone hgot
  cases hs
  refine ⟨hi.reached.next ⟨hatomic, trivial⟩ hw, (hi.held.setServers _).mono fun key addr hknows => ?_,
    hkept⟩
  have hstill : ∀ addr, s.fleet.servers addr = none → Function.update s.fleet.servers new
      ((s.fleet.servers new).bind fun c => c.replicaAll (got.map Handled.message)) addr = none := by
    intro addr haddr
    by_cases hnew : addr = new
    · subst hnew
      rw [Function.update_self, haddr, Option.bind_none]
    · rw [Function.update_of_ne hnew, haddr]
  refine hknows.of_none (fun hplaces => ?_) (hstill addr)
  by_cases haddr : addr = old
  · exact .inr ⟨hplaces.isField, hstill addr (haddr ▸ hnone)⟩
  · exact .inl (hover.kept key addr hplaces haddr)

/-- What `replica_chat` brings to a backup that has joined with its primary: all the requests but those that are
on their way to it, and at most two. -/
theorem got_of_replicaChat {flowOff : Str → ℤ} {store : LruCache Str Str} {r : ReplicaChat} {b : Cache}
    (h : Reach (ReplicaChat.Init store) (ReplicaChat.step flowOff) ReplicaChat.Allowed r)
    (hserved : r.primary.served = (handledAt s.past old).map Handled.message) (hb : b.mainCache = store) :
    ∃ c b', ∃ got : List Handled, r.backup = some c ∧ got.Sublist (handledAt s.past old) ∧
      b.replicaAll (got.map Handled.message) = some b' ∧ b'.mainCache = c.mainCache ∧
      (handledAt s.past old).length ≤ got.length + (ReplicaChat.requests r.inbox).length + 2 := by
  have hf := ReplicaChat.follows_of_reach h
  obtain ⟨c, hc, -, done, hdone, hstore⟩ := hf.attached
  have hall : (handledAt s.past old).map Handled.message =
      done ++ ReplicaChat.requests r.inbox ++ r.primary.pending := by
    rw [← hserved, ← hf.total, ← hdone]
    rfl
  have hgot : ((handledAt s.past old).take done.length).map Handled.message = done := by
    rw [List.map_take, hall, List.append_assoc, List.take_left]
  have hfree : ∀ message ∈ done, message.head? ≠ some sharp := fun message hmem => by
    refine hf.free message ?_
    rw [hserved, hall]
    exact List.mem_append_left _ (List.mem_append_left _ hmem)
  refine ⟨c, { b with mainCache := done.foldl LruCache.serve b.mainCache }, _, hc,
    List.take_sublist done.length _, ?_, ?_, ?_⟩
  · rw [hgot]
    exact b.replicaAll_eq hfree
  · dsimp only
    rw [hb, hstore]
  · have hlost := ReplicaChat.length_pending_le r.primary
    have hlen := congrArg List.length hall
    have hdone' := congrArg List.length hgot
    rw [List.length_map] at hlen hdone'
    rw [List.length_append, List.length_append] at hlen
    omega

/-! ### Runs -/

lemma Inv.step (hi : s.Inv) (hok : s.Allowed e) (hs : s.step e = some s') : s'.Inv := by
  cases e with
  | fleet e => exact hi.fleet hs
  | master e => exact hi.master hok hs
  | crash addr => exact hi.crash hs
  | takeover fd got => exact hi.takeover hok hs

lemma inv_of_reach (h : Reach Init step Allowed s) : s.Inv :=
  h.invariant (fun _ => inv_init) fun _ _ _ _ hi hok hs => hi.step hok hs

end Service

end DistCache
