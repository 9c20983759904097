import DistCache.Cache.Initial
import DistCache.Cache.Malformed
import DistCache.Lib.Inbox
import DistCache.Master.Addresses

/-!
What the master sends, and to whom.

`start_cache` sends a list, a broadcast and an answer, `periodicDetectCache` and `shrinkageCapacity` send a
broadcast each.  In the runs in which the records are in order, a broadcast goes to the entries of `fd_node`
once each, every text names caches that have a record, and no text goes to a connection that is closed
(`sends_posted`).
-/

namespace DistCache

open Lib

/-- A text about caches with a record in `l`. -/
inductive Notice (l : Map ℤ FdMap) : Str → Prop
  /-- A cache without a partner. -/
  | alone (status : UInt8) : Notice l (status :: sharp :: lit "None")
  /-- A cache that joins, dies or is shrunk, or a partner. -/
  | one {kind : Str} {a : ℤ} {x : Str × Str} (hkind : kind ∈ Cache.kinds) (ha : addr l a = some (joinAddr x))
      (hip : IsField x.1) (hport : IsField x.2) : Notice l (kind ++ sharp :: joinAddr x)
  /-- A primary and the backup in its place. -/
  | two {a b : ℤ} {x y : Str × Str} (ha : addr l a = some (joinAddr x)) (hb : addr l b = some (joinAddr y))
      (hx : IsField x.1 ∧ IsField x.2) (hy : IsField y.1 ∧ IsField y.2) :
      Notice l (lit "C#" ++ (x.1 ++ colon :: x.2) ++ sharp :: (y.1 ++ colon :: y.2))

/-- What an event sends, when it leaves the entries `nodes` in `fd_node`: nothing, a broadcast, an answer, or
all that a primary that joins makes it send.  The records are `l` before it and `l'` afterwards. -/
inductive Posted (l l' : Map ℤ FdMap) (nodes : List ℤ) : List (ℤ × Str) → Prop
  | nothing : Posted l l' nodes []
  | change {msg : Str} (hmsg : Notice l msg) : Posted l l' nodes (nodes.map fun fdi => (fdi, msg))
  | answer {fd : ℤ} {msg : Str} (hfd : fd ∈ l') (hmsg : Notice l' msg) : Posted l l' nodes [(fd, msg)]
  | join {fd : ℤ} {addrs : List Str} {new msg : Str} (hfd : fd ∈ nodes)
      (haddrs : nodes.map (addr l') = addrs.map some) (hnew : Notice l' new) (hmsg : Notice l' msg) :
      Posted l l' nodes
        ((fd, allcache addrs) :: (nodes.map fun fdi => (fdi, new)) ++ [(fd, msg)])

variable {l : Map ℤ FdMap} {a fd t : ℤ} {e : FdMap} {msg answer : Str} {out : Out} {m : Master}

/-! ### The texts -/

lemma FdMap.Told.addr (h : e.Told) : ∃ x, e.ipCache = joinAddr x ∧ IsField x.1 ∧ IsField x.2 := by
  obtain ⟨ip, portClient, portCache, hip, -, hport, -, hcache⟩ := h
  exact ⟨(ip, portCache), hcache, hip, hport⟩

lemma FdMap.Told.notice {k : Str} (h : e.Told) (he : l.lookup a = some e) (hkind : k ∈ Cache.kinds) :
    Notice l (k ++ sharp :: e.ipCache) := by
  obtain ⟨x, hx, hip, hport⟩ := h.addr
  rw [hx]
  exact .one (a := a) hkind (by rw [addr_of_lookup he, hx]) hip hport

lemma sharpToColon_of_field {x : Str × Str} (hip : IsField x.1) :
    Master.sharpToColon (joinAddr x) = some (x.1 ++ colon :: x.2) := by
  have hall : ∀ c ∈ x.1, decide (c ≠ sharp) = true := fun c hc => by
    simpa using ne_of_mem_of_not_mem hc hip.sharp_free
  have hmem : sharp ∈ joinAddr x := by simp [joinAddr]
  unfold Master.sharpToColon
  rw [if_pos hmem]
  unfold joinAddr
  rw [List.takeWhile_append_of_pos hall, List.dropWhile_append_of_pos hall,
    List.takeWhile_cons_of_neg (by simp), List.dropWhile_cons_of_neg (by simp), List.append_nil]
  rfl

namespace Master

/-- The answer to a heartbeat. -/
lemma Sound.notice_reply {fds : Finset ℤ} (hs : m.Sound) (hk : KeyedIn fds m.cachesList)
    (h : m.reply fd = some answer) : Notice m.cachesList answer := by
  simp only [reply, Option.bind_eq_bind, Option.bind_eq_some_iff, Option.pure_def] at h
  obtain ⟨it, hit, h⟩ := h
  split_ifs at h with hpair
  · obtain ⟨e, he, h⟩ := Option.bind_eq_some_iff.mp h
    cases h
    rcases hs.status_partner hk hit he with ⟨hit', he'⟩ | ⟨hit', he'⟩
    · have htold : e.Told := (hs.known _ e he).told_of_status (by rw [he']; decide)
      rw [hit']
      exact htold.notice (k := lit "P") he (by decide)
    · have htold : e.Told := (hs.known _ e he).told_of_status (by rw [he']; decide)
      rw [hit']
      exact htold.notice (k := lit "R") he (by decide)
  · cases h
    exact .alone it.status

lemma Sound.told {e : FdMap} (hs : m.Sound) (ha : a ∈ m.fdNode) (he : m.cachesList.lookup a = some e) :
    e.Told := by
  have hrole := hs.primary a ha
  rw [role_of_lookup he, Option.some.injEq] at hrole
  exact (hs.known a e he).told_of_status (by rw [hrole]; decide)

/-! ### What a heartbeat sends -/

/-- A heartbeat is answered after all else that it makes the master send. -/
lemma heartbeat_sends (h : m.heartbeat t fd msg = some out) :
    ∃ out₁ : Out, ∃ answer, (out₁.sends = [] ∨ ∃ m₁ : Master, m₁.joinPrimary fd = some out₁) ∧
      out₁.master.reply fd = some answer ∧
      out.sends = out₁.sends ++ [(fd, answer)] ∧ out.master.cachesList = out₁.master.cachesList ∧
      out.master.fdNode = out₁.master.fdNode := by
  simp only [heartbeat, Option.bind_eq_bind, Option.bind_eq_some_iff, Option.pure_def,
    handleHeartBeatResponse] at h
  obtain ⟨it, -, out₁, hout₁, answer, hanswer, m₁, ⟨_, -, _, -, hm₁⟩, hout⟩ := h
  cases hm₁
  cases hout
  refine ⟨out₁, answer, ?_, hanswer, rfl, rfl, rfl⟩
  split_ifs at hout₁
  · simp only [firstHeartbeat, joinReplica, Option.bind_eq_bind, Option.bind_eq_some_iff,
      Option.pure_def] at hout₁
    obtain ⟨it', -, ip, -, portClient, -, portCache, -, role, -, status, -, hout₁⟩ := hout₁
    split_ifs at hout₁
    · exact .inr ⟨_, hout₁⟩
    · obtain ⟨m₂, -, hout₁⟩ := Option.bind_eq_some_iff.mp hout₁
      cases hout₁
      exact .inl rfl
    · cases hout₁
      exact .inl rfl
  · cases hout₁
    exact .inl rfl

/-- A primary that joins is sent the addresses of all, and all are sent its address. -/
lemma joinPrimary_sends (h : m.joinPrimary fd = some out) : ∃ addrs e, fd ∈ out.master.fdNode ∧
    out.master.fdNode.map (addr out.master.cachesList) = addrs.map some ∧
    out.master.cachesList.lookup fd = some e ∧
    out.sends = (fd, allcache addrs) :: out.master.fdNode.map fun fdi => (fdi, lit "N#" ++ e.ipCache) := by
  simp only [joinPrimary, Option.bind_eq_bind, Option.bind_eq_some_iff, Option.pure_def,
    Option.some.injEq] at h
  obtain ⟨m₁, hm₁, fd', hfd', e, he, addrs, haddrs, rfl⟩ := h
  obtain ⟨hnode, -⟩ := pairPrimary_fdNode hm₁
  have heq : fd' = fd := by
    dsimp only at hnode hfd'
    rw [hnode] at hfd'
    simpa using hfd'.symm
  subst heq
  refine ⟨addrs, e, ?_, map_eq_of_mapM haddrs, he, rfl⟩
  dsimp only at hnode ⊢
  rw [hnode]
  simp

end Master

/-- Every receiver has a record. -/
lemma Posted.mem {l' : Map ℤ FdMap} {nodes : List ℤ} {sends : List (ℤ × Str)} (h : Posted l l' nodes sends)
    (hnodes : ∀ a ∈ nodes, a ∈ l') : ∀ x ∈ sends, x.1 ∈ l' := by
  intro x hx
  cases h with
  | nothing => exact absurd hx List.not_mem_nil
  | change =>
    obtain ⟨a, ha, rfl⟩ := List.mem_map.mp hx
    exact hnodes a ha
  | answer hfd =>
    rw [List.mem_singleton.mp hx]
    exact hfd
  | join hfd =>
    rcases List.mem_append.mp hx with hx | hx
    · rcases List.mem_cons.mp hx with rfl | hx
      · exact hnodes _ hfd
      · obtain ⟨a, ha, rfl⟩ := List.mem_map.mp hx
        exact hnodes a ha
    · rw [List.mem_singleton.mp hx]
      exact hnodes _ hfd

namespace World

variable {w w' : World} {ev : Event} {sends : List (ℤ × Str)}

lemma step_of_exec (h : w.exec ev = some (w', sends)) : w.step ev = some w' := by
  rw [step, h]
  rfl

/-- Only `accept` opens a connection. -/
lemma openFds_subset (h : w.exec ev = some (w', sends)) (hopen : ∀ fd, ev ≠ .accept fd) :
    w'.openFds ⊆ w.openFds := by
  cases ev with
  | accept fd => exact absurd rfl (hopen fd)
  | receive fd msg =>
    simp only [exec] at h
    split_ifs at h
    obtain ⟨out, -, heq⟩ := Option.map_eq_some_iff.mp h
    cases heq
    exact Finset.sdiff_subset
  | detect fd =>
    obtain ⟨out, -, heq⟩ := Option.map_eq_some_iff.mp h
    cases heq
    exact Finset.sdiff_subset
  | shrinkBegin =>
    simp only [exec] at h
    split_ifs at h
    obtain ⟨r, -, heq⟩ := Option.map_eq_some_iff.mp h
    cases heq
    exact Finset.sdiff_subset
  | shrinkEnd =>
    simp only [exec, Option.bind_eq_bind, Option.bind_eq_some_iff] at h
    obtain ⟨sh, -, h⟩ := h
    split_ifs at h
    obtain ⟨out, -, heq⟩ := Option.map_eq_some_iff.mp h
    cases heq
    exact Finset.sdiff_subset
  | tick =>
    cases h
    exact subset_rfl

lemma posted_receive (hs : w'.master.Sound) (hk : w'.Keyed)
    (h : w.exec (.receive fd msg) = some (w', sends)) :
    Posted w.master.cachesList w'.master.cachesList w'.master.fdNode sends := by
  simp only [exec] at h
  split_ifs at h
  obtain ⟨out, hout, heq⟩ := Option.map_eq_some_iff.mp h
  cases heq
  unfold Master.receive at hout
  split_ifs at hout
  · obtain ⟨out₁, answer, hfirst, hreply, hsends, hlist, hnode⟩ := Master.heartbeat_sends hout
    have hmem : fd ∈ out₁.master.cachesList := by
      obtain ⟨it, hit, -⟩ := Option.bind_eq_some_iff.mp hreply
      exact Finmap.mem_of_lookup_eq_some hit
    have hanswer : Notice out.master.cachesList answer := by
      have heq : out.master.reply fd = out₁.master.reply fd := by simp only [Master.reply, hlist]
      exact hs.notice_reply hk (heq.trans hreply)
    show Posted w.master.cachesList out.master.cachesList out.master.fdNode out.sends
    rcases hfirst with hnil | ⟨m₁, hjoin⟩
    · rw [hsends, hnil]
      exact .answer (hlist ▸ hmem) hanswer
    · obtain ⟨addrs, e, hfd, haddrs, he, hsends₁⟩ := Master.joinPrimary_sends hjoin
      rw [hsends, hsends₁, ← hnode]
      rw [← hnode] at hfd haddrs
      rw [← hlist] at haddrs he
      exact .join hfd haddrs ((hs.told hfd he).notice (k := lit "N") he (by decide)) hanswer
  · cases hout
    exact .nothing

lemma posted_detect (hs : w.master.Sound) (hk : w.Keyed) (h : w.exec (.detect fd) = some (w', sends)) :
    Posted w.master.cachesList w'.master.cachesList w'.master.fdNode sends := by
  obtain ⟨out, hout, heq⟩ := Option.map_eq_some_iff.mp h
  cases heq
  rcases Master.detect_cases (fun a e he => ⟨(hk a e he).1, (hk a e he).2.1⟩) hout with
    ⟨-, rfl⟩ | ⟨-, o, hd, rfl⟩
  · exact .nothing
  · have htold : ∀ {e : FdMap}, w.master.cachesList.lookup fd = some e → e.status = statusP → e.Told :=
      fun he hstatus => (hs.known fd _ he).told_of_status (by rw [hstatus]; decide)
    cases hd with
    | replica => exact .nothing
    | @paired e b str1 str2 he hstatus hpos hne hb h₁ h₂ =>
      obtain ⟨x, hx, hxip, hxport⟩ := (htold he hstatus).addr
      have hbtold : b.Told := by
        refine (hs.known _ b hb).told_of_status ?_
        rcases hs.status_partner hk he hb with hroles | hroles <;> rw [hroles.2] <;> decide
      obtain ⟨y, hy, hyip, hyport⟩ := hbtold.addr
      rw [hx, sharpToColon_of_field hxip] at h₁
      rw [hy, sharpToColon_of_field hyip] at h₂
      cases h₁
      cases h₂
      exact .change (.two (a := fd) (b := e.pairFd) (by rw [addr_of_lookup he, hx])
        (by rw [addr_of_lookup hb, hy]) ⟨hxip, hxport⟩ ⟨hyip, hyport⟩)
    | alone he hstatus =>
      exact .change ((htold he hstatus).notice (k := lit "D") he (by decide))
    | stray he hstatus =>
      exact .change ((htold he hstatus).notice (k := lit "D") he (by decide))
    | other => exact .nothing

lemma posted_shrinkBegin (hs : w.master.Sound) (h : w.exec .shrinkBegin = some (w', sends)) :
    Posted w.master.cachesList w'.master.cachesList w'.master.fdNode sends := by
  simp only [exec] at h
  split_ifs at h
  obtain ⟨⟨out, sh⟩, hout, heq⟩ := Option.map_eq_some_iff.mp h
  cases heq
  obtain ⟨hlast, e, he, -, rfl⟩ := Master.shrinkBegin_cases hout
  exact .change ((hs.told (List.mem_of_getLast? hlast) he).notice (k := lit "K") he (by decide))

/-- **What the master sends.**  As long as nothing but time comes between the halves of a shrink (`Atomic`) and
what is taken off the stacks waits (`PopsSound`), every event sends nothing, one broadcast that comes once to
each primary, an answer, or what a new primary makes it send; each text names caches that have a record, and
every receiver has a connection that is open before and after the event. -/
theorem sends_posted (hr : Reach Init step (fun w e => Atomic w e ∧ PopsSound w e) w)
    (hok : Atomic w ev ∧ PopsSound w ev) (h : w.exec ev = some (w', sends)) :
    Posted w.master.cachesList w'.master.cachesList w'.master.fdNode sends ∧ w'.master.fdNode.Nodup ∧
      ∀ fd msg, (fd, msg) ∈ sends → fd ∈ w.openFds ∧ fd ∈ w'.openFds := by
  have hr' := hr.next hok (step_of_exec h)
  have hs := sound_of_reach hr
  have hs' := sound_of_reach hr'
  have hk' := keyed_of_reach hr'
  have hposted : Posted w.master.cachesList w'.master.cachesList w'.master.fdNode sends := by
    cases ev with
    | accept fd =>
      simp only [exec] at h
      split_ifs at h
      cases h
      exact .nothing
    | receive fd msg => exact posted_receive hs' hk' h
    | detect fd => exact posted_detect hs (keyed_of_reach hr) h
    | shrinkBegin => exact posted_shrinkBegin hs h
    | shrinkEnd =>
      simp only [exec, Option.bind_eq_bind, Option.bind_eq_some_iff] at h
      obtain ⟨sh, -, h⟩ := h
      split_ifs at h
      obtain ⟨out, hout, heq⟩ := Option.map_eq_some_iff.mp h
      cases heq
      obtain ⟨-, e, -, ⟨-, -, rfl⟩ | ⟨-, rfl⟩⟩ := Master.shrinkEnd_cases hout
      · exact .nothing
      · exact .nothing
    | tick =>
      cases h
      exact .nothing
  refine ⟨hposted, hs'.nodup, fun fd msg hmem => ?_⟩
  have hnodes : ∀ a ∈ w'.master.fdNode, a ∈ w'.master.cachesList := by
    intro a ha
    obtain ⟨e, he, -⟩ := Option.map_eq_some_iff.mp (hs'.primary a ha)
    exact Finmap.mem_of_lookup_eq_some he
  obtain ⟨e, he⟩ := Finmap.mem_iff.mp (hposted.mem hnodes _ hmem)
  have hopen' : fd ∈ w'.openFds := (hk' fd e he).2.2
  refine ⟨openFds_subset h (fun a ha => ?_) hopen', hopen'⟩
  subst ha
  simp only [exec] at h
  split_ifs at h
  cases h
  exact absurd hmem List.not_mem_nil

/-- A second primary joins: it is sent both addresses, and both are sent its address. -/
theorem sends_posted_second : ∃ w w' sends,
    path step (fun w e => Atomic w e ∧ PopsSound w e) (start 1638316800) (joinPair ++ [.accept 7]) = some w ∧
    w.exec (.receive 7 (lit "x#127.0.0.1#8003#9003#P")) = some (w', sends) ∧
    sends = [(7, lit "127.0.0.1#9001#127.0.0.1#9003"), (5, lit "N#127.0.0.1#9003"),
      (7, lit "N#127.0.0.1#9003"), (7, lit "P#None")] ∧
    Posted w.master.cachesList w'.master.cachesList w'.master.fdNode sends := by
  have hrun : (path step (fun w e => Atomic w e ∧ PopsSound w e) (start 1638316800)
      (joinPair ++ [.accept 7])).bind (fun w =>
        (w.exec (.receive 7 (lit "x#127.0.0.1#8003#9003#P"))).map fun r =>
          (r.2, decide (Atomic w (.receive 7 (lit "x#127.0.0.1#8003#9003#P")) ∧
            PopsSound w (.receive 7 (lit "x#127.0.0.1#8003#9003#P"))))) =
      some ([(7, lit "127.0.0.1#9001#127.0.0.1#9003"), (5, lit "N#127.0.0.1#9003"),
        (7, lit "N#127.0.0.1#9003"), (7, lit "P#None")], true) := by
    decide +kernel
  obtain ⟨w, hw, hf⟩ := Option.bind_eq_some_iff.mp hrun
  obtain ⟨⟨w', sends⟩, hexec, hf⟩ := Option.map_eq_some_iff.mp hf
  obtain ⟨hsends, hok⟩ := Prod.mk.inj hf
  exact ⟨w, w', sends, hw, hexec, hsends,
    (sends_posted (reach_of_path ⟨_, rfl⟩ hw) (of_decide_eq_true hok) hexec).1⟩

end World

end DistCache
