import DistCache.Lib.Matching
import DistCache.Master.RingInv

/-!
Who is paired with whom.

The `pair_fd` fields are a symmetric matching between primaries and backups (`Matched`), and
`fd_node` lists different connections, all of them primaries, as long as a cache that joins takes
a partner off a stack that is there, unpaired and of the opposite role (`PopsSound`).  The code does not
see to that: a primary that dies, or is shrunk, while it waits for a backup stays on `pcache`, and
its descriptor may belong to another cache when it is taken.
-/

namespace DistCache

open Lib

/-! ### The matching of the records -/

/-- The partner a record names. -/
def FdMap.partner (e : FdMap) : Option ℤ := if 0 ≤ e.pairFd then some e.pairFd else none

/-- The partner of a connection. -/
def partner (l : Map ℤ FdMap) (a : ℤ) : Option ℤ := (l.lookup a).bind FdMap.partner

/-- The status of a connection. -/
def role (l : Map ℤ FdMap) (a : ℤ) : Option UInt8 := (l.lookup a).map FdMap.status

/-- One is a primary and the other a backup. -/
def Opposite (s t : Option UInt8) : Prop :=
  (s = some statusP ∧ t = some statusR) ∨ (s = some statusR ∧ t = some statusP)

/-- The records pair primaries with backups, symmetrically. -/
abbrev Matched (l : Map ℤ FdMap) : Prop := Matching Opposite (partner l) (role l)

section Matched

variable {l : Map ℤ FdMap} {a b fd top : ℤ} {e f te : FdMap}

lemma Opposite.symm {s t : Option UInt8} (h : Opposite s t) : Opposite t s :=
  h.elim (fun h => .inr ⟨h.2, h.1⟩) fun h => .inl ⟨h.2, h.1⟩

lemma partner_eq_some_iff :
    partner l a = some b ↔ ∃ e, l.lookup a = some e ∧ 0 ≤ e.pairFd ∧ e.pairFd = b := by
  unfold partner FdMap.partner
  rw [Option.bind_eq_some_iff]
  refine exists_congr fun e => and_congr_right fun _ => ?_
  split_ifs with h <;> simp [h]

lemma partner_of_lookup (h : l.lookup a = some e) : partner l a = e.partner := by
  rw [partner, h, Option.bind_some]

lemma role_of_lookup (h : l.lookup a = some e) : role l a = some e.status := by
  rw [role, h, Option.map_some]

lemma partner_insert : partner (l.insert a e) = Function.update (partner l) a e.partner := by
  funext b
  rw [Function.update_apply, partner, lookup_insert_ite]
  split_ifs <;> rfl

lemma partner_erase : partner (l.erase a) = Function.update (partner l) a none := by
  funext b
  rw [Function.update_apply, partner, lookup_erase_ite]
  split_ifs <;> rfl

lemma role_insert : role (l.insert a e) = Function.update (role l) a (some e.status) := by
  funext b
  rw [Function.update_apply, role, lookup_insert_ite]
  split_ifs <;> rfl

lemma role_erase : role (l.erase a) = Function.update (role l) a none := by
  funext b
  rw [Function.update_apply, role, lookup_erase_ite]
  split_ifs <;> rfl

/-- Pairing changes the role of the cache that joins, and no other. -/
lemma role_paired (hte : (l.insert fd { e with pairFd := top }).lookup top = some te) :
    role (Master.paired l fd top e te) = Function.update (role l) fd (some e.status) := by
  have hrole : role (l.insert fd { e with pairFd := top }) top = some te.status :=
    role_of_lookup hte
  rw [Master.paired, role_insert, ← hrole, Function.update_eq_self, role_insert]

lemma Matched.insert_free (h : Matched l) (ha : partner l a = none) (he : e.partner = none) :
    Matched (l.insert a e) := by
  unfold Matched
  rw [partner_insert, role_insert, he, ← ha, Function.update_eq_self]
  exact h.role_of_free ha

lemma Matched.erase_free (h : Matched l) (ha : partner l a = none) : Matched (l.erase a) := by
  have hp : partner (l.erase a) = partner l := by
    rw [partner_erase, ← ha, Function.update_eq_self]
  unfold Matched
  rw [hp, role_erase]
  exact h.role_of_free ha

/-- The partners part: one of them is left with the record `f`, and the other has none. -/
lemma Matched.insert_erase (h : Matched l) (hab : partner l a = some b) (hf : f.partner = none) :
    Matched ((l.insert b f).erase a) := by
  unfold Matched
  rw [partner_erase, role_erase, partner_insert, role_insert, hf]
  exact h.of_part_roles (h.symm hab)

/-- Both partners go. -/
lemma Matched.erase_erase (h : Matched l) (hab : partner l a = some b) :
    Matched ((l.erase b).erase a) := by
  unfold Matched
  rw [partner_erase, role_erase, partner_erase, role_erase]
  exact h.of_part_roles (h.symm hab)

/-- A cache that joins unpaired can be paired with another cache that is unpaired and of the
opposite role, and with no other. -/
lemma Matched.paired_iff (h : Matched l) (hfd : partner l fd = none) (hpos : 0 ≤ fd)
    (htop : 0 ≤ top) (hte : (l.insert fd { e with pairFd := top }).lookup top = some te) :
    Matched (Master.paired l fd top e te) ↔
      fd ≠ top ∧ partner l top = none ∧ Opposite (some e.status) (role l top) := by
  have hp : partner (Master.paired l fd top e te) = Matching.pair (partner l) fd top := by
    rw [Master.paired, partner_insert, partner_insert]
    simp [FdMap.partner, hpos, htop, Matching.pair]
  unfold Matched
  rw [hp, role_paired hte, Matching.pair_iff Opposite.symm (h.role_of_free hfd) hfd]
  refine and_congr_right fun hne => and_congr_right fun _ => ?_
  rw [Function.update_self, Function.update_of_ne hne.symm]

/-- What the matching says of the records. -/
lemma matched_iff (hpos : ∀ a ∈ l, 0 < a) : Matched l ↔
    ∀ a e, l.lookup a = some e → 0 ≤ e.pairFd → e.pairFd ≠ a ∧
      ∃ f, l.lookup e.pairFd = some f ∧ f.pairFd = a ∧
        ((e.status = statusP ∧ f.status = statusR) ∨
          (e.status = statusR ∧ f.status = statusP)) := by
  constructor
  · intro h a e he hpair
    have hab : partner l a = some e.pairFd := partner_eq_some_iff.mpr ⟨e, he, hpair, rfl⟩
    obtain ⟨f, hf, -, hfa⟩ := partner_eq_some_iff.mp (h.symm hab)
    refine ⟨(h.ne hab).symm, f, hf, hfa, ?_⟩
    have hfit := h.fit hab
    rw [role_of_lookup he, role_of_lookup hf] at hfit
    simpa [Opposite] using hfit
  · intro h
    refine ⟨?_, ?_, ?_⟩ <;> intro a b hab <;>
      obtain ⟨e, he, hpair, rfl⟩ := partner_eq_some_iff.mp hab <;>
      obtain ⟨hne, f, hf, hfa, hroles⟩ := h a e he hpair
    · exact hne.symm
    · have hapos := hpos a (Finmap.mem_of_lookup_eq_some he)
      exact partner_eq_some_iff.mpr ⟨f, hf, by omega, hfa⟩
    · rw [role_of_lookup he, role_of_lookup hf]
      simpa [Opposite] using hroles

end Matched

/-! ### The records before and after the first heartbeat -/

/-- The record of a cache whose first heartbeat has come. -/
def FdMap.Told (e : FdMap) : Prop :=
  ∃ ip portClient portCache, IsField ip ∧ IsField portClient ∧ IsField portCache ∧
    e.ipPort = ip ++ sharp :: portClient ∧ e.ipCache = ip ++ sharp :: portCache

/-- The record `e` of `a` is new, or the first heartbeat of `a` has come. -/
def Known (a : ℤ) (e : FdMap) : Prop := e = FdMap.new a ∨ e.Told

lemma FdMap.Told.ipPort_ne {e : FdMap} (h : e.Told) : e.ipPort ≠ noAddr := by
  obtain ⟨ip, portClient, -, -, -, -, hip, -⟩ := h
  rw [hip]
  intro heq
  have hsharp : sharp ∈ noAddr := heq ▸ List.mem_append_right _ List.mem_cons_self
  revert hsharp
  decide

/-- Pairing leaves the addresses alone. -/
lemma FdMap.Told.of_eq {e f : FdMap} (h : e.Told) (hport : f.ipPort = e.ipPort)
    (hcache : f.ipCache = e.ipCache) : f.Told := by
  obtain ⟨ip, portClient, portCache, hip, hpc, hpp, h₁, h₂⟩ := h
  exact ⟨ip, portClient, portCache, hip, hpc, hpp, hport.trans h₁, hcache.trans h₂⟩

lemma FdMap.status_new_ne {a : ℤ} : (FdMap.new a).status ≠ statusP :=
  show (110 : UInt8) ≠ 80 by decide

lemma Known.told_of_status {a : ℤ} {e : FdMap} (h : Known a e) (hs : e.status ≠ 110) : e.Told := by
  rcases h with rfl | h
  · exact absurd rfl hs
  · exact h

namespace Master.First

variable {m : Master} {fd : ℤ} {msg role : Str} {e : FdMap}

lemma told (hf : m.First fd msg role e) : e.Told := by
  obtain ⟨-, -, hip, hclient, hcache, -, -⟩ := hf
  exact ⟨_, _, _, mem_splitSharp (List.mem_of_getElem? hip),
    mem_splitSharp (List.mem_of_getElem? hclient), mem_splitSharp (List.mem_of_getElem? hcache),
    rfl, rfl⟩

lemma status (hf : m.First fd msg role e) : role.head? = some e.status := by
  obtain ⟨-, -, -, -, -, -, hstatus⟩ := hf
  exact hstatus

/-- The record that the first heartbeat finds is a new one. -/
lemma lookup_new (hknown : Every Known m.cachesList) (hf : m.First fd msg role e) :
    m.cachesList.lookup fd = some (FdMap.new fd) ∧ e.pairFd = -1 := by
  obtain ⟨it, hit, hnew, -, hpair⟩ := hf.lookup
  rcases hknown fd it hit with rfl | htold
  · exact ⟨hit, hpair⟩
  · exact absurd hnew htold.ipPort_ne

end Master.First

/-! ### Positions of `fd_node` -/

section Positions

variable {l : List ℤ} {a b x : ℤ}

/-- A position that is overwritten no longer holds what it held. -/
lemma mem_set_idxOf (hl : l.Nodup) (hx : x ∈ l.set (l.idxOf a) b) : x = b ∨ x ∈ l ∧ x ≠ a := by
  induction l with
  | nil => simp at hx
  | cons c l ih =>
    obtain ⟨hc, hl⟩ := List.nodup_cons.mp hl
    by_cases hca : c = a
    · subst hca
      rw [List.idxOf_cons_self, List.set_cons_zero, List.mem_cons] at hx
      rcases hx with rfl | hx
      · exact .inl rfl
      · exact .inr ⟨List.mem_cons_of_mem _ hx, fun h => hc (h ▸ hx)⟩
    · rw [List.idxOf_cons_ne _ hca, List.set_cons_succ, List.mem_cons] at hx
      rcases hx with rfl | hx
      · exact .inr ⟨List.mem_cons_self, hca⟩
      · exact (ih hl hx).imp_right fun h => ⟨List.mem_cons_of_mem _ h.1, h.2⟩

end Positions

/-! ### The invariant -/

namespace Master

/-- The connection `top` is another one than `fd`, unpaired, and of status `status`. -/
def Waits (m : Master) (fd top : ℤ) (status : UInt8) : Prop :=
  top ≠ fd ∧ ∀ te ∈ m.cachesList.lookup top, te.partner = none ∧ te.status = status

/-- What a first heartbeat takes off a stack is there, unpaired and of the opposite role. -/
def PopsSound (m : Master) (fd : ℤ) (msg : Str) : Prop :=
  (m.Joins fd msg (lit "P") → ∀ top ∈ m.rcache.head?, m.Waits fd top statusR) ∧
    (m.Joins fd msg (lit "R") → ∀ top ∈ m.pcache.head?, m.Waits fd top statusP)

instance (m : Master) (fd : ℤ) (msg : Str) : Decidable (m.PopsSound fd msg) := by
  unfold PopsSound Waits; infer_instance

/-- The records pair primaries with backups, and `fd_node` lists different primaries. -/
structure Sound (m : Master) : Prop where
  known : Every Known m.cachesList
  matched : Matched m.cachesList
  nodup : m.fdNode.Nodup
  primary : ∀ a ∈ m.fdNode, role m.cachesList a = some statusP

variable {m m' : Master} {fd top : ℤ} {msg : Str} {am : Map Str ℤ} {fds : Finset ℤ} {e te : FdMap}
  {out : Out}

lemma sound_start : Sound start where
  known a e h := by simp [start] at h
  matched := ⟨fun h => by simp [partner, start] at h, fun h => by simp [partner, start] at h,
    fun h => by simp [partner, start] at h⟩
  nodup := List.nodup_nil
  primary a h := by simp [start] at h

lemma Sound.accept (hs : m.Sound) (hfd : m.cachesList.lookup fd = none) : (m.accept fd).Sound where
  known := hs.known.insert (.inl rfl)
  matched := hs.matched.insert_free (by rw [partner, hfd, Option.bind_none]) rfl
  nodup := hs.nodup
  primary a ha := by
    have hne : a ≠ fd := by
      rintro rfl
      have hr := hs.primary a ha
      rw [role, hfd] at hr
      cases hr
    rw [Master.accept, role_insert, Function.update_of_ne hne]
    exact hs.primary a ha

/-- A connection whose status is not `'P'` is no entry of `fd_node`. -/
lemma Sound.ne_of_status (hs : m.Sound) (he : m.cachesList.lookup fd = some e)
    (hstatus : e.status ≠ statusP) : ∀ a ∈ m.fdNode, a ≠ fd := by
  rintro a ha rfl
  have hr := hs.primary a ha
  rw [role_of_lookup he, Option.some.injEq] at hr
  exact hstatus hr

/-- The first heartbeat of `fd` gives it a role and leaves the others theirs. -/
lemma Sound.primary_first {role' : Str} (hs : m.Sound) (hf : m.First fd msg role' e) :
    ∀ a ∈ m.fdNode, Function.update (role m.cachesList) fd (some e.status) a = some statusP := by
  intro a ha
  have hne := hs.ne_of_status (hf.lookup_new hs.known).1 FdMap.status_new_ne a ha
  rw [Function.update_of_ne hne]
  exact hs.primary a ha

/-- A primary goes to the end of `fd_node`. -/
lemma Sound.nodes_first (hs : m.Sound) (hf : m.First fd msg (lit "P") e) :
    (m.fdNode ++ [fd]).Nodup ∧ ∀ a ∈ m.fdNode ++ [fd],
      Function.update (role m.cachesList) fd (some e.status) a = some statusP := by
  have hne := hs.ne_of_status (hf.lookup_new hs.known).1 FdMap.status_new_ne
  constructor
  · rw [List.nodup_append]
    refine ⟨hs.nodup, List.nodup_singleton _, fun a ha b hb => ?_⟩
    rw [List.mem_singleton.mp hb]
    exact hne a ha
  · intro a ha
    rcases List.mem_append.mp ha with ha | ha
    · exact hs.primary_first hf a ha
    · rw [List.mem_singleton.mp ha, Function.update_self]
      exact hf.status.symm

/-- A first heartbeat that pairs nobody keeps the records in order. -/
lemma Sound.records_first {role' : Str} (hs : m.Sound) (hf : m.First fd msg role' e) :
    Every Known (m.cachesList.insert fd e) ∧ Matched (m.cachesList.insert fd e) := by
  obtain ⟨hnew, hpair⟩ := hf.lookup_new hs.known
  refine ⟨hs.known.insert (.inr hf.told), hs.matched.insert_free ?_ ?_⟩
  · rw [partner_of_lookup hnew]
    rfl
  · rw [FdMap.partner, hpair]
    rfl

/-- A first heartbeat that takes a partner off a stack keeps the records in order when that
partner waits. -/
lemma Sound.records_paired {role' : Str} {status : UInt8} (hs : m.Sound)
    (hk : KeyedIn fds m.cachesList) (hf : m.First fd msg role' e) (hw : m.Waits fd top status)
    (hopp : Opposite (some e.status) (some status)) (hstatus : status ≠ 110)
    (hte : (m.cachesList.insert fd { e with pairFd := top }).lookup top = some te) :
    Every Known (paired m.cachesList fd top e te) ∧ Matched (paired m.cachesList fd top e te) := by
  obtain ⟨hnew, -⟩ := hf.lookup_new hs.known
  obtain ⟨hne, hw⟩ := hw
  have htop : m.cachesList.lookup top = some te := by
    rwa [lookup_insert_ite, if_neg hne] at hte
  obtain ⟨hfree, hrole⟩ := hw te htop
  constructor
  · have htold := (hs.known top te htop).told_of_status (hrole ▸ hstatus)
    have hfdtold : FdMap.Told { e with pairFd := top } := hf.told.of_eq rfl rfl
    have htoptold : FdMap.Told { te with pairFd := fd } := htold.of_eq rfl rfl
    exact (hs.known.insert (.inr hfdtold)).insert (.inr htoptold)
  · have hfd : partner m.cachesList fd = none := by
      rw [partner_of_lookup hnew]
      rfl
    refine (hs.matched.paired_iff hfd (hk fd _ hnew).2.1.le (hk top te htop).2.1.le hte).mpr
      ⟨hne.symm, ?_, ?_⟩
    · rw [partner_of_lookup htop, hfree]
    · rw [role_of_lookup htop, hrole]
      exact hopp

lemma Sound.heard (hs : m.Sound) (hk : KeyedIn fds m.cachesList) (hx : msg.head? = some 120)
    (hpop : m.PopsSound fd msg) (hh : m.Heard fd msg am m') : m'.Sound := by
  have hstatus : ∀ {e : FdMap} {r : Str} {s : UInt8}, m.First fd msg r e → r.head? = some s →
      e.status = s := fun hf hr => Option.some.inj (hf.status.symm.trans hr)
  cases hh with
  | again => exact ⟨hs.known, hs.matched, hs.nodup, hs.primary⟩
  | primary hf =>
    obtain ⟨hknown, hmatched⟩ := hs.records_first hf
    obtain ⟨hnodup, hprimary⟩ := hs.nodes_first hf
    exact ⟨hknown, hmatched, hnodup, role_insert ▸ hprimary⟩
  | primaryPaired hf hr hte =>
    have hw := hpop.1 (hf.joins hx) _ (by rw [hr]; rfl)
    obtain ⟨hknown, hmatched⟩ := hs.records_paired hk hf hw
      (.inl ⟨congrArg some (hstatus hf rfl), rfl⟩) (by decide) hte
    obtain ⟨hnodup, hprimary⟩ := hs.nodes_first hf
    exact ⟨hknown, hmatched, hnodup, role_paired hte ▸ hprimary⟩
  | replica hf =>
    obtain ⟨hknown, hmatched⟩ := hs.records_first hf
    exact ⟨hknown, hmatched, hs.nodup, role_insert ▸ hs.primary_first hf⟩
  | replicaPaired hf hp hte =>
    have hw := hpop.2 (hf.joins hx) _ (by rw [hp]; rfl)
    obtain ⟨hknown, hmatched⟩ := hs.records_paired hk hf hw
      (.inr ⟨congrArg some (hstatus hf rfl), rfl⟩) (by decide) hte
    exact ⟨hknown, hmatched, hs.nodup, role_paired hte ▸ hs.primary_first hf⟩
  | other hf =>
    obtain ⟨hknown, hmatched⟩ := hs.records_first hf
    exact ⟨hknown, hmatched, hs.nodup, role_insert ▸ hs.primary_first hf⟩

/-! ### Deaths and shrinks -/

/-- The partner of `fd` and its record, when `fd` names a key as its partner. -/
lemma partner_of_lookup_pairFd {b : FdMap} (hk : KeyedIn fds m.cachesList)
    (he : m.cachesList.lookup fd = some e) (hb : m.cachesList.lookup e.pairFd = some b) :
    partner m.cachesList fd = some e.pairFd :=
  partner_eq_some_iff.mpr ⟨e, he, (hk _ b hb).2.1.le, rfl⟩

/-- A cache that names no positive descriptor as its partner is unpaired. -/
lemma Sound.partner_eq_none (hs : m.Sound) (hk : KeyedIn fds m.cachesList)
    (he : m.cachesList.lookup fd = some e) (hpair : ¬ 0 < e.pairFd) :
    partner m.cachesList fd = none := by
  rw [Option.eq_none_iff_forall_ne_some]
  intro b hb
  obtain ⟨f, hf, -⟩ := partner_eq_some_iff.mp (hs.matched.symm hb)
  obtain ⟨e', he', -, rfl⟩ := partner_eq_some_iff.mp hb
  rw [he, Option.some.injEq] at he'
  subst he'
  exact hpair (hk _ f hf).2.1

/-- The two ends of a pair have opposite roles. -/
lemma Sound.status_partner {b : FdMap} (hs : m.Sound) (hk : KeyedIn fds m.cachesList)
    (he : m.cachesList.lookup fd = some e) (hb : m.cachesList.lookup e.pairFd = some b) :
    (e.status = statusP ∧ b.status = statusR) ∨ (e.status = statusR ∧ b.status = statusP) := by
  have hfit := hs.matched.fit (partner_of_lookup_pairFd hk he hb)
  rw [role_of_lookup he, role_of_lookup hb] at hfit
  simpa [Opposite] using hfit

lemma Sound.dead (hs : m.Sound) (hk : KeyedIn fds m.cachesList) (hd : m.Dead fd out) :
    Sound { out.master with cachesList := out.master.cachesList.erase fd } := by
  cases hd with
  | @replica e b he hstatus hb =>
    have hne := hs.ne_of_status he (by rw [hstatus]; decide)
    have hbstatus : b.status ≠ 110 := by
      rcases hs.status_partner hk he hb with h | h <;> rw [h.2] <;> decide
    have hbtold : FdMap.Told { b with pairFd := -1 } :=
      ((hs.known _ b hb).told_of_status hbstatus).of_eq rfl rfl
    refine ⟨(hs.known.insert (.inr hbtold)).erase fd,
      hs.matched.insert_erase (partner_of_lookup_pairFd hk he hb) rfl, hs.nodup, fun a ha => ?_⟩
    have hrole : role m.cachesList e.pairFd = some b.status := role_of_lookup hb
    dsimp only
    rw [role_erase, Function.update_of_ne (hne a ha), role_insert]
    dsimp only
    rw [← hrole, Function.update_eq_self]
    exact hs.primary a ha
  | @paired e b _ _ he hstatus hpos hne hb =>
    have hbstatus : b.status = statusR := by
      rcases hs.status_partner hk he hb with h | h
      · exact h.2
      · rw [hstatus] at h
        exact absurd h.1 (by decide)
    have hbtold : FdMap.Told { b with status := statusP, pairFd := -1 } :=
      ((hs.known _ b hb).told_of_status (by rw [hbstatus]; decide)).of_eq rfl rfl
    have hbnode : e.pairFd ∉ m.fdNode := fun h =>
      hs.ne_of_status hb (by rw [hbstatus]; decide) _ h rfl
    refine ⟨(hs.known.insert (.inr hbtold)).erase fd,
      hs.matched.insert_erase (partner_of_lookup_pairFd hk he hb) rfl,
      hs.nodup.set hbnode, fun a ha => ?_⟩
    dsimp only
    rw [role_erase, role_insert]
    rcases mem_set_idxOf hs.nodup ha with rfl | ⟨ha, hafd⟩
    · rw [Function.update_of_ne hne, Function.update_self]
    · have hab : a ≠ e.pairFd := fun h => hbnode (h ▸ ha)
      rw [Function.update_of_ne hafd, Function.update_of_ne hab]
      exact hs.primary a ha
  | @alone e he hstatus hpair hmem =>
    refine ⟨hs.known.erase fd, hs.matched.erase_free (hs.partner_eq_none hk he hpair),
      hs.nodup.erase fd, fun a ha => ?_⟩
    obtain ⟨hafd, ha⟩ := hs.nodup.mem_erase_iff.mp ha
    dsimp only
    rw [role_erase, Function.update_of_ne hafd]
    exact hs.primary a ha
  | @stray e he hstatus hpair hmem =>
    refine ⟨hs.known.erase fd, hs.matched.erase_free (hs.partner_eq_none hk he hpair),
      hs.nodup, fun a ha => ?_⟩
    have hafd : a ≠ fd := fun h => hmem (h ▸ ha)
    dsimp only
    rw [role_erase, Function.update_of_ne hafd]
    exact hs.primary a ha
  | @other e he hP hR =>
    have hfree : partner m.cachesList fd = none := by
      rw [Option.eq_none_iff_forall_ne_some]
      intro b hb
      have hfit := hs.matched.fit hb
      rw [role_of_lookup he] at hfit
      simp [Opposite, hP, hR] at hfit
    refine ⟨hs.known.erase fd, hs.matched.erase_free hfree, hs.nodup, fun a ha => ?_⟩
    dsimp only
    rw [role_erase, Function.update_of_ne (hs.ne_of_status he hP a ha)]
    exact hs.primary a ha

/-- A shrink that takes the last entry off `fd_node`. -/
lemma Sound.shrinkEnd {l : List ℤ} (hs : m.Sound) (hk : KeyedIn fds m.cachesList)
    (hl : m.fdNode = l ++ [fd]) (h : m.shrinkEnd fd = some out) : out.master.Sound := by
  obtain ⟨-, e, he, hout⟩ := shrinkEnd_cases h
  have hnodup := hs.nodup
  rw [hl, List.nodup_append] at hnodup
  have hdrop : m.fdNode.dropLast = l := by rw [hl, List.dropLast_concat]
  have hne : ∀ a ∈ l, a ≠ fd := fun a ha => hnodup.2.2 a ha fd (by simp)
  have hprimary : ∀ a ∈ l, role m.cachesList a = some statusP := fun a ha =>
    hs.primary a (hl ▸ List.mem_append_left _ ha)
  have hstatus : e.status = statusP := by
    have hr := hs.primary fd (hl ▸ by simp)
    rwa [role_of_lookup he, Option.some.injEq] at hr
  rcases hout with ⟨hpos, hpair, rfl⟩ | ⟨hpair, rfl⟩
  · have hfd : partner m.cachesList fd = some e.pairFd :=
      partner_eq_some_iff.mpr ⟨e, he, hpos.le, rfl⟩
    have hfit := hs.matched.fit hfd
    rw [role_of_lookup he, hstatus] at hfit
    have hbrole : role m.cachesList e.pairFd = some statusR := by
      rcases hfit with h | h
      · exact h.2
      · exact absurd h.1 (by decide)
    refine ⟨(hs.known.erase _).erase _, hs.matched.erase_erase hfd, hdrop ▸ hnodup.1,
      fun a ha => ?_⟩
    dsimp only at ha ⊢
    rw [hdrop] at ha
    have hab : a ≠ e.pairFd := by
      rintro rfl
      rw [hprimary _ ha] at hbrole
      exact absurd hbrole (by decide)
    rw [role_erase, Function.update_of_ne (hne a ha), role_erase, Function.update_of_ne hab]
    exact hprimary a ha
  · refine ⟨hs.known.erase _, hs.matched.erase_free (hs.partner_eq_none hk he hpair),
      hdrop ▸ hnodup.1, fun a ha => ?_⟩
    dsimp only at ha ⊢
    rw [hdrop] at ha
    rw [role_erase, Function.update_of_ne (hne a ha)]
    exact hprimary a ha

/-- The role a connection joins in is the one its first heartbeat states. -/
lemma First.role_eq {r r' : Str} (hf : m.First fd msg r e) (hj : m.Joins fd msg r') : r' = r := by
  obtain ⟨-, -, -, -, -, hrole, -⟩ := hf
  exact Option.some.inj (hj.2.2.symm.trans hrole)

/-- A partner that does not wait spoils the matching at once. -/
lemma Sound.popsSound_of_matched (hs : m.Sound) (hk : KeyedIn fds m.cachesList)
    (hh : m.Heard fd msg am m') (h' : Matched m'.cachesList) : m.PopsSound fd msg := by
  have hpop : ∀ {r : Str} {e te : FdMap} {top : ℤ}, m.First fd msg r e →
      (m.cachesList.insert fd { e with pairFd := top }).lookup top = some te →
      Matched (paired m.cachesList fd top e te) →
      top ≠ fd ∧ partner m.cachesList top = none ∧
        Opposite (some e.status) (DistCache.role m.cachesList top) := by
    intro r e te top hf hte hm
    obtain ⟨hnew, -⟩ := hf.lookup_new hs.known
    have hfd : partner m.cachesList fd = none := by
      rw [partner_of_lookup hnew]
      rfl
    have htop : 0 ≤ top := by
      rw [lookup_insert_ite] at hte
      split_ifs at hte with heq
      · exact heq ▸ (hk fd _ hnew).2.1.le
      · exact (hk top te hte).2.1.le
    obtain ⟨hne, hfree, hopp⟩ :=
      (hs.matched.paired_iff hfd (hk fd _ hnew).2.1.le htop hte).mp hm
    exact ⟨hne.symm, hfree, hopp⟩
  have hwaits : ∀ {r : Str} {e te : FdMap} {top : ℤ} {s t : UInt8}, m.First fd msg r e →
      (m.cachesList.insert fd { e with pairFd := top }).lookup top = some te →
      Matched (paired m.cachesList fd top e te) → r.head? = some s →
      (∀ u, Opposite (some s) u → u = some t) → m.Waits fd top t := by
    intro r e te top s t hf hte hm hr hopp
    obtain ⟨hne, hfree, hfit⟩ := hpop hf hte hm
    have hs' : e.status = s := Option.some.inj (hf.status.symm.trans hr)
    refine ⟨hne, fun te' hte' => ?_⟩
    rw [Option.mem_def] at hte'
    rw [hs'] at hfit
    have hrole := hopp _ hfit
    rw [role_of_lookup hte', Option.some.injEq] at hrole
    exact ⟨(partner_of_lookup hte').symm.trans hfree, hrole⟩
  have hP : ∀ u, Opposite (some statusP) u → u = some statusR := by
    rintro u (⟨-, h⟩ | ⟨h, -⟩)
    · exact h
    · exact absurd h (by decide)
  have hR : ∀ u, Opposite (some statusR) u → u = some statusP := by
    rintro u (⟨h, -⟩ | ⟨-, h⟩)
    · exact absurd h (by decide)
    · exact h
  cases hh with
  | again hit hold =>
    have hno : ∀ r, ¬ m.Joins fd msg r := by
      rintro r ⟨-, hnew, -⟩
      rw [hit, Option.map_some, Option.some.injEq] at hnew
      exact hold hnew
    exact ⟨fun h => absurd h (hno _), fun h => absurd h (hno _)⟩
  | primary hf hr =>
    exact ⟨fun _ top htop => by simp [hr] at htop, fun h => absurd (hf.role_eq h) (by decide)⟩
  | primaryPaired hf hr hte =>
    refine ⟨fun _ top htop => ?_, fun h => absurd (hf.role_eq h) (by decide)⟩
    rw [hr, List.head?_cons, Option.mem_some] at htop
    subst htop
    exact hwaits hf hte h' rfl hP
  | replica hf hp =>
    exact ⟨fun h => absurd (hf.role_eq h) (by decide), fun _ top htop => by simp [hp] at htop⟩
  | replicaPaired hf hp hte =>
    refine ⟨fun h => absurd (hf.role_eq h) (by decide), fun _ top htop => ?_⟩
    rw [hp, List.head?_cons, Option.mem_some] at htop
    subst htop
    exact hwaits hf hte h' rfl hR
  | other hf hnP hnR =>
    exact ⟨fun h => absurd (hf.role_eq h).symm hnP, fun h => absurd (hf.role_eq h).symm hnR⟩

/-! ### Answers -/

/-- A registered primary that a key is looked up to answers with its address. -/
lemma Sound.handleClientMessage {key : Str} (hs : m.Sound)
    (hfd : m.lookupFd key = some fd) : ∃ e ip port, fd ∈ m.fdNode ∧
      m.cachesList.lookup fd = some e ∧ e.status = statusP ∧ e.ipPort = ip ++ sharp :: port ∧
      m.handleClientMessage key = some (ip ++ colon :: port) := by
  have hmem : fd ∈ m.fdNode := by
    obtain ⟨index, -, hget⟩ := Option.bind_eq_some_iff.mp hfd
    exact List.mem_of_getElem? hget
  obtain ⟨e, he, hstatus⟩ := Option.map_eq_some_iff.mp (hs.primary fd hmem)
  obtain ⟨ip, port, -, hip, hport, -, hipPort, -⟩ :=
    (hs.known fd e he).told_of_status (by rw [hstatus]; decide)
  refine ⟨e, ip, port, hmem, he, hstatus, hipPort, ?_⟩
  simp only [Master.handleClientMessage, hfd, he, hipPort, splitSharp_pair hip hport,
    Option.bind_eq_bind, Option.bind_some, List.getElem?_cons_zero, List.getElem?_cons_succ,
    Option.pure_def]

end Master

/-! ### Runs -/

namespace World

variable {w w' : World} {e : Event}

/-- The partner that a cache takes off a stack when it joins is there, another one, unpaired and of
the opposite role. -/
def PopsSound (w : World) : Event → Prop
  | .receive fd msg => w.master.PopsSound fd msg
  | _ => True

instance decidablePopsSound (w : World) : (e : Event) → Decidable (w.PopsSound e)
  | .receive fd msg => inferInstanceAs (Decidable (w.master.PopsSound fd msg))
  | .accept _ | .detect _ | .shrinkBegin | .shrinkEnd | .tick => isTrue trivial

lemma sound_step (hk : w.Keyed) (hi : w.RingInv) (hs : w.master.Sound) (hpop : w.PopsSound e)
    (h : w.step e = some w') : w'.master.Sound := by
  cases e with
  | accept fd =>
    obtain ⟨-, hfd, rfl⟩ := step_accept h
    refine hs.accept ?_
    rw [Option.eq_none_iff_forall_ne_some]
    exact fun e he => hfd (hk fd e he).2.2
  | receive fd msg =>
    obtain ⟨-, ⟨-, rfl⟩ | ⟨hx, m, am, hh, rfl⟩⟩ := step_receive h
    · exact hs
    · exact hs.heard hk hx hpop hh
  | detect fd =>
    rcases step_detect hk h with ⟨-, rfl⟩ | ⟨-, out, hd, rfl⟩
    · exact hs
    · exact hs.dead hk hd
  | shrinkBegin =>
    obtain ⟨-, sh, e, -, -, -, rfl⟩ := step_shrinkBegin h
    exact ⟨hs.known, hs.matched, hs.nodup, hs.primary⟩
  | shrinkEnd =>
    obtain ⟨sh, out, hsh, -, hend, rfl⟩ := step_shrinkEnd h
    obtain ⟨-, f, hf, -⟩ := Master.shrinkEnd_cases hend
    obtain ⟨-, l, hl⟩ := hi.busy sh hsh (Finmap.mem_of_lookup_eq_some hf)
    exact hs.shrinkEnd hk hl hend
  | tick =>
    cases h
    exact hs

theorem sound_of_reach (h : Reach Init step (fun w e => Atomic w e ∧ PopsSound w e) w) :
    w.master.Sound := by
  refine h.invariant (I := fun w => w.master.Sound) ?_ fun w e w' hr hs hok hstep => ?_
  · rintro _ ⟨t₀, rfl⟩
    exact Master.sound_start
  · have hi := ringInv_of_reach (hr.mono fun _ _ hok => hok.1.undisturbed)
    exact sound_step (keyed_of_reach hr) hi hs hok.2 hstep

/-- **Pairs.**  While what is taken off the stacks waits, `pair_fd` is a symmetric matching of
primaries with backups; and the first cache that is paired with one that does not wait ends it. -/
theorem pairs_symmetric (h : Reach Init step (fun w e => Atomic w e ∧ PopsSound w e) w) :
    (∀ a e, w.master.cachesList.lookup a = some e → 0 ≤ e.pairFd → e.pairFd ≠ a ∧
      ∃ f, w.master.cachesList.lookup e.pairFd = some f ∧ f.pairFd = a ∧
        ((e.status = statusP ∧ f.status = statusR) ∨
          (e.status = statusR ∧ f.status = statusP))) ∧
    ∀ ev w', w.Atomic ev → w.step ev = some w' →
      (w.PopsSound ev ↔ ∀ a e, w'.master.cachesList.lookup a = some e → 0 ≤ e.pairFd →
        e.pairFd ≠ a ∧ ∃ f, w'.master.cachesList.lookup e.pairFd = some f ∧ f.pairFd = a ∧
          ((e.status = statusP ∧ f.status = statusR) ∨
            (e.status = statusR ∧ f.status = statusP))) := by
  have hs := sound_of_reach h
  have hk := keyed_of_reach h
  have hpos : ∀ {w : World}, w.Keyed → ∀ a ∈ w.master.cachesList, 0 < a := by
    intro w hk a ha
    obtain ⟨f, hf⟩ := Finmap.mem_iff.mp ha
    exact (hk a f hf).2.1
  refine ⟨(matched_iff (hpos hk)).mp hs.matched, fun ev w' hat hstep => ?_⟩
  rw [← matched_iff (hpos (hk.step hstep))]
  constructor
  · intro hpop
    exact (sound_of_reach (h.next ⟨hat, hpop⟩ hstep)).matched
  · intro h'
    cases ev with
    | receive fd msg =>
      obtain ⟨-, ⟨hx, -⟩ | ⟨hx, m, am, hh, rfl⟩⟩ := step_receive hstep
      · exact ⟨fun hj => absurd hj.1 hx, fun hj => absurd hj.1 hx⟩
      · exact hs.popsSound_of_matched hk hh h'
    | _ => trivial

/-- A primary and a backup join, and are paired. -/
def joinPair : List Event :=
  [.accept 5, .receive 5 (lit "x#127.0.0.1#8001#9001#P"),
    .accept 6, .receive 6 (lit "x#127.0.0.1#8002#9002#R")]

theorem pairs_symmetric_joinPair : ∃ w,
    path step (fun w e => Atomic w e ∧ PopsSound w e) (start 1638316800) joinPair = some w ∧
      ∃ e f, w.master.cachesList.lookup 5 = some e ∧ w.master.cachesList.lookup e.pairFd = some f ∧
        f.pairFd = 5 := by
  have hrun : (path step (fun w e => Atomic w e ∧ PopsSound w e) (start 1638316800) joinPair).bind
      (fun w => (w.master.cachesList.lookup 5).map FdMap.pairFd) = some 6 := by
    decide +kernel
  obtain ⟨w, hw, hf⟩ := Option.bind_eq_some_iff.mp hrun
  obtain ⟨e, he, hpair⟩ := Option.map_eq_some_iff.mp hf
  obtain ⟨-, f, hf, hfa, -⟩ :=
    (pairs_symmetric (reach_of_path ⟨_, rfl⟩ hw)).1 5 e he (by rw [hpair]; decide)
  exact ⟨w, hw, e, f, he, hf, hfa⟩

/-- A primary that died unpaired is still on `pcache`: the backup that gets its descriptor is paired
with itself. -/
theorem pairs_itself : ∃ w, Reach Init step Atomic w ∧
    ∃ e, w.master.cachesList.lookup 5 = some e ∧ e.pairFd = 5 := by
  have hrun : (path step Atomic (start 1638316800) ([.accept 5,
        .receive 5 (lit "x#127.0.0.1#8001#9001#P")] ++ fiveSeconds ++ [.detect 5, .accept 5,
        .receive 5 (lit "x#127.0.0.1#8002#9002#R")])).bind
      (fun w => (w.master.cachesList.lookup 5).map FdMap.pairFd) = some 5 := by
    decide +kernel
  obtain ⟨w, hw, hf⟩ := Option.bind_eq_some_iff.mp hrun
  exact ⟨w, reach_of_path ⟨_, rfl⟩ hw, Option.map_eq_some_iff.mp hf⟩

/-! ### The entries of `fd_node` -/

/-- **Primaries.**  While what is taken off the stacks waits, `fd_node` lists different registered
primaries, and a key whose lookup is in range is answered with the address of one of them. -/
theorem fdNode_primaries (h : Reach Init step (fun w e => Atomic w e ∧ PopsSound w e) w) :
    w.master.fdNode.Nodup ∧
    (∀ fd ∈ w.master.fdNode, ∃ e, w.master.cachesList.lookup fd = some e ∧ e.status = statusP) ∧
    ∀ key fd, w.master.lookupFd key = some fd → ∃ e ip port, fd ∈ w.master.fdNode ∧
      w.master.cachesList.lookup fd = some e ∧ e.status = statusP ∧
      e.ipPort = ip ++ sharp :: port ∧
      w.master.handleClientMessage key = some (ip ++ colon :: port) := by
  have hs := sound_of_reach h
  exact ⟨hs.nodup, fun fd hfd => Option.map_eq_some_iff.mp (hs.primary fd hfd),
    fun key fd => hs.handleClientMessage⟩

theorem fdNode_primaries_failover : ∃ w,
    path step (fun w e => Atomic w e ∧ PopsSound w e) (start 1638316800)
      (joinPair ++ fiveSeconds ++ [.detect 5]) = some w ∧ w.master.fdNode = [6] ∧
      ∃ e, w.master.cachesList.lookup 6 = some e ∧ e.status = statusP := by
  have hrun : (path step (fun w e => Atomic w e ∧ PopsSound w e) (start 1638316800)
      (joinPair ++ fiveSeconds ++ [.detect 5])).map (fun w => w.master.fdNode) = some [6] := by
    decide +kernel
  obtain ⟨w, hw, hnode⟩ := Option.map_eq_some_iff.mp hrun
  refine ⟨w, hw, hnode, (fdNode_primaries (reach_of_path ⟨_, rfl⟩ hw)).2.1 6 ?_⟩
  rw [hnode]
  exact List.mem_cons_self

/-- The primary that died as `6` is taken off `pcache` after a backup has become `6`, and the pair
it leaves behind is one-sided: when the next primary is `6`, the death of `5` puts it in twice. -/
theorem fdNode_twice : ∃ w, Reach Init step Atomic w ∧ w.master.fdNode = [6, 6] := by
  have hrun : (path step Atomic (start 1638316800)
      ([.accept 6, .receive 6 (lit "x#127.0.0.1#8001#9001#P")] ++ fiveSeconds ++ [.detect 6,
        .accept 5, .receive 5 (lit "x#127.0.0.1#8002#9002#P"),
        .accept 6, .receive 6 (lit "x#127.0.0.1#8003#9003#R"),
        .accept 7, .receive 7 (lit "x#127.0.0.1#8004#9004#R")] ++ fiveSeconds ++
        [.receive 5 (lit "x#127.0.0.1#8002#9002#P"), .detect 6,
        .accept 6, .receive 6 (lit "x#127.0.0.1#8005#9005#P")] ++ fiveSeconds ++
        [.detect 5])).map (fun w => w.master.fdNode) = some [6, 6] := by
    decide +kernel
  obtain ⟨w, hw, hnode⟩ := Option.map_eq_some_iff.mp hrun
  exact ⟨w, reach_of_path ⟨_, rfl⟩ hw, hnode⟩

end World

end DistCache
