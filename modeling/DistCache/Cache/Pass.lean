import DistCache.Cache.Messages
import DistCache.Lib.Transition

/-!
The two threads of a cache that share `status_` and the address of the dying cache: the callback of
`Heartbeat`, which writes them when the master announces a shrink, and `cache_pass`, which reads
them to decide whether to migrate its entries or to listen for those of others.

The assignments of the callback and the tests of `cache_pass` are steps of their own.
`from_single_cache` tests the status once, before it waits, so a cache that is told to die while it
waits does not notice.
-/

namespace DistCache

open Lib

/-! ### The threads -/

/-- Where the callback of `Heartbeat` is. -/
inductive Callback where
  /-- It waits for the next message. -/
  | idle
  /-- `dying_cache_IP_` is assigned. -/
  | gotIP (message : Str) (spear : ℤ)
  /-- `dying_cache_Port` is assigned. -/
  | gotPort
  /-- `update_cache` has returned. -/
  | updated
  deriving DecidableEq

/-- Where `cache_pass` is. -/
inductive Pass where
  /-- At `if(status_ == "K")`. -/
  | top
  /-- At `else if(status_ == "P")`. -/
  | testP
  /-- At `else if(status_ == "R")`. -/
  | testR
  /-- At the test of `dying_cache_IP_` and `dying_cache_Port`. -/
  | testDying
  /-- At the second `if(status_ == "P")`. -/
  | testPAgain
  /-- At `if(status_ == "K") return` of `from_single_cache`, called as a primary or not. -/
  | enter (primary : Bool)
  /-- In `accept` or `recv`. -/
  | listening (primary : Bool)
  /-- `from_single_cache` has returned. -/
  | leave (primary : Bool)
  /-- In the branch that migrates the entries. -/
  | migrating
  deriving DecidableEq

/-- A cache with its two threads. -/
structure Node where
  cache : Cache
  callback : Callback
  pass : Pass

namespace Node

/-- The atomic pieces of the threads. -/
inductive Event where
  /-- The callback starts on a message of the master. -/
  | message (msg : Str)
  /-- The callback goes on. -/
  | callback
  /-- `cache_pass` goes on. -/
  | pass
  /-- A cache connects to `from_single_cache` and sends an entry. -/
  | entry (msg : Str)

/-- The callback starts: a message that announces a shrink is handled in pieces. -/
def start (flowOff : Str → ℤ) (n : Node) (msg : Str) : Option Node :=
  if n.cache.status ≠ lit "K" ∧ msg.take 1 = lit "K" then do
    let spear ← Cache.spearFrom2 msg
    let ip ← Cache.part msg spear 1
    return { n with cache := { n.cache with dyingCacheIP := ip }, callback := .gotIP msg spear }
  else (n.cache.readFromMaster flowOff msg).map fun c => { n with cache := c }

/-- The callback goes on in the branch `K`. -/
def goOn (n : Node) : Option Node :=
  match n.callback with
  | .idle => none
  | .gotIP msg spear => do
    let port ← Cache.part msg spear 2
    return { n with cache := { n.cache with dyingCachePort := port }, callback := .gotPort }
  | .gotPort => do
    let c ← n.cache.updateCache n.cache.dyingCacheIP n.cache.dyingCachePort (lit "K")
    return { n with cache := c, callback := .updated }
  | .updated =>
    if n.cache.dyingCacheIP = n.cache.localCacheIP ∧
        n.cache.dyingCachePort = n.cache.portForCache then
      some { n with cache := { n.cache with status := lit "K" }, callback := .idle }
    else some { n with callback := .idle }

/-- `cache_pass` goes on: one test, or the return of `from_single_cache`. -/
def cachePass (n : Node) : Option Node :=
  match n.pass with
  | .top => some { n with pass := if n.cache.status = lit "K" then .migrating else .testP }
  | .testP => some { n with pass := if n.cache.status = lit "P" then .testDying else .testR }
  | .testR => some { n with pass := if n.cache.status = lit "R" then .enter false else .top }
  | .testDying => some { n with
      pass := if n.cache.dyingCacheIP = [] ∨ n.cache.dyingCachePort = [] then .top else .testPAgain }
  | .testPAgain => some { n with pass := if n.cache.status = lit "P" then .enter true else .top }
  | .enter p => some { n with pass := if n.cache.status = lit "K" then .leave p else .listening p }
  | .leave p => some { n with
      cache := if p then { n.cache with cacheListUpdateFlag := true } else n.cache
      pass := .top }
  | .listening _ | .migrating => none

/-- The node after a piece of a thread. -/
def step (flowOff : Str → ℤ) (n : Node) : Event → Option Node
  | .message msg => if n.callback = .idle then n.start flowOff msg else none
  | .callback => n.goOn
  | .pass => n.cachePass
  | .entry msg =>
    match n.pass with
    | .listening p => (n.cache.fromSingleCache msg).map fun c => { n with cache := c, pass := .leave p }
    | _ => none

/-- A new cache with a list of caches, and its threads at their beginning. -/
def Init (n : Node) : Prop :=
  ∃ size status ip portClient portCache list, status ≠ lit "K" ∧
    n = ⟨{ Cache.new size status ip portClient portCache with cacheList := list }, .idle, .top⟩

/-- `cache_pass` waits in `accept` or `recv`. -/
def Listening (n : Node) : Prop := ∃ p, n.pass = .listening p

/-- When the callback is about to assign `K` to `status_`, `cache_pass` does not wait. -/
def Awake (n : Node) : Event → Prop
  | .callback => n.callback = .updated → n.cache.dyingCacheIP = n.cache.localCacheIP →
      n.cache.dyingCachePort = n.cache.portForCache → ∀ p, n.pass ≠ .listening p
  | _ => True

variable {flowOff : Str → ℤ} {n n' : Node} {e : Event}

/-- In pieces, without a piece of `cache_pass` in between, the callback does what `ReadFromMaster`
does. -/
lemma path_callback {msg : Str} (hidle : n.callback = .idle) (hK : n.cache.status ≠ lit "K")
    (hhead : msg.take 1 = lit "K") :
    path (step flowOff) (fun _ _ => True) n [.message msg, .callback, .callback, .callback] =
      (n.cache.readFromMaster flowOff msg).map fun c => { n with cache := c } := by
  obtain ⟨c, cb, ps⟩ := n
  dsimp only at hidle hK hhead
  subst hidle
  simp only [path, step, if_true, start, goOn, Cache.readFromMaster, Cache.dying, Option.bind_eq_bind,
    if_false, ne_eq, hK, hhead, not_false_eq_true, and_self, Option.pure_def]
  cases Cache.spearFrom2 msg with
  | none => rfl
  | some spear =>
    simp only [Option.bind_some]
    cases Cache.part msg spear 1 with
    | none => rfl
    | some ip =>
      simp only [Option.bind_some]
      cases Cache.part msg spear 2 with
      | none => rfl
      | some port =>
        simp only [Option.bind_some]
        cases Cache.updateCache { c with dyingCacheIP := ip, dyingCachePort := port } ip port
          (lit "K") with
        | none => rfl
        | some c₁ =>
          simp only [Option.bind_some]
          split_ifs <;> rfl

/-! ### A cache that is told to die -/

/-- How many steps `cache_pass` is away from its migration once the status is `K`, when it does not
wait. -/
def rank : Pass → ℕ
  | .migrating => 0
  | .top => 1
  | .testR | .testPAgain | .leave _ => 2
  | .testP | .testDying | .enter _ => 3
  | .listening _ => 4

/-- The status is `K` only while the callback is idle, and then `cache_pass` does not wait. -/
def Dies (n : Node) : Prop :=
  n.cache.status = lit "K" → n.callback = .idle ∧ ¬ n.Listening

/-- The first piece of the callback does not make the status `K`: a message that announces a shrink is
not over with it. -/
lemma status_start {msg : Str} (hs : n.start flowOff msg = some n')
    (hK : n'.cache.status = lit "K") :
    n.cache.status = lit "K" ∧ n'.callback = n.callback ∧ n'.pass = n.pass := by
  unfold start at hs
  split_ifs at hs with hdying
  · simp only [Option.bind_eq_bind, Option.bind_eq_some_iff, Option.pure_def,
      Option.some.injEq] at hs
    obtain ⟨spear, -, ip, -, rfl⟩ := hs
    exact absurd hK hdying.1
  · obtain ⟨c, hc, rfl⟩ := Option.map_eq_some_iff.mp hs
    refine ⟨?_, rfl, rfl⟩
    by_contra hne
    exact hne (Cache.status_readFromMaster (fun hhead => hdying ⟨hne, hhead⟩) hc hK)

/-- Of the later pieces only the last one makes the status `K`. -/
lemma status_goOn (hs : n.goOn = some n') (hne : n.cache.status ≠ lit "K")
    (hK : n'.cache.status = lit "K") :
    n.callback = .updated ∧ n.cache.dyingCacheIP = n.cache.localCacheIP ∧
      n.cache.dyingCachePort = n.cache.portForCache ∧ n'.callback = .idle ∧ n'.pass = n.pass := by
  unfold goOn at hs
  split at hs
  next => cases hs
  next =>
    simp only [Option.bind_eq_bind, Option.bind_eq_some_iff, Option.pure_def,
      Option.some.injEq] at hs
    obtain ⟨port, -, rfl⟩ := hs
    exact absurd hK hne
  next =>
    simp only [Option.bind_eq_bind, Option.bind_eq_some_iff, Option.pure_def,
      Option.some.injEq] at hs
    obtain ⟨c, hc, rfl⟩ := hs
    obtain ⟨_, _, _, rfl⟩ := Cache.updateCache_cases hc
    exact absurd hK hne
  next hcb =>
    split_ifs at hs with hself
    · cases hs
      exact ⟨hcb, hself.1, hself.2, rfl, rfl⟩
    · cases hs
      exact absurd hK hne

/-- `cache_pass` leaves the status, and begins to wait only when it is not `K`: the step out of
`enter` tests it. -/
lemma status_cachePass (hs : n.cachePass = some n') :
    n'.cache.status = n.cache.status ∧ n'.callback = n.callback ∧
      (n.cache.status = lit "K" → ¬ n'.Listening) := by
  unfold cachePass at hs
  split at hs <;> cases hs
  case h_6 p hp =>
    refine ⟨rfl, rfl, ?_⟩
    rintro hK ⟨q, hq⟩
    rw [if_pos hK] at hq
    cases hq
  case h_7 p hp =>
    refine ⟨by cases p <;> rfl, rfl, ?_⟩
    rintro - ⟨q, hq⟩
    cases hq
  all_goals
    refine ⟨rfl, rfl, ?_⟩
    rintro - ⟨q, hq⟩
    dsimp only at hq
    split_ifs at hq

lemma Dies.step (h : n.Dies) (hok : n.Awake e) (hs : n.step flowOff e = some n') : n'.Dies := by
  intro hK
  cases e with
  | message msg =>
    simp only [Node.step] at hs
    split_ifs at hs
    obtain ⟨hold, hcb, hpass⟩ := status_start hs hK
    unfold Listening
    rw [hcb, hpass]
    exact h hold
  | callback =>
    have hne : n.cache.status ≠ lit "K" := by
      intro hold
      rw [Node.step, goOn, (h hold).1] at hs
      cases hs
    obtain ⟨hcb, hip, hport, hidle, hpass⟩ := status_goOn hs hne hK
    refine ⟨hidle, ?_⟩
    rintro ⟨p, hp⟩
    exact hok hcb hip hport p (hpass.symm.trans hp)
  | pass =>
    obtain ⟨hstatus, hcb, hwait⟩ := status_cachePass hs
    rw [hstatus] at hK
    exact ⟨hcb.trans (h hK).1, hwait hK⟩
  | entry msg =>
    simp only [Node.step] at hs
    split at hs
    next p hp =>
      obtain ⟨c, hc, rfl⟩ := Option.map_eq_some_iff.mp hs
      simp only [Cache.fromSingleCache, Option.bind_eq_bind, Option.bind_eq_some_iff,
        Option.pure_def, Option.some.injEq] at hc
      obtain ⟨kv, -, rfl⟩ := hc
      refine ⟨(h hK).1, ?_⟩
      rintro ⟨q, hq⟩
      cases hq
    next => cases hs

lemma dies_of_reach (h : Reach Init (step flowOff) Awake n) : n.Dies := by
  refine h.invariant (I := Dies) ?_ fun n e n' _ hd hok hs => hd.step hok hs
  rintro _ ⟨size, status, ip, portClient, portCache, list, hK, rfl⟩ hK'
  exact absurd hK' hK

/-- A cache that is dying and does not wait comes nearer to its migration with every step. -/
lemma rank_cachePass (hK : n.cache.status = lit "K") (hlisten : ¬ n.Listening)
    (hmig : n.pass ≠ .migrating) :
    ∃ n', n.cachePass = some n' ∧ n'.cache.status = lit "K" ∧ ¬ n'.Listening ∧
      rank n'.pass < rank n.pass := by
  obtain ⟨c, cb, ps⟩ := n
  dsimp only at hK hmig
  have hP : c.status ≠ lit "P" := by rw [hK]; decide
  have hR : c.status ≠ lit "R" := by rw [hK]; decide
  cases ps with
  | top => exact ⟨_, rfl, hK, by simp [Listening, hK], by simp [hK, rank]⟩
  | testP => exact ⟨_, rfl, hK, by simp [Listening, hP], by simp [hP, rank]⟩
  | testR => exact ⟨_, rfl, hK, by simp [Listening, hR], by simp [hR, rank]⟩
  | testDying =>
    refine ⟨_, rfl, hK, ?_, ?_⟩
    · rintro ⟨p, hp⟩
      dsimp only at hp
      split_ifs at hp
    · dsimp only
      split_ifs <;> decide
  | testPAgain => exact ⟨_, rfl, hK, by simp [Listening, hP], by simp [hP, rank]⟩
  | enter p => exact ⟨_, rfl, hK, by simp [Listening, hK], by simp [hK, rank]⟩
  | listening p => exact absurd ⟨p, rfl⟩ hlisten
  | leave p => exact ⟨_, rfl, by cases p <;> exact hK, by simp [Listening], by simp [rank]⟩
  | migrating => exact absurd rfl hmig

/-- So it reaches its migration. -/
lemma reaches_migration {m : ℕ} (hm : rank n.pass ≤ m) (hK : n.cache.status = lit "K")
    (hlisten : ¬ n.Listening) : ∃ k ≤ m, ∃ n', n'.pass = .migrating ∧
      path (step flowOff) (fun _ _ => True) n (List.replicate k .pass) = some n' := by
  induction m generalizing n with
  | zero =>
    refine ⟨0, le_rfl, n, ?_, rfl⟩
    by_contra hmig
    obtain ⟨n', -, -, -, hlt⟩ := rank_cachePass hK hlisten hmig
    omega
  | succ m ih =>
    by_cases hmig : n.pass = .migrating
    · exact ⟨0, Nat.zero_le _, n, hmig, rfl⟩
    · obtain ⟨n₁, hn₁, hK₁, hlisten₁, hlt⟩ := rank_cachePass hK hlisten hmig
      obtain ⟨k, hk, n', hn', hpath⟩ := ih (by omega) hK₁ hlisten₁
      refine ⟨k + 1, by omega, n', hn', ?_⟩
      have hstep : n.step flowOff .pass = some n₁ := hn₁
      rw [List.replicate_succ, path_cons trivial hstep, hpath]

/-- **Told to die.**  As long as `cache_pass` does not wait whenever the callback assigns `K` to
`status_`, no dying cache waits for the entries of others, and one that is dying migrates its own
after three steps at most; and the first time it does wait ends this. -/
theorem dying_does_not_listen (h : Reach Init (step flowOff) Awake n) :
    ¬ (n.cache.status = lit "K" ∧ n.Listening) ∧
    (n.cache.status = lit "K" → ∃ k ≤ 3, ∃ n', n'.pass = .migrating ∧
      path (step flowOff) (fun _ _ => True) n (List.replicate k .pass) = some n') ∧
    ∀ e n', n.step flowOff e = some n' →
      (n.Awake e ↔ ¬ (n'.cache.status = lit "K" ∧ n'.Listening)) := by
  have hd := dies_of_reach h
  refine ⟨fun ⟨hK, hlisten⟩ => (hd hK).2 hlisten, fun hK => ?_, fun e n' hs => ⟨fun hok => ?_, ?_⟩⟩
  · have hlisten := (hd hK).2
    have hrank : rank n.pass ≤ 3 := by
      cases hp : n.pass with
      | listening p => exact absurd ⟨p, hp⟩ hlisten
      | _ => simp [rank]
    exact reaches_migration hrank hK hlisten
  · exact fun ⟨hK, hlisten⟩ => (hd.step hok hs hK).2 hlisten
  · intro hno
    cases e with
    | callback =>
      intro hcb hip hport p hp
      simp only [Node.step, goOn, hcb, hip, hport, and_self, if_true, Option.some.injEq] at hs
      subst hs
      exact hno ⟨rfl, p, hp⟩
    | _ => trivial

/-- A primary that knows itself and one other cache. -/
def twoCaches : Node :=
  ⟨{ Cache.new 10 (lit "P") (lit "127.0.0.1") (lit "8001") (lit "9001") with
    cacheList := [(lit "127.0.0.1", lit "9001"), (lit "127.0.0.1", lit "9002")] }, .idle, .top⟩

lemma init_twoCaches : Init twoCaches :=
  ⟨_, _, _, _, _, _, by decide, rfl⟩

instance decidableAwake (n : Node) : (e : Event) → Decidable (n.Awake e)
  | .callback => match h : n.pass with
    | .listening p => decidable_of_iff
        (n.callback = .updated → n.cache.dyingCacheIP = n.cache.localCacheIP →
          ¬ n.cache.dyingCachePort = n.cache.portForCache) (by simp [Awake, h])
    | .top | .testP | .testR | .testDying | .testPAgain | .enter _ | .leave _ | .migrating =>
      isTrue (by simp [Awake, h])
  | .message _ | .pass | .entry _ => isTrue trivial

theorem dying_does_not_listen_told : ∃ n,
    path (step fun _ => 0) Awake twoCaches
      [.message (lit "K#127.0.0.1#9001"), .callback, .callback, .callback] = some n ∧
    n.cache.status = lit "K" ∧ ¬ n.Listening := by
  have hrun : (path (step fun _ => 0) Awake twoCaches
      [.message (lit "K#127.0.0.1#9001"), .callback, .callback, .callback]).map
        (fun n => n.cache.status) = some (lit "K") := by
    decide +kernel
  obtain ⟨n, hn, hK⟩ := Option.map_eq_some_iff.mp hrun
  refine ⟨n, hn, hK, fun hlisten => ?_⟩
  exact (dying_does_not_listen (reach_of_path init_twoCaches hn)).1 ⟨hK, hlisten⟩

/-- The address of the cache that was shrunk first is never forgotten, so the other one waits for
entries when it is told to die itself. -/
theorem dying_listens : ∃ n, Reach Init (step fun _ => 0) (fun _ _ => True) n ∧
    n.cache.status = lit "K" ∧ n.Listening := by
  have hrun : (path (step fun _ => 0) (fun _ _ => True) twoCaches
      ([.message (lit "K#127.0.0.1#9002"), .callback, .callback, .callback] ++
        List.replicate 5 .pass ++
        [.message (lit "K#127.0.0.1#9001"), .callback, .callback, .callback])).map
      (fun n => (n.cache.status, n.pass)) = some (lit "K", .listening true) := by
    decide +kernel
  obtain ⟨n, hn, hf⟩ := Option.map_eq_some_iff.mp hrun
  rw [Prod.mk.injEq] at hf
  exact ⟨n, reach_of_path init_twoCaches hn, hf.1, true, hf.2⟩

end Node

end DistCache
