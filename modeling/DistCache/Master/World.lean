import DistCache.Lib.Transition
import DistCache.Master.Steps

/-!
The master among its threads and its kernel: the tables, the clock, the open connections and the
shrink in progress.  An event is one atomic piece of a thread; a shrink is two of them, the part
up to its broadcast and the part after its wait, so that the events of the other threads can come
in between.  Which descriptor `accept` returns, which cache is found dead and when the clock ticks
is left open.
-/

namespace DistCache

open Lib

/-- The master, the clock, the connections accepted and not closed, and the locals of the thread
that shrinks when it is in its wait. -/
structure World where
  master : Master
  timeNow : ℤ
  openFds : Finset ℤ
  shrinking : Option Shrink

/-- The atomic pieces of the threads. -/
inductive Event where
  /-- A cache connects and `accept` returns `fd`. -/
  | accept (fd : ℤ)
  /-- `start_cache` reads `msg` from `fd`. -/
  | receive (fd : ℤ) (msg : Str)
  /-- A pass of `periodicDetectCache` comes to the entry `fd`. -/
  | detect (fd : ℤ)
  /-- `'s'` is typed: `shrinkageCapacity` up to its broadcast. -/
  | shrinkBegin
  /-- `shrinkageCapacity` after its wait. -/
  | shrinkEnd
  /-- A second passes. -/
  | tick
  deriving DecidableEq

namespace World

/-- The world after a piece of a thread. -/
def after (w : World) (out : Out) : World :=
  { w with master := out.master, openFds := w.openFds \ out.closed.toFinset }

/-- An event and the messages it sends.  `none`: the event cannot happen, or the code faults.
Descriptor `0` is the standard input, which the thread that shrinks reads, so `accept` never
returns it. -/
def exec (w : World) : Event → Option (World × List (ℤ × Str))
  | .accept fd =>
    if 0 < fd ∧ fd ∉ w.openFds then
      some ({ w with master := w.master.accept fd, openFds := insert fd w.openFds }, [])
    else none
  | .receive fd msg =>
    if fd ∈ w.openFds then
      (w.master.receive w.timeNow fd msg).map fun out => (w.after out, out.sends)
    else none
  | .detect fd =>
    (w.master.periodicDetectCache w.timeNow fd).map fun out => (w.after out, out.sends)
  | .shrinkBegin =>
    if w.shrinking = none then
      w.master.shrinkBegin.map fun r => ({ w.after r.1 with shrinking := some r.2 }, r.1.sends)
    else none
  | .shrinkEnd => do
    let sh ← w.shrinking
    if w.master.heartBeatDetect w.timeNow sh.fd = some false then
      (w.master.shrinkEnd sh.fd).map fun out => ({ w.after out with shrinking := none }, out.sends)
    else none
  | .tick => some ({ w with timeNow := w.timeNow + 1 }, [])

/-- The world after an event. -/
def step (w : World) (e : Event) : Option World := (w.exec e).map Prod.fst

/-- The world when `Master::Start` has run, at the time `t₀`. -/
def start (t₀ : ℤ) : World := ⟨Master.start, t₀, ∅, none⟩

/-- The initial worlds. -/
def Init (w : World) : Prop := ∃ t₀, w = start t₀

/-- Nothing comes between the two halves of a shrink but time. -/
def Atomic (w : World) (e : Event) : Prop := w.shrinking = none ∨ e = .tick ∨ e = .shrinkEnd

instance decidableAtomic (w : World) (e : Event) : Decidable (Atomic w e) := by
  unfold Atomic; infer_instance

end World

/-- The message `msg` on `fd` is a first heartbeat in the role `role`. -/
def Master.Joins (m : Master) (fd : ℤ) (msg role : Str) : Prop :=
  msg.head? = some 120 ∧ (m.cachesList.lookup fd).map FdMap.ipPort = some noAddr ∧
    (splitSharp msg)[4]? = some role

instance (m : Master) (fd : ℤ) (msg role : Str) : Decidable (m.Joins fd msg role) := by
  unfold Master.Joins; infer_instance

lemma Master.First.joins {m : Master} {fd : ℤ} {msg role : Str} {e : FdMap}
    (hx : msg.head? = some 120) (hf : m.First fd msg role e) : m.Joins fd msg role := by
  obtain ⟨hit, hnew, -, -, -, hrole, -⟩ := hf
  exact ⟨hx, by rw [hit, Option.map_some, hnew], hrole⟩

/-! ### The events, one by one -/

namespace World

variable {w w' : World} {fd : ℤ} {msg : Str}

lemma step_accept (h : w.step (.accept fd) = some w') : 0 < fd ∧ fd ∉ w.openFds ∧
    w' = { w with master := w.master.accept fd, openFds := insert fd w.openFds } := by
  obtain ⟨r, hr, rfl⟩ := Option.map_eq_some_iff.mp h
  simp only [exec] at hr
  split_ifs at hr with hfd
  cases hr
  exact ⟨hfd.1, hfd.2, rfl⟩

lemma step_receive (h : w.step (.receive fd msg) = some w') : fd ∈ w.openFds ∧
    (msg.head? ≠ some 120 ∧ w' = w ∨ msg.head? = some 120 ∧ ∃ m am, w.master.Heard fd msg am m ∧
      w' = { w with master := m }) := by
  obtain ⟨r, hr, rfl⟩ := Option.map_eq_some_iff.mp h
  simp only [exec] at hr
  split_ifs at hr with hfd
  obtain ⟨out, hout, rfl⟩ := Option.map_eq_some_iff.mp hr
  refine ⟨hfd, ?_⟩
  unfold Master.receive at hout
  split_ifs at hout with hx
  · obtain ⟨am, hheard⟩ := Master.heard_of_heartbeat hout
    exact .inr ⟨hx, out.master, am, hheard, by simp [after, Master.heartbeat_closed hout]⟩
  · cases hout
    exact .inl ⟨hx, by simp [after]⟩

lemma step_shrinkBegin (h : w.step .shrinkBegin = some w') : w.shrinking = none ∧
    ∃ sh e, w.master.fdNode.getLast? = some sh.fd ∧
      w.master.cachesList.lookup sh.fd = some e ∧ sh.cacheServerAddr = e.ipCache ∧
      w' = { w with
        master := { w.master with
          cacheAddrHash := w.master.cacheAddrHash.deleteNode (w.master.fdNode.length - 1) }
        shrinking := some sh } := by
  obtain ⟨r, hr, rfl⟩ := Option.map_eq_some_iff.mp h
  simp only [exec] at hr
  split_ifs at hr with hidle
  obtain ⟨⟨out, sh⟩, hout, rfl⟩ := Option.map_eq_some_iff.mp hr
  obtain ⟨hlast, e, he, haddr, rfl⟩ := Master.shrinkBegin_cases hout
  exact ⟨hidle, sh, e, hlast, he, haddr, by simp [after]⟩

lemma step_shrinkEnd (h : w.step .shrinkEnd = some w') :
    ∃ sh out, w.shrinking = some sh ∧ w.master.heartBeatDetect w.timeNow sh.fd = some false ∧
      w.master.shrinkEnd sh.fd = some out ∧ w' = { w.after out with shrinking := none } := by
  obtain ⟨r, hr, rfl⟩ := Option.map_eq_some_iff.mp h
  simp only [exec, Option.bind_eq_bind, Option.bind_eq_some_iff] at hr
  obtain ⟨sh, hsh, hr⟩ := hr
  split_ifs at hr with hdead
  obtain ⟨out, hout, rfl⟩ := Option.map_eq_some_iff.mp hr
  exact ⟨sh, out, hsh, hdead, hout, rfl⟩

end World

/-! ### Every record is under its own descriptor, which is open -/

/-- Every record is kept under its own descriptor, which is one of `fds`. -/
def KeyedIn (fds : Finset ℤ) (l : Map ℤ FdMap) : Prop :=
  ∀ a e, l.lookup a = some e → e.fd = a ∧ 0 < a ∧ a ∈ fds

namespace KeyedIn

variable {fds : Finset ℤ} {l : Map ℤ FdMap} {a fd top : ℤ} {e te : FdMap} {closed : List ℤ}

lemma insert (h : KeyedIn fds l) (he : e.fd = a) (hpos : 0 < a) (ha : a ∈ fds) :
    KeyedIn fds (l.insert a e) := by
  intro b f hf
  rw [lookup_insert_ite] at hf
  split_ifs at hf with hb
  · cases hf
    subst hb
    exact ⟨he, hpos, ha⟩
  · exact h b f hf

lemma insert_lookup {f : FdMap} (h : KeyedIn fds l) (hl : l.lookup a = some f) (he : e.fd = f.fd) :
    KeyedIn fds (l.insert a e) :=
  h.insert (he.trans (h a f hl).1) (h a f hl).2.1 (h a f hl).2.2

/-- Records that go may close their connections. -/
lemma erase (h : KeyedIn fds l) (a : ℤ) (hc : ∀ b ∈ closed, b = a) :
    KeyedIn (fds \ closed.toFinset) (l.erase a) := by
  intro b f hf
  rw [lookup_erase_ite] at hf
  split_ifs at hf with hb
  obtain ⟨hfd, hpos, hmem⟩ := h b f hf
  refine ⟨hfd, hpos, Finset.mem_sdiff.mpr ⟨hmem, fun hclosed => ?_⟩⟩
  exact hb (hc b (List.mem_toFinset.mp hclosed))

lemma paired (h : KeyedIn fds l) {f : FdMap} (hl : l.lookup fd = some f) (he : e.fd = f.fd)
    (hte : (l.insert fd { e with pairFd := top }).lookup top = some te) :
    KeyedIn fds (Master.paired l fd top e te) := by
  have h' : KeyedIn fds (l.insert fd { e with pairFd := top }) := h.insert_lookup hl he
  exact h'.insert_lookup hte rfl

end KeyedIn

lemma Master.First.lookup {m : Master} {fd : ℤ} {msg role : Str} {e : FdMap}
    (hf : m.First fd msg role e) :
    ∃ it, m.cachesList.lookup fd = some it ∧ it.ipPort = noAddr ∧ e.fd = it.fd ∧
      e.pairFd = it.pairFd := by
  obtain ⟨hit, hnew, -⟩ := hf
  exact ⟨_, hit, hnew, rfl, rfl⟩

lemma KeyedIn.heard {fds : Finset ℤ} {m m' : Master} {fd : ℤ} {msg : Str} {am : Map Str ℤ}
    (h : KeyedIn fds m.cachesList) (hh : m.Heard fd msg am m') : KeyedIn fds m'.cachesList := by
  cases hh with
  | again => exact h
  | primary hf | replica hf | other hf =>
    obtain ⟨it, hit, -, hfd, -⟩ := hf.lookup
    exact h.insert_lookup hit hfd
  | primaryPaired hf _ hte | replicaPaired hf _ hte =>
    obtain ⟨it, hit, -, hfd, -⟩ := hf.lookup
    exact h.paired hit hfd hte

/-- A death closes the connection of the record it erases, and no other. -/
lemma KeyedIn.dead {fds : Finset ℤ} {m : Master} {fd : ℤ} {out : Out}
    (h : KeyedIn fds m.cachesList) (hd : m.Dead fd out) :
    KeyedIn (fds \ out.closed.toFinset) (out.master.cachesList.erase fd) := by
  cases hd with
  | @replica e b _ _ hb =>
    have h' : KeyedIn fds (m.cachesList.insert e.pairFd { b with pairFd := -1 }) :=
      h.insert_lookup hb rfl
    exact h'.erase fd (by simp)
  | @paired e b _ _ _ _ _ _ hb =>
    have h' : KeyedIn fds
        (m.cachesList.insert e.pairFd { b with status := statusP, pairFd := -1 }) :=
      h.insert_lookup hb rfl
    exact h'.erase fd (by simp)
  | alone => exact h.erase fd (by simp)
  | stray => exact h.erase fd (by simp)
  | other => exact h.erase fd (by simp)

lemma KeyedIn.shrinkEnd {fds : Finset ℤ} {m : Master} {fd : ℤ} {out : Out}
    (h : KeyedIn fds m.cachesList) (hs : m.shrinkEnd fd = some out) :
    KeyedIn (fds \ out.closed.toFinset) out.master.cachesList := by
  obtain ⟨-, e, he, ⟨-, -, rfl⟩ | ⟨-, rfl⟩⟩ := Master.shrinkEnd_cases hs
  · have h₁ : KeyedIn (fds \ [e.pairFd].toFinset) (m.cachesList.erase e.pairFd) :=
      h.erase e.pairFd (by simp)
    have h₂ : KeyedIn ((fds \ [e.pairFd].toFinset) \ [fd].toFinset)
        ((m.cachesList.erase e.pairFd).erase fd) := h₁.erase fd (by simp)
    intro a f hf
    obtain ⟨hfd, hpos, hmem⟩ := h₂ a f hf
    refine ⟨hfd, hpos, ?_⟩
    simp only [Finset.mem_sdiff, List.mem_toFinset, List.mem_cons, List.not_mem_nil, or_false,
      not_or] at hmem ⊢
    exact ⟨hmem.1.1, hmem.1.2, hmem.2⟩
  · exact h.erase fd (by simp)

namespace World

variable {w w' : World} {fd : ℤ} {e : Event} {ok : World → Event → Prop}

/-- Every record of the master is under its own descriptor, whose connection is open. -/
def Keyed (w : World) : Prop := KeyedIn w.openFds w.master.cachesList

lemma step_detect (hk : w.Keyed) (h : w.step (.detect fd) = some w') :
    (w.master.heartBeatDetect w.timeNow fd = some true ∧ w' = w) ∨
      w.master.heartBeatDetect w.timeNow fd = some false ∧ ∃ out, w.master.Dead fd out ∧ w' = { w with
        master := { out.master with cachesList := out.master.cachesList.erase fd }
        openFds := w.openFds \ out.closed.toFinset } := by
  obtain ⟨r, hr, rfl⟩ := Option.map_eq_some_iff.mp h
  simp only [exec] at hr
  obtain ⟨out, hout, rfl⟩ := Option.map_eq_some_iff.mp hr
  rcases Master.detect_cases (fun a e he => ⟨(hk a e he).1, (hk a e he).2.1⟩) hout with
    ⟨halive, rfl⟩ | ⟨hdead, o, ho, rfl⟩
  · exact .inl ⟨halive, by simp [after]⟩
  · exact .inr ⟨hdead, o, ho, rfl⟩

lemma Keyed.step (hk : w.Keyed) (h : w.step e = some w') : w'.Keyed := by
  cases e with
  | accept fd =>
    obtain ⟨hpos, -, rfl⟩ := step_accept h
    intro a f hf
    simp only [Master.accept, lookup_insert_ite] at hf
    split_ifs at hf with ha
    · cases hf
      exact ⟨ha.symm, ha ▸ hpos, Finset.mem_insert.mpr (.inl ha)⟩
    · obtain ⟨hfd, hpos', hmem⟩ := hk a f hf
      exact ⟨hfd, hpos', Finset.mem_insert_of_mem hmem⟩
  | receive fd msg =>
    obtain ⟨-, ⟨-, rfl⟩ | ⟨-, m, am, hh, rfl⟩⟩ := step_receive h
    · exact hk
    · exact KeyedIn.heard hk hh
  | detect fd =>
    rcases step_detect hk h with ⟨-, rfl⟩ | ⟨-, out, hd, rfl⟩
    · exact hk
    · exact KeyedIn.dead hk hd
  | shrinkBegin =>
    obtain ⟨-, sh, e, -, -, -, rfl⟩ := step_shrinkBegin h
    exact hk
  | shrinkEnd =>
    obtain ⟨sh, out, -, -, hs, rfl⟩ := step_shrinkEnd h
    exact KeyedIn.shrinkEnd hk hs
  | tick =>
    cases h
    exact hk

theorem keyed_of_reach (h : Reach Init step ok w) : w.Keyed := by
  refine h.invariant (I := Keyed) ?_ fun _ _ _ _ hk _ hs => hk.step hs
  rintro _ ⟨t₀, rfl⟩ a f hf
  simp [start, Master.start] at hf

end World

end DistCache
