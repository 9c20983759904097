import DistCache.Master.Waiting

/-!
Primaries without a backup, and backups without a primary.

Every cache without a partner is on the stack of its role, so a cache that joins is paired whenever it can
be.  A cache that loses its partner is put on `pcache`, and nobody looks whether a backup waits on `rcache`
by then.  So there are never an idle primary and an idle backup at once exactly as long as no backup
waits when a pair is broken up (`idle_iff`).
-/

namespace DistCache

open Lib

variable {l : Map ℤ FdMap} {a b fd top : ℤ} {s : UInt8} {e te : FdMap}

/-! ### Idle caches and changes of the records -/

lemma isWaiting_insert :
    IsWaiting (l.insert a e) s b ↔
      b = a ∧ e.status = s ∧ e.pairFd = -1 ∨ b ≠ a ∧ IsWaiting l s b := by
  unfold IsWaiting
  rw [lookup_insert_ite]
  by_cases hb : b = a
  · simp [hb]
  · simp [hb]

/-- A record with another status. -/
lemma isWaiting_insert_of_ne (h : e.status ≠ s) :
    IsWaiting (l.insert a e) s b ↔ b ≠ a ∧ IsWaiting l s b := by
  rw [isWaiting_insert]
  exact or_iff_right fun hb => h hb.2.1

lemma isWaiting_erase : IsWaiting (l.erase a) s b ↔ b ≠ a ∧ IsWaiting l s b := by
  unfold IsWaiting
  rw [lookup_erase_ite]
  by_cases hb : b = a
  · simp [hb]
  · simp [hb]

/-- Of a pair neither is idle. -/
lemma isWaiting_paired (hfd : fd ≠ -1) (htop : top ≠ -1) :
    IsWaiting (Master.paired l fd top e te) s b ↔ b ≠ fd ∧ b ≠ top ∧ IsWaiting l s b := by
  unfold Master.paired
  rw [isWaiting_insert, isWaiting_insert]
  dsimp only
  tauto

/-- Every idle cache is on the stack of its role. -/
structure OnStacks (l : Map ℤ FdMap) (pcache rcache : List ℤ) : Prop where
  primaries : ∀ a, IsWaiting l statusP a → a ∈ pcache
  backups : ∀ a, IsWaiting l statusR a → a ∈ rcache

/-- There are not an idle primary and an idle backup at once. -/
def NoneIdle (l : Map ℤ FdMap) : Prop := ∀ a b, IsWaiting l statusP a → ¬ IsWaiting l statusR b

lemma NoneIdle.of_subset {l' : Map ℤ FdMap} (h : NoneIdle l)
    (hsub : ∀ a s, IsWaiting l' s a → IsWaiting l s a) : NoneIdle l' :=
  fun a b ha hb => h a b (hsub a _ ha) (hsub b _ hb)

/-! ### The steps of the master -/

namespace Master

variable {m m' : Master} {msg r : Str} {am : Map Str ℤ} {fds : Finset ℤ} {out : Out}

/-- `fd` and a partner that is found under its descriptor are no `-1`. -/
lemma First.ne_neg (hk : KeyedIn fds m.cachesList) (hf : m.First fd msg r e)
    (hte : (m.cachesList.insert fd { e with pairFd := top }).lookup top = some te) :
    fd ≠ -1 ∧ top ≠ -1 := by
  obtain ⟨it, hit, -⟩ := hf.lookup
  have hpos := (hk fd it hit).2.1
  refine ⟨by omega, ?_⟩
  rw [lookup_insert_ite] at hte
  split_ifs at hte with htop
  · omega
  · have := (hk top te hte).2.1
    omega

/-- A first heartbeat in one of the two roles. -/
def RoleKnown (m : Master) (fd : ℤ) (msg : Str) : Prop :=
  ∀ r ∈ (splitSharp msg)[4]?, m.Joins fd msg r → r = lit "P" ∨ r = lit "R"

instance decidableRoleKnown (m : Master) (fd : ℤ) (msg : Str) : Decidable (m.RoleKnown fd msg) := by
  unfold RoleKnown; infer_instance

lemma First.roleKnown (hx : msg.head? = some 120) (hf : m.First fd msg r e)
    (hrole : m.RoleKnown fd msg) : r = lit "P" ∨ r = lit "R" :=
  hrole r (hf.joins hx).2.2 (hf.joins hx)

/-- A heartbeat keeps the idle caches on the stacks, and pairs the one that joins if it can. -/
lemma onStacks_heard (hk : KeyedIn fds m.cachesList) (hx : msg.head? = some 120)
    (hrole : m.RoleKnown fd msg) (hs : OnStacks m.cachesList m.pcache m.rcache)
    (hn : NoneIdle m.cachesList) (hh : m.Heard fd msg am m') :
    OnStacks m'.cachesList m'.pcache m'.rcache ∧ NoneIdle m'.cachesList := by
  have hstatus : ∀ {e : FdMap} {r : Str} {s : UInt8}, m.First fd msg r e → r.head? = some s →
      e.status = s := fun hf hr => Option.some.inj (hf.status.symm.trans hr)
  cases hh with
  | again => exact ⟨hs, hn⟩
  | @primary e hf hr =>
    have he : e.status = statusP := hstatus hf rfl
    have hnone : ∀ b, ¬ IsWaiting m.cachesList statusR b := fun b hb => by
      have hmem := hs.backups b hb
      rw [hr] at hmem
      exact absurd hmem List.not_mem_nil
    have hne : e.status ≠ statusR := he ▸ by decide
    have hnone' : ∀ b, ¬ IsWaiting (m.cachesList.insert fd e) statusR b := fun b hb =>
      hnone b ((isWaiting_insert_of_ne hne).mp hb).2
    refine ⟨⟨fun a ha => ?_, fun b hb => absurd hb (hnone' b)⟩, fun a b _ hb => hnone' b hb⟩
    rcases isWaiting_insert.mp ha with ⟨rfl, -⟩ | ⟨-, ha⟩
    · exact List.mem_cons_self
    · exact List.mem_cons_of_mem _ (hs.primaries a ha)
  | primaryPaired hf hr hte =>
    obtain ⟨hfd, htop⟩ := hf.ne_neg hk hte
    refine ⟨⟨fun a ha => ?_, fun b hb => ?_⟩, hn.of_subset fun a s ha => ?_⟩
    · exact hs.primaries a ((isWaiting_paired hfd htop).mp ha).2.2
    · obtain ⟨-, hne, hb⟩ := (isWaiting_paired hfd htop).mp hb
      have hmem := hs.backups b hb
      rw [hr, List.mem_cons] at hmem
      exact hmem.resolve_left hne
    · exact ((isWaiting_paired hfd htop).mp ha).2.2
  | @replica e hf hp =>
    have he : e.status = statusR := hstatus hf rfl
    have hnone : ∀ a, ¬ IsWaiting m.cachesList statusP a := fun a ha => by
      have hmem := hs.primaries a ha
      rw [hp] at hmem
      exact absurd hmem List.not_mem_nil
    have hne : e.status ≠ statusP := he ▸ by decide
    have hnone' : ∀ a, ¬ IsWaiting (m.cachesList.insert fd e) statusP a := fun a ha =>
      hnone a ((isWaiting_insert_of_ne hne).mp ha).2
    refine ⟨⟨fun a ha => absurd ha (hnone' a), fun b hb => ?_⟩, fun a b ha _ => hnone' a ha⟩
    rcases isWaiting_insert.mp hb with ⟨rfl, -⟩ | ⟨-, hb⟩
    · exact List.mem_cons_self
    · exact List.mem_cons_of_mem _ (hs.backups b hb)
  | replicaPaired hf hp hte =>
    obtain ⟨hfd, htop⟩ := hf.ne_neg hk hte
    refine ⟨⟨fun a ha => ?_, fun b hb => ?_⟩, hn.of_subset fun a s ha => ?_⟩
    · obtain ⟨-, hne, ha⟩ := (isWaiting_paired hfd htop).mp ha
      have hmem := hs.primaries a ha
      rw [hp, List.mem_cons] at hmem
      exact hmem.resolve_left hne
    · exact hs.backups b ((isWaiting_paired hfd htop).mp hb).2.2
    · exact ((isWaiting_paired hfd htop).mp ha).2.2
  | other hf hP hR =>
    rcases hf.roleKnown hx hrole with h | h
    · exact absurd h hP
    · exact absurd h hR

/-- A backup that dies is not paired with another backup. -/
def Mixed (m : Master) (fd : ℤ) : Prop :=
  ∀ e ∈ m.cachesList.lookup fd, ∀ b ∈ m.cachesList.lookup e.pairFd,
    e.status = statusR → b.status = statusR → e.pairFd = fd

/-- The death of `fd` breaks up a pair and leaves an idle primary. -/
def Widows (m : Master) (fd : ℤ) : Prop :=
  ∃ e ∈ m.cachesList.lookup fd, ∃ b ∈ m.cachesList.lookup e.pairFd, e.pairFd ≠ fd ∧
    (e.status = statusP ∨ e.status = statusR ∧ b.status = statusP)

/-- Beside the partner of `fd` no backup is idle. -/
def NoSpare (m : Master) (fd : ℤ) : Prop :=
  ∀ e ∈ m.cachesList.lookup fd, ∀ c ∈ m.cachesList.keys, ∀ f ∈ m.cachesList.lookup c,
    f.status = statusR → f.pairFd = -1 → c = e.pairFd

instance decidableMixed (m : Master) (fd : ℤ) : Decidable (m.Mixed fd) := by
  unfold Mixed; infer_instance

instance decidableWidows (m : Master) (fd : ℤ) : Decidable (m.Widows fd) := by
  unfold Widows; infer_instance

instance decidableNoSpare (m : Master) (fd : ℤ) : Decidable (m.NoSpare fd) := by
  unfold NoSpare; infer_instance

lemma noSpare_iff (he : m.cachesList.lookup fd = some e) :
    m.NoSpare fd ↔ ∀ c, IsWaiting m.cachesList statusR c → c = e.pairFd := by
  constructor
  · rintro h c ⟨f, hf, hstatus, hpair⟩
    exact h e he c (Finmap.mem_keys.mpr (Finmap.mem_of_lookup_eq_some hf)) f hf hstatus hpair
  · intro h e' he' c _ f hf hstatus hpair
    obtain rfl := Option.mem_unique he he'
    exact h c ⟨f, hf, hstatus, hpair⟩

lemma widows_iff {f : FdMap} (he : m.cachesList.lookup fd = some e)
    (hf : m.cachesList.lookup e.pairFd = some f) : m.Widows fd ↔
      e.pairFd ≠ fd ∧ (e.status = statusP ∨ e.status = statusR ∧ f.status = statusP) := by
  constructor
  · rintro ⟨e', he', f', hf', h⟩
    obtain rfl := Option.mem_unique he he'
    obtain rfl := Option.mem_unique hf hf'
    exact h
  · exact fun h => ⟨e, he, f, hf, h⟩

/-- Who names no registered partner leaves none. -/
lemma not_widows (hk : KeyedIn fds m.cachesList) (he : m.cachesList.lookup fd = some e)
    (hpair : ¬ 0 < e.pairFd) : ¬ m.Widows fd := by
  rintro ⟨e', he', f, hf, -⟩
  obtain rfl := Option.mem_unique he he'
  exact hpair (hk _ f hf).2.1

/-- A death keeps the idle caches on the stacks. -/
lemma onStacks_dead (hmixed : m.Mixed fd) (hs : OnStacks m.cachesList m.pcache m.rcache)
    (hd : m.Dead fd out) :
    OnStacks (out.master.cachesList.erase fd) out.master.pcache out.master.rcache := by
  have hgone : ∀ {pcache rcache : List ℤ}, OnStacks m.cachesList pcache rcache →
      OnStacks (m.cachesList.erase fd) pcache rcache := fun h =>
    ⟨fun a ha => h.primaries a (isWaiting_erase.mp ha).2,
      fun b hb => h.backups b (isWaiting_erase.mp hb).2⟩
  cases hd with
  | @replica e b he hstatus hb =>
    refine ⟨fun a ha => ?_, fun c hc => ?_⟩
    · obtain ⟨hne, ha⟩ := isWaiting_erase.mp ha
      rcases isWaiting_insert.mp ha with ⟨rfl, -⟩ | ⟨-, ha⟩
      · dsimp only
        rw [if_neg hne]
        exact List.mem_cons_self
      · exact List.mem_cons_of_mem _ (hs.primaries a ha)
    · obtain ⟨hne, hc⟩ := isWaiting_erase.mp hc
      rcases isWaiting_insert.mp hc with ⟨rfl, hR, -⟩ | ⟨-, hc⟩
      · exact absurd (hmixed e he b hb hstatus hR) hne
      · exact hs.backups c hc
  | @paired e b _ _ he hstatus hpos hne hb =>
    refine ⟨fun a ha => ?_, fun c hc => ?_⟩
    · obtain ⟨-, ha⟩ := isWaiting_erase.mp ha
      rcases isWaiting_insert.mp ha with ⟨rfl, -⟩ | ⟨-, ha⟩
      · exact List.mem_cons_self
      · exact List.mem_cons_of_mem _ (hs.primaries a ha)
    · obtain ⟨-, hc⟩ := isWaiting_erase.mp hc
      have hPR : statusP ≠ statusR := by decide
      exact hs.backups c ((isWaiting_insert_of_ne hPR).mp hc).2
  | alone => exact hgone hs
  | stray => exact hgone hs
  | other => exact hgone hs

/-- The partner of `fd` is an idle primary afterwards. -/
lemma noneIdle_widowed_iff {l : Map ℤ FdMap} {f : FdMap} (he : l.lookup fd = some e)
    (hpair : e.pairFd ≠ -1) (hne : e.pairFd ≠ fd) (hP : f.status = statusP) (hf : f.pairFd = -1) :
    NoneIdle ((l.insert e.pairFd f).erase fd) ↔ ∀ c, IsWaiting l statusR c → c = e.pairFd := by
  have hPR : f.status ≠ statusR := hP ▸ by decide
  have hnew : IsWaiting ((l.insert e.pairFd f).erase fd) statusP e.pairFd :=
    isWaiting_erase.mpr ⟨hne, isWaiting_insert.mpr (.inl ⟨rfl, hP, hf⟩)⟩
  constructor
  · intro hafter c hc
    by_contra hce
    refine hafter _ c hnew (isWaiting_erase.mpr ⟨?_, (isWaiting_insert_of_ne hPR).mpr ⟨hce, hc⟩⟩)
    rintro rfl
    obtain ⟨e', he', -, hidle⟩ := hc
    obtain rfl := Option.mem_unique he he'
    exact hpair hidle
  · intro hspare a c _ hc
    obtain ⟨hce, hc⟩ := (isWaiting_insert_of_ne hPR).mp (isWaiting_erase.mp hc).2
    exact hce (hspare c hc)

/-- After the death of `fd` no primary and backup are idle at once exactly when the death leaves no idle
primary or finds no backup to spare. -/
lemma noneIdle_dead_iff (hk : KeyedIn fds m.cachesList) (hmixed : m.Mixed fd)
    (hn : NoneIdle m.cachesList) (hd : m.Dead fd out) :
    NoneIdle (out.master.cachesList.erase fd) ↔ (m.Widows fd → m.NoSpare fd) := by
  have hgone : NoneIdle (m.cachesList.erase fd) :=
    hn.of_subset fun a s ha => (isWaiting_erase.mp ha).2
  cases hd with
  | @replica e b he hstatus hb =>
    rw [noSpare_iff he, widows_iff he hb]
    have hbpos := (hk _ b hb).2.1
    by_cases hw : e.pairFd ≠ fd ∧ b.status = statusP
    · rw [imp_iff_right ⟨hw.1, .inr ⟨hstatus, hw.2⟩⟩]
      exact noneIdle_widowed_iff he (by omega) hw.1 hw.2 rfl
    · -- the partner is no primary or goes too, so who is idle afterwards was idle before
      refine iff_of_true (fun a c ha hc => ?_) ?_
      · obtain ⟨hane, ha⟩ := isWaiting_erase.mp ha
        obtain ⟨hcne, hc⟩ := isWaiting_erase.mp hc
        rcases isWaiting_insert.mp ha with ⟨rfl, hP, -⟩ | ⟨-, ha⟩
        · exact hw ⟨hane, hP⟩
        · rcases isWaiting_insert.mp hc with ⟨rfl, hR, -⟩ | ⟨-, hc⟩
          · exact hcne (hmixed e he b hb hstatus hR)
          · exact hn a c ha hc
      · rintro ⟨hne, hP | ⟨-, hP⟩⟩
        · rw [hstatus] at hP
          exact absurd hP (by decide)
        · exact absurd ⟨hne, hP⟩ hw
  | @paired e b _ _ he hstatus hpos hne hb =>
    rw [noSpare_iff he, widows_iff he hb, imp_iff_right ⟨hne, .inl hstatus⟩]
    exact noneIdle_widowed_iff he (by omega) hne rfl rfl
  | alone he _ hpair | stray he _ hpair =>
    exact iff_of_true hgone fun hw => absurd hw (not_widows hk he hpair)
  | @other e he hP hR =>
    refine iff_of_true hgone ?_
    rintro ⟨e', he', f, hf, -, hs⟩
    obtain rfl := Option.mem_unique he he'
    rcases hs with hs | ⟨hs, -⟩
    · exact absurd hs hP
    · exact absurd hs hR

end Master

/-! ### Runs -/

namespace World

variable {w w' : World} {e : Event}

/-- Primaries and backups join and die; nothing is shrunk. -/
def JoinOrDeath (w : World) : Event → Prop
  | .receive fd msg => w.master.RoleKnown fd msg
  | .shrinkBegin | .shrinkEnd => False
  | .accept _ | .detect _ | .tick => True

instance decidableJoinOrDeath (w : World) : (e : Event) → Decidable (w.JoinOrDeath e)
  | .receive fd msg => inferInstanceAs (Decidable (w.master.RoleKnown fd msg))
  | .shrinkBegin | .shrinkEnd => isFalse id
  | .accept _ | .detect _ | .tick => isTrue trivial

/-- A backup that dies is not paired with another backup. -/
def Mixed (w : World) : Event → Prop
  | .detect fd => w.master.heartBeatDetect w.timeNow fd = some false → w.master.Mixed fd
  | _ => True

instance decidableMixed (w : World) : (e : Event) → Decidable (w.Mixed e)
  | .detect fd => inferInstanceAs
    (Decidable (w.master.heartBeatDetect w.timeNow fd = some false → w.master.Mixed fd))
  | .accept _ | .receive _ _ | .shrinkBegin | .shrinkEnd | .tick => isTrue trivial

/-- When a death breaks up a pair and leaves an idle primary, no other backup is idle. -/
def NoSpare (w : World) : Event → Prop
  | .detect fd => w.master.heartBeatDetect w.timeNow fd = some false → w.master.Widows fd →
      w.master.NoSpare fd
  | _ => True

instance decidableNoSpare (w : World) : (e : Event) → Decidable (w.NoSpare e)
  | .detect fd => inferInstanceAs
    (Decidable (w.master.heartBeatDetect w.timeNow fd = some false → w.master.Widows fd →
      w.master.NoSpare fd))
  | .accept _ | .receive _ _ | .shrinkBegin | .shrinkEnd | .tick => isTrue trivial

/-- The idle caches are on the stacks, and never of both roles. -/
def IdleInv (w : World) : Prop :=
  OnStacks w.master.cachesList w.master.pcache w.master.rcache ∧ NoneIdle w.master.cachesList

lemma idleInv_step (hk : w.Keyed) (hi : w.IdleInv) (hj : w.JoinOrDeath e) (hmixed : w.Mixed e)
    (h : w.step e = some w') :
    OnStacks w'.master.cachesList w'.master.pcache w'.master.rcache ∧
      (NoneIdle w'.master.cachesList ↔ w.NoSpare e) := by
  obtain ⟨hs, hn⟩ := hi
  cases e with
  | accept fd =>
    obtain ⟨-, -, rfl⟩ := step_accept h
    have hold : ∀ a s, s ≠ 110 → IsWaiting (w.master.accept fd).cachesList s a →
        IsWaiting w.master.cachesList s a := by
      intro a s hs110 ha
      rcases isWaiting_insert.mp ha with ⟨-, hs', -⟩ | ⟨-, ha⟩
      · exact absurd hs'.symm hs110
      · exact ha
    refine ⟨⟨fun a ha => hs.primaries a (hold a _ (by decide) ha),
      fun b hb => hs.backups b (hold b _ (by decide) hb)⟩, iff_of_true ?_ trivial⟩
    exact fun a b ha hb => hn a b (hold a _ (by decide) ha) (hold b _ (by decide) hb)
  | receive fd msg =>
    obtain ⟨-, ⟨-, rfl⟩ | ⟨hx, m, am, hh, rfl⟩⟩ := step_receive h
    · exact ⟨hs, iff_of_true hn trivial⟩
    · obtain ⟨hs', hn'⟩ := Master.onStacks_heard hk hx hj hs hn hh
      exact ⟨hs', iff_of_true hn' trivial⟩
  | detect fd =>
    rcases step_detect hk h with ⟨halive, rfl⟩ | ⟨hdead, out, hd, rfl⟩
    · refine ⟨hs, iff_of_true hn fun hdead => ?_⟩
      rw [halive] at hdead
      cases hdead
    · refine ⟨Master.onStacks_dead (hmixed hdead) hs hd, ?_⟩
      rw [Master.noneIdle_dead_iff hk (hmixed hdead) hn hd]
      exact ⟨fun h _ => h, fun h => h hdead⟩
  | shrinkBegin => exact hj.elim
  | shrinkEnd => exact hj.elim
  | tick =>
    cases h
    exact ⟨hs, iff_of_true hn trivial⟩

lemma idleInv_of_reach
    (h : Reach Init step (fun w e => JoinOrDeath w e ∧ Mixed w e ∧ NoSpare w e) w) : w.IdleInv := by
  refine h.invariant (I := IdleInv) ?_ fun w e w' hr hi hok hstep => ?_
  · rintro _ ⟨t₀, rfl⟩
    have hempty : ∀ a s, ¬ IsWaiting (start t₀).master.cachesList s a := by
      rintro a s ⟨e, he, -⟩
      simp [start, Master.start] at he
    exact ⟨⟨fun a ha => absurd ha (hempty a _), fun b hb => absurd hb (hempty b _)⟩,
      fun a b ha => absurd ha (hempty a _)⟩
  · obtain ⟨hs, hiff⟩ := idleInv_step (keyed_of_reach hr) hi hok.1 hok.2.1 hstep
    exact ⟨hs, hiff.mpr hok.2.2⟩

/-- **Idle caches.**  While no backup waits when a pair is broken up, there are never a primary without a
backup and a backup without a primary at once; and the first pair that is broken up with a backup to
spare ends it. -/
theorem idle_iff (h : Reach Init step (fun w e => JoinOrDeath w e ∧ Mixed w e ∧ NoSpare w e) w) :
    (∀ a b, IsWaiting w.master.cachesList statusP a → ¬ IsWaiting w.master.cachesList statusR b) ∧
      ∀ ev w', w.JoinOrDeath ev → w.Mixed ev → w.step ev = some w' →
        (w.NoSpare ev ↔ ∀ a b, IsWaiting w'.master.cachesList statusP a →
          ¬ IsWaiting w'.master.cachesList statusR b) := by
  have hi := idleInv_of_reach h
  refine ⟨hi.2, fun ev w' hj hmixed hstep => ?_⟩
  exact (idleInv_step (keyed_of_reach h) hi hj hmixed hstep).2.symm

/-- A primary dies and its backup is left, with no other. -/
theorem idle_iff_failover : ∃ w,
    path step (fun w e => JoinOrDeath w e ∧ Mixed w e ∧ NoSpare w e) (start 1638316800)
      (joinPair ++ fiveSeconds ++ [.detect 5]) = some w ∧
    IsWaiting w.master.cachesList statusP 6 ∧ ∀ b, ¬ IsWaiting w.master.cachesList statusR b := by
  have hrun : (path step (fun w e => JoinOrDeath w e ∧ Mixed w e ∧ NoSpare w e) (start 1638316800)
      (joinPair ++ fiveSeconds ++ [.detect 5])).bind
        (fun w => (w.master.cachesList.lookup 6).map fun e => (e.status, e.pairFd)) =
      some (statusP, -1) := by
    decide +kernel
  obtain ⟨w, hw, hf⟩ := Option.bind_eq_some_iff.mp hrun
  obtain ⟨e, he, hpair⟩ := Option.map_eq_some_iff.mp hf
  rw [Prod.mk.injEq] at hpair
  have hidle : IsWaiting w.master.cachesList statusP 6 := ⟨e, he, hpair⟩
  exact ⟨w, hw, hidle, fun b => (idle_iff (reach_of_path ⟨_, rfl⟩ hw)).1 6 b hidle⟩

/-- A primary has a backup, and another backup waits.  The backup dies, and the primary is not given the
other one. -/
theorem idle_both : ∃ w, Reach Init step JoinOrDeath w ∧ IsWaiting w.master.cachesList statusP 5 ∧
    IsWaiting w.master.cachesList statusR 7 := by
  have hrun : (path step JoinOrDeath (start 1638316800) (joinPair ++
      [.accept 7, .receive 7 (lit "x#127.0.0.1#8003#9003#R")] ++ fiveSeconds ++
      [.receive 5 (lit "x#127.0.0.1#8001#9001#P"), .receive 7 (lit "x#127.0.0.1#8003#9003#R"),
        .detect 6])).bind
        (fun w => (w.master.cachesList.lookup 5).bind fun e =>
          (w.master.cachesList.lookup 7).map fun f => (e.status, e.pairFd, f.status, f.pairFd)) =
      some (statusP, -1, statusR, -1) := by
    decide +kernel
  obtain ⟨w, hw, hf⟩ := Option.bind_eq_some_iff.mp hrun
  obtain ⟨e, he, hf⟩ := Option.bind_eq_some_iff.mp hf
  obtain ⟨f, hf, hpair⟩ := Option.map_eq_some_iff.mp hf
  simp only [Prod.mk.injEq] at hpair
  exact ⟨w, reach_of_path ⟨_, rfl⟩ hw, ⟨e, he, hpair.1, hpair.2.1⟩, ⟨f, hf, hpair.2.2⟩⟩

end World

end DistCache
