import DistCache.Master.Pairing

/-!
The stacks of caches that wait for a partner.

A cache is pushed when it joins, or loses its partner, and nobody waits for it; it is popped when it
is paired.  Nothing takes it off when it goes away.  A backup that waits cannot go away (its death
brings the master down), but a primary can: it dies, or it is shrunk.  When that does not happen
(`Kept`), the stacks hold different registered connections, primaries on one and backups on the
other, all of them unpaired.
-/

namespace DistCache

open Lib

/-- `a` has a record with status `s` and no partner. -/
def IsWaiting (l : Map ℤ FdMap) (s : UInt8) (a : ℤ) : Prop :=
  ∃ e, l.lookup a = some e ∧ e.status = s ∧ e.pairFd = -1

/-- The stacks hold different connections that wait: primaries on `pcache`, backups on `rcache`. -/
structure Waiting (l : Map ℤ FdMap) (pcache rcache : List ℤ) : Prop where
  primaries : ∀ a ∈ pcache, IsWaiting l statusP a
  backups : ∀ a ∈ rcache, IsWaiting l statusR a
  nodup : (pcache ++ rcache).Nodup

namespace Waiting

variable {l : Map ℤ FdMap} {pcache rcache : List ℤ} {a : ℤ} {e : FdMap}

/-! ### What is on no stack -/

lemma not_mem_of_pairFd (hw : Waiting l pcache rcache) (he : l.lookup a = some e)
    (hpair : e.pairFd ≠ -1) : a ∉ pcache ∧ a ∉ rcache := by
  constructor <;> intro ha
  · obtain ⟨e', he', -, hpair'⟩ := hw.primaries a ha
    exact hpair (Option.some.inj (he.symm.trans he') ▸ hpair')
  · obtain ⟨e', he', -, hpair'⟩ := hw.backups a ha
    exact hpair (Option.some.inj (he.symm.trans he') ▸ hpair')

lemma not_mem_pcache (hw : Waiting l pcache rcache) (he : l.lookup a = some e)
    (hs : e.status ≠ statusP) : a ∉ pcache := by
  intro ha
  obtain ⟨e', he', hs', -⟩ := hw.primaries a ha
  exact hs (Option.some.inj (he.symm.trans he') ▸ hs')

lemma not_mem_rcache (hw : Waiting l pcache rcache) (he : l.lookup a = some e)
    (hs : e.status ≠ statusR) : a ∉ rcache := by
  intro ha
  obtain ⟨e', he', hs', -⟩ := hw.backups a ha
  exact hs (Option.some.inj (he.symm.trans he') ▸ hs')

lemma not_mem_of_none (hw : Waiting l pcache rcache) (ha : l.lookup a = none) :
    a ∉ pcache ∧ a ∉ rcache := by
  constructor <;> intro hmem
  · obtain ⟨e, he, -⟩ := hw.primaries a hmem
    rw [ha] at he
    cases he
  · obtain ⟨e, he, -⟩ := hw.backups a hmem
    rw [ha] at he
    cases he

/-! ### Records that change, pushes and pops -/

lemma of_lookup {l' : Map ℤ FdMap} (hw : Waiting l pcache rcache)
    (h : ∀ b, b ≠ a → l'.lookup b = l.lookup b) (hp : a ∉ pcache) (hr : a ∉ rcache) :
    Waiting l' pcache rcache where
  primaries b hb := by
    obtain ⟨e, he, hs⟩ := hw.primaries b hb
    exact ⟨e, (h b (ne_of_mem_of_not_mem hb hp)).trans he, hs⟩
  backups b hb := by
    obtain ⟨e, he, hs⟩ := hw.backups b hb
    exact ⟨e, (h b (ne_of_mem_of_not_mem hb hr)).trans he, hs⟩
  nodup := hw.nodup

lemma insert (hw : Waiting l pcache rcache) (ha : a ∉ pcache ∧ a ∉ rcache) :
    Waiting (l.insert a e) pcache rcache :=
  hw.of_lookup (fun _ hb => by rw [lookup_insert_ite, if_neg hb]) ha.1 ha.2

lemma erase (hw : Waiting l pcache rcache) (ha : a ∉ pcache ∧ a ∉ rcache) :
    Waiting (l.erase a) pcache rcache :=
  hw.of_lookup (fun _ hb => by rw [lookup_erase_ite, if_neg hb]) ha.1 ha.2

lemma pushPrimary (hw : Waiting l pcache rcache) (ha : a ∉ pcache ∧ a ∉ rcache)
    (hwait : IsWaiting l statusP a) : Waiting l (a :: pcache) rcache where
  primaries b hb := by
    rcases List.mem_cons.mp hb with rfl | hb
    · exact hwait
    · exact hw.primaries b hb
  backups := hw.backups
  nodup := by
    rw [List.cons_append, List.nodup_cons, List.mem_append, not_or]
    exact ⟨ha, hw.nodup⟩

lemma pushBackup (hw : Waiting l pcache rcache) (ha : a ∉ pcache ∧ a ∉ rcache)
    (hwait : IsWaiting l statusR a) : Waiting l pcache (a :: rcache) where
  primaries := hw.primaries
  backups b hb := by
    rcases List.mem_cons.mp hb with rfl | hb
    · exact hwait
    · exact hw.backups b hb
  nodup := by
    rw [List.nodup_middle, List.nodup_cons, List.mem_append, not_or]
    exact ⟨ha, hw.nodup⟩

lemma popPrimary (hw : Waiting l (a :: pcache) rcache) :
    Waiting l pcache rcache ∧ a ∉ pcache ∧ a ∉ rcache := by
  have hnodup := hw.nodup
  rw [List.cons_append, List.nodup_cons, List.mem_append, not_or] at hnodup
  exact ⟨⟨fun b hb => hw.primaries b (List.mem_cons_of_mem _ hb), hw.backups, hnodup.2⟩, hnodup.1⟩

lemma popBackup (hw : Waiting l pcache (a :: rcache)) :
    Waiting l pcache rcache ∧ a ∉ pcache ∧ a ∉ rcache := by
  have hnodup := hw.nodup
  rw [List.nodup_middle, List.nodup_cons, List.mem_append, not_or] at hnodup
  exact ⟨⟨hw.primaries, fun b hb => hw.backups b (List.mem_cons_of_mem _ hb), hnodup.2⟩, hnodup.1⟩

end Waiting

/-! ### The steps of the master -/

namespace Master

variable {m m' : Master} {fd : ℤ} {msg : Str} {am : Map Str ℤ} {fds : Finset ℤ} {e : FdMap}
  {out : Out}

/-- The stacks of the master hold different connections that wait. -/
def StacksWait (m : Master) : Prop := Waiting m.cachesList m.pcache m.rcache

/-- Stacks whose members wait are popped soundly. -/
lemma StacksWait.popsSound (hw : m.StacksWait) (hs : m.Sound) : m.PopsSound fd msg := by
  have hne : ∀ {r : Str} {s : UInt8} {top : ℤ}, m.Joins fd msg r →
      IsWaiting m.cachesList s top → s ≠ 110 → m.Waits fd top s := by
    rintro r s top ⟨-, hnew, -⟩ ⟨te, hte, hstatus, hpair⟩ hs110
    refine ⟨?_, fun te' hte' => ?_⟩
    · rintro rfl
      rw [hte, Option.map_some, Option.some.injEq] at hnew
      have htold := (hs.known top te hte).told_of_status (hstatus ▸ hs110)
      exact htold.ipPort_ne hnew
    · rw [Option.mem_def, hte, Option.some.injEq] at hte'
      subst hte'
      exact ⟨by rw [FdMap.partner, hpair]; rfl, hstatus⟩
  exact ⟨fun hj top htop => hne hj (hw.backups top (List.mem_of_mem_head? htop)) (by decide),
    fun hj top htop => hne hj (hw.primaries top (List.mem_of_mem_head? htop)) (by decide)⟩

lemma StacksWait.heard (hw : m.StacksWait) (hs : m.Sound) (hh : m.Heard fd msg am m') :
    m'.StacksWait := by
  -- the connection whose first heartbeat comes is on no stack yet
  have hfresh : ∀ {r : Str} {e : FdMap}, m.First fd msg r e →
      (fd ∉ m.pcache ∧ fd ∉ m.rcache) ∧ e.pairFd = -1 := by
    intro r e hf
    obtain ⟨hnew, hpair⟩ := hf.lookup_new hs.known
    exact ⟨⟨hw.not_mem_pcache hnew FdMap.status_new_ne,
      hw.not_mem_rcache hnew (show (110 : UInt8) ≠ 82 by decide)⟩, hpair⟩
  have hwait : ∀ {r : Str} {e : FdMap} {s : UInt8}, m.First fd msg r e → r.head? = some s →
      IsWaiting (m.cachesList.insert fd e) s fd := by
    intro r e s hf hr
    exact ⟨e, Finmap.lookup_insert _, Option.some.inj (hf.status.symm.trans hr), (hfresh hf).2⟩
  cases hh with
  | again => exact hw
  | primary hf =>
    exact (Waiting.insert hw (hfresh hf).1).pushPrimary (hfresh hf).1 (hwait hf rfl)
  | primaryPaired hf hr hte =>
    have hw' := hw
    unfold StacksWait at hw'
    rw [hr] at hw'
    obtain ⟨hw', htop⟩ := hw'.popBackup
    have hfd := (hfresh hf).1
    rw [hr, List.mem_cons, not_or] at hfd
    exact (hw'.insert ⟨hfd.1, hfd.2.2⟩).insert htop
  | replica hf =>
    exact (Waiting.insert hw (hfresh hf).1).pushBackup (hfresh hf).1 (hwait hf rfl)
  | replicaPaired hf hp hte =>
    have hw' := hw
    unfold StacksWait at hw'
    rw [hp] at hw'
    obtain ⟨hw', htop⟩ := hw'.popPrimary
    have hfd := (hfresh hf).1
    rw [hp, List.mem_cons, not_or] at hfd
    exact (hw'.insert ⟨hfd.1.2, hfd.2⟩).insert htop
  | other hf => exact Waiting.insert hw (hfresh hf).1

/-- A partner is on no stack. -/
lemma StacksWait.not_mem_partner {b : FdMap} (hw : m.StacksWait) (hs : m.Sound)
    (hk : KeyedIn fds m.cachesList) (he : m.cachesList.lookup fd = some e)
    (hb : m.cachesList.lookup e.pairFd = some b) :
    (e.pairFd ∉ m.pcache ∧ e.pairFd ∉ m.rcache) ∧ (fd ∉ m.pcache ∧ fd ∉ m.rcache) ∧
      e.pairFd ≠ fd := by
  have hpart := partner_of_lookup_pairFd hk he hb
  obtain ⟨b', hb', -, hbfd⟩ := partner_eq_some_iff.mp (hs.matched.symm hpart)
  rw [hb, Option.some.injEq] at hb'
  subst hb'
  have hfdpos := (hk fd e he).2.1
  have hbpos := (hk _ b hb).2.1
  exact ⟨Waiting.not_mem_of_pairFd hw hb (by omega), Waiting.not_mem_of_pairFd hw he (by omega),
    (hs.matched.ne hpart).symm⟩

/-- A death that takes no waiting primary. -/
lemma StacksWait.dead (hw : m.StacksWait) (hs : m.Sound) (hk : KeyedIn fds m.cachesList)
    (hkept : fd ∉ m.pcache) (hd : m.Dead fd out) :
    StacksWait { out.master with cachesList := out.master.cachesList.erase fd } := by
  cases hd with
  | @replica e b he hstatus hb =>
    obtain ⟨hbstack, hfdstack, hne⟩ := hw.not_mem_partner hs hk he hb
    have hbstatus : b.status = statusP := by
      rcases hs.status_partner hk he hb with h | h
      · rw [hstatus] at h
        exact absurd h.1 (by decide)
      · exact h.2
    have hwait : IsWaiting (m.cachesList.insert e.pairFd { b with pairFd := -1 }) statusP e.pairFd :=
      ⟨_, Finmap.lookup_insert _, hbstatus, rfl⟩
    unfold StacksWait
    dsimp only
    rw [if_neg hne]
    refine ((Waiting.insert hw hbstack).pushPrimary hbstack hwait).erase ?_
    exact ⟨by rw [List.mem_cons, not_or]; exact ⟨hne.symm, hfdstack.1⟩, hfdstack.2⟩
  | @paired e b _ _ he hstatus hpos hne hb =>
    obtain ⟨hbstack, hfdstack, -⟩ := hw.not_mem_partner hs hk he hb
    have hwait : IsWaiting
        (m.cachesList.insert e.pairFd { b with status := statusP, pairFd := -1 }) statusP e.pairFd :=
      ⟨_, Finmap.lookup_insert _, rfl, rfl⟩
    refine ((Waiting.insert hw hbstack).pushPrimary hbstack hwait).erase ?_
    exact ⟨by rw [List.mem_cons, not_or]; exact ⟨hne.symm, hfdstack.1⟩, hfdstack.2⟩
  | alone he hstatus | stray he hstatus =>
    exact Waiting.erase hw ⟨hkept, hw.not_mem_rcache he (by rw [hstatus]; decide)⟩
  | other he hP hR => exact Waiting.erase hw ⟨hkept, hw.not_mem_rcache he hR⟩

/-- A waiting primary that dies is still on `pcache`. -/
lemma StacksWait.not_dead (hw : m.StacksWait) (hmem : fd ∈ m.pcache) (hd : m.Dead fd out) :
    ¬ StacksWait { out.master with cachesList := out.master.cachesList.erase fd } := by
  obtain ⟨e₀, he₀, hstatus₀, hpair₀⟩ := hw.primaries fd hmem
  have hgone : ∀ {l : Map ℤ FdMap} {r : List ℤ}, ¬ Waiting (l.erase fd) m.pcache r := by
    intro l r h
    exact (h.not_mem_of_none (Finmap.lookup_erase fd l)).1 hmem
  cases hd with
  | replica he hstatus =>
    rw [he₀, Option.some.injEq] at he
    subst he
    rw [hstatus₀] at hstatus
    exact absurd hstatus (by decide)
  | paired he _ hpos =>
    rw [he₀, Option.some.injEq] at he
    subst he
    omega
  | alone => exact hgone
  | stray => exact hgone
  | other => exact hgone

/-- A shrink of a primary that does not wait. -/
lemma StacksWait.shrinkEnd {l : List ℤ} (hw : m.StacksWait) (hs : m.Sound)
    (hk : KeyedIn fds m.cachesList) (hl : m.fdNode = l ++ [fd]) (hkept : fd ∉ m.pcache)
    (h : m.shrinkEnd fd = some out) : out.master.StacksWait := by
  obtain ⟨-, e, he, ⟨hpos, hpair, rfl⟩ | ⟨hpair, rfl⟩⟩ := shrinkEnd_cases h
  · have hfd : partner m.cachesList fd = some e.pairFd :=
      partner_eq_some_iff.mpr ⟨e, he, hpos.le, rfl⟩
    obtain ⟨b, hb, -⟩ := partner_eq_some_iff.mp (hs.matched.symm hfd)
    obtain ⟨hbstack, hfdstack, -⟩ := hw.not_mem_partner hs hk he hb
    exact (Waiting.erase hw hbstack).erase hfdstack
  · have hstatus : e.status = statusP := by
      have hr := hs.primary fd (hl ▸ by simp)
      rwa [role_of_lookup he, Option.some.injEq] at hr
    exact Waiting.erase hw ⟨hkept, hw.not_mem_rcache he (by rw [hstatus]; decide)⟩

/-- A waiting primary that is shrunk is still on `pcache`. -/
lemma StacksWait.not_shrinkEnd (hmem : fd ∈ m.pcache) (h : m.shrinkEnd fd = some out) :
    ¬ out.master.StacksWait := by
  have hgone : ∀ {l : Map ℤ FdMap} {r : List ℤ}, ¬ Waiting (l.erase fd) m.pcache r := by
    intro l r h
    exact (h.not_mem_of_none (Finmap.lookup_erase fd l)).1 hmem
  obtain ⟨-, e, he, ⟨-, -, rfl⟩ | ⟨-, rfl⟩⟩ := shrinkEnd_cases h
  · exact hgone
  · exact hgone

end Master

/-! ### Runs -/

namespace World

variable {w w' : World} {e : Event}

/-- The primary that dies, or is shrunk, does not wait for a backup. -/
def Kept (w : World) : Event → Prop
  | .detect fd => w.master.heartBeatDetect w.timeNow fd = some false → fd ∉ w.master.pcache
  | .shrinkEnd => ∀ sh ∈ w.shrinking, sh.fd ∉ w.master.pcache
  | _ => True

instance decidableKept (w : World) : (e : Event) → Decidable (w.Kept e)
  | .detect fd => inferInstanceAs
    (Decidable (w.master.heartBeatDetect w.timeNow fd = some false → fd ∉ w.master.pcache))
  | .shrinkEnd => inferInstanceAs (Decidable (∀ sh ∈ w.shrinking, sh.fd ∉ w.master.pcache))
  | .accept _ | .receive _ _ | .shrinkBegin | .tick => isTrue trivial

lemma stacksWait_step (hk : w.Keyed) (hi : w.RingInv) (hs : w.master.Sound)
    (hw : w.master.StacksWait) (hkept : w.Kept e) (h : w.step e = some w') :
    w'.master.StacksWait := by
  cases e with
  | accept fd =>
    obtain ⟨-, hfd, rfl⟩ := step_accept h
    refine Waiting.insert hw (hw.not_mem_of_none ?_)
    rw [Option.eq_none_iff_forall_ne_some]
    exact fun e he => hfd (hk fd e he).2.2
  | receive fd msg =>
    obtain ⟨-, ⟨-, rfl⟩ | ⟨-, m, am, hh, rfl⟩⟩ := step_receive h
    · exact hw
    · exact hw.heard hs hh
  | detect fd =>
    rcases step_detect hk h with ⟨-, rfl⟩ | ⟨hdead, out, hd, rfl⟩
    · exact hw
    · exact hw.dead hs hk (hkept hdead) hd
  | shrinkBegin =>
    obtain ⟨-, sh, e, -, -, -, rfl⟩ := step_shrinkBegin h
    exact hw
  | shrinkEnd =>
    obtain ⟨sh, out, hsh, -, hend, rfl⟩ := step_shrinkEnd h
    obtain ⟨-, f, hf, -⟩ := Master.shrinkEnd_cases hend
    obtain ⟨-, l, hl⟩ := hi.busy sh hsh (Finmap.mem_of_lookup_eq_some hf)
    exact hw.shrinkEnd hs hk hl (hkept sh hsh) hend
  | tick =>
    cases h
    exact hw

/-- The stacks hold caches that wait, and what is taken off them waits. -/
lemma stacksWait_of_reach (h : Reach Init step (fun w e => Atomic w e ∧ Kept w e) w) :
    w.master.Sound ∧ w.master.StacksWait := by
  refine h.invariant (I := fun w => w.master.Sound ∧ w.master.StacksWait) ?_
    fun w e w' hr hi hok hstep => ?_
  · rintro _ ⟨t₀, rfl⟩
    exact ⟨Master.sound_start, ⟨fun a ha => by simp [start, Master.start] at ha,
      fun a ha => by simp [start, Master.start] at ha, List.nodup_nil⟩⟩
  · obtain ⟨hs, hw⟩ := hi
    have hk := keyed_of_reach hr
    have hring := ringInv_of_reach (hr.mono fun _ _ hok => hok.1.undisturbed)
    have hpop : w.PopsSound e := by
      cases e with
      | receive fd msg => exact hw.popsSound hs
      | _ => trivial
    exact ⟨sound_step hk hring hs hpop hstep, stacksWait_step hk hring hs hw hok.2 hstep⟩

/-- **Stacks.**  While no primary that waits dies or is shrunk, the stacks hold different
registered connections that wait, primaries on `pcache` and backups on `rcache`, so a cache that
joins is paired with another one that waits; and the first step that takes a waiting primary away
ends it. -/
theorem stacks_wait (h : Reach Init step (fun w e => Atomic w e ∧ Kept w e) w) :
    Waiting w.master.cachesList w.master.pcache w.master.rcache ∧
    (∀ fd msg, w.PopsSound (.receive fd msg)) ∧
    ∀ ev w', w.Atomic ev → w.step ev = some w' →
      (w.Kept ev ↔ Waiting w'.master.cachesList w'.master.pcache w'.master.rcache) := by
  obtain ⟨hs, hw⟩ := stacksWait_of_reach h
  have hk := keyed_of_reach h
  refine ⟨hw, fun fd msg => hw.popsSound hs, fun ev w' hat hstep => ⟨fun hkept => ?_, fun h' => ?_⟩⟩
  · exact (stacksWait_of_reach (h.next ⟨hat, hkept⟩ hstep)).2
  · cases ev with
    | detect fd =>
      intro hdead hmem
      rcases step_detect hk hstep with ⟨halive, -⟩ | ⟨-, out, hd, rfl⟩
      · rw [hdead] at halive
        cases halive
      · exact hw.not_dead hmem hd h'
    | shrinkEnd =>
      intro sh hsh hmem
      obtain ⟨sh', out, hsh', -, hend, rfl⟩ := step_shrinkEnd hstep
      cases hsh.symm.trans hsh'
      exact Master.StacksWait.not_shrinkEnd hmem hend h'
    | _ => trivial

theorem stacks_wait_failover : ∃ w,
    path step (fun w e => Atomic w e ∧ Kept w e) (start 1638316800)
      (joinPair ++ fiveSeconds ++ [.detect 5]) = some w ∧ w.master.pcache = [6] ∧
      IsWaiting w.master.cachesList statusP 6 := by
  have hrun : (path step (fun w e => Atomic w e ∧ Kept w e) (start 1638316800)
      (joinPair ++ fiveSeconds ++ [.detect 5])).map (fun w => w.master.pcache) = some [6] := by
    decide +kernel
  obtain ⟨w, hw, hstack⟩ := Option.map_eq_some_iff.mp hrun
  refine ⟨w, hw, hstack, (stacks_wait (reach_of_path ⟨_, rfl⟩ hw)).1.primaries 6 ?_⟩
  rw [hstack]
  exact List.mem_cons_self

/-- A primary that dies while it waits stays on `pcache` without a record. -/
theorem stacks_keep_dead : ∃ w, Reach Init step Atomic w ∧ w.master.pcache = [5] ∧
    w.master.cachesList.lookup 5 = none := by
  have hrun : (path step Atomic (start 1638316800) ([.accept 5,
        .receive 5 (lit "x#127.0.0.1#8001#9001#P")] ++ fiveSeconds ++ [.detect 5])).map
      (fun w => (w.master.pcache, (w.master.cachesList.lookup 5).isNone)) = some ([5], true) := by
    decide +kernel
  obtain ⟨w, hw, hf⟩ := Option.map_eq_some_iff.mp hrun
  rw [Prod.mk.injEq, Option.isNone_iff_eq_none] at hf
  exact ⟨w, reach_of_path ⟨_, rfl⟩ hw, hf⟩

end World

end DistCache
