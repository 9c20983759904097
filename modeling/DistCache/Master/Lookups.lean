import DistCache.Lib.Faults
import DistCache.Master.Pairing

/-!
Which records `periodicDetectCache` looks up when it finds a cache dead.

Both `caches_list[caches_list[fd]->pair_fd]->…` and the statement after a change of `pair_fd` look up
whatever `pair_fd` holds.  A backup that waits for a primary has `-1` there, and dies like any other:
`operator[]` makes a null entry for `-1`, which is dereferenced.  The functions are stated once more
here with the reason why they end, and with that left out they are those of the master
(`toOption_checkedDead`).
-/

namespace DistCache

open Lib

/-- Why a function ends early. -/
inductive Fault where
  /-- `operator[]` makes a null entry for `fd`, and it is dereferenced. -/
  | nullEntry (fd : ℤ)
  /-- `replace` throws `out_of_range`. -/
  | outOfRange
  deriving DecidableEq

namespace Master

/-! ### The functions with their faults -/

/-- `caches_list[fd]->…`. -/
def entry (m : Master) (fd : ℤ) : Except Fault FdMap :=
  match m.cachesList.lookup fd with
  | some e => .ok e
  | none => .error (.nullEntry fd)

/-- An assignment through `caches_list[fd]`. -/
def assign (m : Master) (fd : ℤ) (f : FdMap → FdMap) : Except Fault Master := do
  let e ← m.entry fd
  return { m with cachesList := m.cachesList.insert fd (f e) }

/-- `addr.replace(addr.find("#"), 1, ":")`. -/
def replaceSharp (addr : Str) : Except Fault Str :=
  match sharpToColon addr with
  | some str => .ok str
  | none => .error .outOfRange

/-- `deadReplica`. -/
def checkedReplica (m : Master) (fd : ℤ) : Except Fault Out := do
  let e ← m.entry fd
  let m ← m.assign e.pairFd fun p => { p with pairFd := -1 }
  let e ← m.entry fd
  return { master := { m with pcache := e.pairFd :: m.pcache }, closed := [fd] }

/-- The assignments of `deadPaired`: the partner becomes a primary and waits. -/
def checkedPromote (m : Master) (fd pair : ℤ) : Except Fault Master := do
  let m ← m.assign pair fun p => { p with pairFd := -1 }
  let e ← m.entry fd
  let m ← m.assign e.pairFd fun p => { p with status := statusP }
  let e ← m.entry fd
  return { m with pcache := e.pairFd :: m.pcache }

/-- `deadPaired`. -/
def checkedPaired (m : Master) (fd : ℤ) : Except Fault Out := do
  let e ← m.entry fd
  let b ← m.entry e.pairFd
  let m := { m with fdNode := m.fdNode.set (m.fdNode.idxOf fd) e.pairFd }
  let str1 ← replaceSharp e.ipCache
  let str2 ← replaceSharp b.ipCache
  let toAllCacheMsg := lit "C#" ++ str1 ++ sharp :: str2
  let sends := m.fdNode.map fun fdi => (fdi, toAllCacheMsg)
  let m ← m.checkedPromote fd e.pairFd
  return { master := m, sends := sends, closed := [fd] }

/-- `deadAlone`. -/
def checkedAlone (m : Master) (fd : ℤ) : Except Fault Out := do
  let e ← m.entry fd
  let m := if fd ∈ m.fdNode then
      { m with
        fdNode := m.fdNode.erase fd
        cacheAddrHash := m.cacheAddrHash.deleteNode (m.fdNode.idxOf fd) }
    else m
  let toAllCacheDeleteMsg := lit "D#" ++ e.ipCache
  return { master := m, sends := m.fdNode.map fun fdi => (fdi, toAllCacheDeleteMsg), closed := [fd] }

/-- `dead`. -/
def checkedDead (m : Master) (fd : ℤ) : Except Fault Out := do
  let e ← m.entry fd
  if e.status = statusR then m.checkedReplica fd
  else if e.status = statusP then
    if e.pairFd > 0 then m.checkedPaired fd else m.checkedAlone fd
  else return { master := m }

/-- The null entry that handling the death of `fd` dereferences, if it does. -/
def nullDeref (m : Master) (fd : ℤ) : Option ℤ :=
  match m.checkedDead fd with
  | .error (.nullEntry a) => some a
  | .error .outOfRange => none
  | .ok _ => none

variable {m m' : Master} {fd a : ℤ} {e b : FdMap} {msg : Str} {am : Map Str ℤ} {out : Out}

lemma toOption_entry (m : Master) (fd : ℤ) : (m.entry fd).toOption = m.cachesList.lookup fd := by
  unfold entry
  cases m.cachesList.lookup fd <;> rfl

lemma toOption_assign (m : Master) (fd : ℤ) (f : FdMap → FdMap) : (m.assign fd f).toOption =
    (m.cachesList.lookup fd).bind fun e =>
      some { m with cachesList := m.cachesList.insert fd (f e) } := by
  rw [assign, toOption_bind, toOption_entry]
  rfl

lemma toOption_replaceSharp (addr : Str) : (replaceSharp addr).toOption = sharpToColon addr := by
  unfold replaceSharp
  cases sharpToColon addr <;> rfl

/-- **The same functions.**  What is left when the reasons are forgotten is what the master does. -/
theorem toOption_checkedDead (m : Master) (fd : ℤ) : (m.checkedDead fd).toOption = m.dead fd := by
  have hreplica : (m.checkedReplica fd).toOption = m.deadReplica fd := by
    simp only [checkedReplica, deadReplica, setPairFd, toOption_bind, toOption_entry, toOption_assign,
      toOption_pure, Option.bind_eq_bind, Option.pure_def]
  have hpaired : (m.checkedPaired fd).toOption = m.deadPaired fd := by
    simp only [checkedPaired, checkedPromote, deadPaired, setPairFd, setStatus, toOption_bind,
      toOption_entry, toOption_assign, toOption_replaceSharp, toOption_pure, Option.bind_eq_bind,
      Option.pure_def, Option.bind_assoc, Option.bind_some]
  have halone : (m.checkedAlone fd).toOption = m.deadAlone fd := by
    simp only [checkedAlone, deadAlone, toOption_bind, toOption_entry, toOption_pure,
      Option.bind_eq_bind, Option.pure_def]
  rw [checkedDead, dead, toOption_bind, toOption_entry]
  refine Option.bind_congr fun e _ => ?_
  split_ifs
  · exact hreplica
  · exact hpaired
  · exact halone
  · rfl

/-! ### What a death looks up -/

lemma entry_of_lookup (he : m.cachesList.lookup fd = some e) : m.entry fd = .ok e := by
  rw [entry, he]

lemma entry_of_not_mem (h : fd ∉ m.cachesList) : m.entry fd = .error (.nullEntry fd) := by
  rw [entry, Finmap.lookup_eq_none.mpr h]

lemma assign_of_lookup (he : m.cachesList.lookup fd = some e) (f : FdMap → FdMap) :
    m.assign fd f = .ok { m with cachesList := m.cachesList.insert fd (f e) } := by
  rw [assign, entry_of_lookup he]
  rfl

lemma assign_of_not_mem (h : fd ∉ m.cachesList) (f : FdMap → FdMap) :
    m.assign fd f = .error (.nullEntry fd) := by
  rw [assign, entry_of_not_mem h]
  rfl

/-- After an assignment a record is still there. -/
lemma entry_insert (he : m.cachesList.lookup fd = some e) (a : ℤ) (f : FdMap) :
    ∃ e', Master.entry { m with cachesList := m.cachesList.insert a f } fd = .ok e' := by
  have hmem : fd ∈ m.cachesList.insert a f :=
    Finmap.mem_insert.mpr (.inr (Finmap.mem_of_lookup_eq_some he))
  obtain ⟨e', he'⟩ := Finmap.mem_iff.mp hmem
  exact ⟨e', entry_of_lookup he'⟩

/-- A backup: the partner. -/
lemma nullDeref_replica (he : m.cachesList.lookup fd = some e) (hs : e.status = statusR) :
    m.nullDeref fd = none ↔ e.pairFd ∈ m.cachesList := by
  have hdead : m.checkedDead fd = m.checkedReplica fd := by
    rw [checkedDead, entry_of_lookup he, ok_bind, if_pos hs]
  rw [nullDeref, hdead, checkedReplica, entry_of_lookup he, ok_bind]
  by_cases hmem : e.pairFd ∈ m.cachesList
  · obtain ⟨b, hb⟩ := Finmap.mem_iff.mp hmem
    obtain ⟨e', he'⟩ := entry_insert he e.pairFd { b with pairFd := -1 }
    rw [assign_of_lookup hb, ok_bind, he', ok_bind]
    exact iff_of_true rfl hmem
  · rw [assign_of_not_mem hmem, error_bind]
    exact iff_of_false (Option.some_ne_none _) hmem

/-- A cache that is its own partner has lost it when it is read again. -/
lemma checkedPromote_self (hkey : ∀ a ∈ m.cachesList, 0 < a) (he : m.cachesList.lookup fd = some e) :
    m.checkedPromote fd fd = .error (.nullEntry (-1)) := by
  have hnone : (-1 : ℤ) ∉ m.cachesList.insert fd { e with pairFd := -1 } := by
    intro hmem
    have hpos := hkey fd (Finmap.mem_of_lookup_eq_some he)
    rcases Finmap.mem_insert.mp hmem with heq | hmem
    · omega
    · exact absurd (hkey _ hmem) (by decide)
  rw [checkedPromote, assign_of_lookup he, ok_bind,
    entry_of_lookup (e := { e with pairFd := -1 }) (Finmap.lookup_insert _), ok_bind,
    assign_of_not_mem hnone, error_bind]

/-- Another partner is found each time. -/
lemma checkedPromote_other (he : m.cachesList.lookup fd = some e)
    (hb : m.cachesList.lookup e.pairFd = some b) (hne : e.pairFd ≠ fd) :
    ∃ m', m.checkedPromote fd e.pairFd = .ok m' := by
  have he₁ : (m.cachesList.insert e.pairFd { b with pairFd := -1 }).lookup fd = some e := by
    rw [lookup_insert_ite, if_neg hne.symm, he]
  obtain ⟨e', he'⟩ := entry_insert (m := { m with
    cachesList := m.cachesList.insert e.pairFd { b with pairFd := -1 } }) he₁ e.pairFd
      { b with pairFd := -1, status := statusP }
  rw [checkedPromote, assign_of_lookup hb, ok_bind, entry_of_lookup he₁, ok_bind,
    assign_of_lookup (e := { b with pairFd := -1 }) (Finmap.lookup_insert _), ok_bind, he', ok_bind]
  exact ⟨_, rfl⟩

/-- A primary with a partner: the partner, and, when that is the primary itself, the `-1` that it has
become. -/
lemma nullDeref_paired (hkey : ∀ a ∈ m.cachesList, 0 < a) (he : m.cachesList.lookup fd = some e)
    (hs : e.status = statusP) (hpos : 0 < e.pairFd) (hsharp : sharp ∈ e.ipCache) :
    m.nullDeref fd = none ↔ e.pairFd ≠ fd ∧ e.pairFd ∈ m.cachesList := by
  have hdead : m.checkedDead fd = m.checkedPaired fd := by
    rw [checkedDead, entry_of_lookup he, ok_bind, if_neg (by rw [hs]; decide), if_pos hs, if_pos hpos]
  obtain ⟨str1, hstr1⟩ : ∃ str, replaceSharp e.ipCache = .ok str := by
    rw [replaceSharp, sharpToColon, if_pos hsharp]
    exact ⟨_, rfl⟩
  rw [nullDeref, hdead, checkedPaired, entry_of_lookup he, ok_bind]
  by_cases hmem : e.pairFd ∈ m.cachesList
  · obtain ⟨b, hb⟩ := Finmap.mem_iff.mp hmem
    rw [entry_of_lookup hb, ok_bind]
    dsimp only
    rw [hstr1, ok_bind]
    by_cases hself : e.pairFd = fd
    · rw [hself, he, Option.some.injEq] at hb
      subst hb
      have hpromote := checkedPromote_self (m := { m with
        fdNode := m.fdNode.set (m.fdNode.idxOf fd) fd }) hkey he
      rw [hstr1, ok_bind, hself, hpromote, error_bind]
      exact iff_of_false (Option.some_ne_none _) fun h => h.1 rfl
    · obtain ⟨m', hpromote⟩ := checkedPromote_other (m := { m with
        fdNode := m.fdNode.set (m.fdNode.idxOf fd) e.pairFd }) he hb hself
      refine iff_of_true ?_ ⟨hself, hmem⟩
      unfold replaceSharp
      cases sharpToColon b.ipCache with
      | none => rfl
      | some str2 =>
        rw [ok_bind, hpromote, ok_bind]
        rfl
  · rw [entry_of_not_mem hmem, error_bind]
    exact iff_of_false (Option.some_ne_none _) fun h => hmem h.2

/-- What a dead cache's `pair_fd` has to be. -/
def PartnerFound (m : Master) (fd : ℤ) (e : FdMap) : Prop :=
  (e.status = statusR → e.pairFd ∈ m.cachesList) ∧
    (e.status = statusP → 0 < e.pairFd → e.pairFd ≠ fd ∧ e.pairFd ∈ m.cachesList)

lemma nullDeref_eq_none_iff (hkey : ∀ a ∈ m.cachesList, 0 < a) (he : m.cachesList.lookup fd = some e)
    (hsharp : e.status = statusP → sharp ∈ e.ipCache) : m.nullDeref fd = none ↔ m.PartnerFound fd e := by
  have hPR : statusP ≠ statusR := by decide
  unfold PartnerFound
  by_cases hR : e.status = statusR
  · rw [nullDeref_replica he hR]
    refine ⟨fun hmem => ⟨fun _ => hmem, fun hP => absurd (hP.symm.trans hR) hPR⟩, fun h => h.1 hR⟩
  · by_cases hP : e.status = statusP
    · by_cases hpos : 0 < e.pairFd
      · rw [nullDeref_paired hkey he hP hpos (hsharp hP)]
        exact ⟨fun h => ⟨fun h' => absurd h' hR, fun _ _ => h⟩, fun h => h.2 hP hpos⟩
      · refine iff_of_true ?_ ⟨fun h => absurd h hR, fun _ h => absurd h hpos⟩
        rw [nullDeref, checkedDead, entry_of_lookup he, ok_bind, if_neg hR, if_pos hP, if_neg hpos,
          checkedAlone, entry_of_lookup he, ok_bind]
        rfl
    · refine iff_of_true ?_ ⟨fun h => absurd h hR, fun h => absurd h hP⟩
      rw [nullDeref, checkedDead, entry_of_lookup he, ok_bind, if_neg hR, if_neg hP]
      rfl

/-! ### Primaries have an address -/

/-- The address of a primary has a separator in it. -/
abbrev PrimariesTold (l : Map ℤ FdMap) : Prop :=
  Every (fun _ e => e.status = statusP → sharp ∈ e.ipCache) l

lemma First.sharp_mem {role : Str} (hf : m.First fd msg role e) : sharp ∈ e.ipCache := by
  obtain ⟨ip, portClient, portCache, -, -, -, -, hcache⟩ := hf.told
  rw [hcache]
  exact List.mem_append_right _ List.mem_cons_self

lemma Heard.primariesTold (h : PrimariesTold m.cachesList) (hh : m.Heard fd msg am m') :
    PrimariesTold m'.cachesList := by
  cases hh with
  | again => exact h
  | primary hf | replica hf | other hf => exact h.insert fun _ => hf.sharp_mem
  | @primaryPaired e te top rest hf _ hte | @replicaPaired e te top rest hf _ hte =>
    have hjoined : PrimariesTold (m.cachesList.insert fd { e with pairFd := top }) :=
      h.insert fun _ => hf.sharp_mem
    have htop : te.status = statusP → sharp ∈ te.ipCache := hjoined top te hte
    exact hjoined.insert htop

lemma Dead.primariesTold (h : PrimariesTold m.cachesList) (hd : m.Dead fd out) :
    PrimariesTold (out.master.cachesList.erase fd) := by
  cases hd with
  | @replica e b _ _ hb =>
    have hpartner : b.status = statusP → sharp ∈ b.ipCache := h _ b hb
    have h' : PrimariesTold (m.cachesList.insert e.pairFd { b with pairFd := -1 }) :=
      Every.insert h hpartner
    exact h'.erase fd
  | @paired e b _ str2 _ _ _ _ _ _ h₂ =>
    have hpartner : sharp ∈ b.ipCache := by
      unfold sharpToColon at h₂
      split_ifs at h₂ with hmem
      exact hmem
    have h' : PrimariesTold
        (m.cachesList.insert e.pairFd { b with status := statusP, pairFd := -1 }) :=
      Every.insert h fun _ => hpartner
    exact h'.erase fd
  | alone => exact h.erase fd
  | stray => exact h.erase fd
  | other => exact h.erase fd

end Master

namespace World

variable {w w' : World} {ev : Event} {ok : World → Event → Prop} {fd : ℤ} {e : FdMap}

lemma primariesTold_step (hk : w.Keyed) (h : Master.PrimariesTold w.master.cachesList)
    (hs : w.step ev = some w') : Master.PrimariesTold w'.master.cachesList := by
  cases ev with
  | accept fd =>
    obtain ⟨-, -, rfl⟩ := step_accept hs
    exact h.insert fun hP => absurd hP FdMap.status_new_ne
  | receive fd msg =>
    obtain ⟨-, ⟨-, rfl⟩ | ⟨-, m, am, hh, rfl⟩⟩ := step_receive hs
    · exact h
    · exact hh.primariesTold h
  | detect fd =>
    rcases step_detect hk hs with ⟨-, rfl⟩ | ⟨-, out, hd, rfl⟩
    · exact h
    · exact hd.primariesTold h
  | shrinkBegin =>
    obtain ⟨-, sh, e, -, -, -, rfl⟩ := step_shrinkBegin hs
    exact h
  | shrinkEnd =>
    obtain ⟨sh, out, -, -, hend, rfl⟩ := step_shrinkEnd hs
    obtain ⟨-, e, -, ⟨-, -, rfl⟩ | ⟨-, rfl⟩⟩ := Master.shrinkEnd_cases hend
    · exact Every.erase (Every.erase h e.pairFd) sh.fd
    · exact Every.erase h sh.fd
  | tick =>
    cases hs
    exact h

lemma primariesTold_of_reach (h : Reach Init step ok w) : Master.PrimariesTold w.master.cachesList := by
  refine h.invariant (I := fun w => Master.PrimariesTold w.master.cachesList) ?_
    fun w e w' hr hi _ hs => primariesTold_step (keyed_of_reach hr) hi hs
  rintro _ ⟨t₀, rfl⟩ a f hf
  simp [start, Master.start] at hf

/-- A null entry that is dereferenced brings the master down. -/
lemma step_detect_of_nullDeref (hk : w.Keyed) (he : w.master.cachesList.lookup fd = some e)
    (hdead : w.master.heartBeatDetect w.timeNow fd = some false)
    (hnull : w.master.nullDeref fd ≠ none) : w.step (.detect fd) = none := by
  have hnone : w.master.dead fd = none := by
    rw [← Master.toOption_checkedDead]
    unfold Master.nullDeref at hnull
    cases hchecked : w.master.checkedDead fd with
    | error fault => rfl
    | ok out =>
      rw [hchecked] at hnull
      exact absurd rfl hnull
  have hfd : e.fd = fd := (hk fd e he).1
  have hdetect : w.master.periodicDetectCache w.timeNow fd = none := by
    rw [Master.periodicDetectCache, he, Option.bind_eq_bind, Option.bind_some, hfd]
    dsimp only
    rw [hdead, Option.bind_eq_bind, Option.bind_some, if_neg Bool.false_ne_true, hnone]
    rfl
  rw [step, exec, hdetect]
  rfl

/-- **Null entries.**  In every state reached, handling a death dereferences no null entry exactly when a
backup that died has a registered partner, and a primary that died has none, or another cache that is
registered.  In the runs in which what is taken off the stacks waits (`PopsSound`) that means: when it is
not a backup without a partner.  Otherwise the master does not survive. -/
theorem nullDeref_iff (h : Reach Init step ok w) (he : w.master.cachesList.lookup fd = some e)
    (hdead : w.master.heartBeatDetect w.timeNow fd = some false) :
    (w.master.nullDeref fd = none ↔ w.master.PartnerFound fd e) ∧
    (Reach Init step (fun w e => Atomic w e ∧ PopsSound w e) w →
      (w.master.nullDeref fd = none ↔ (e.status = statusR → 0 ≤ e.pairFd))) ∧
    (w.master.nullDeref fd ≠ none → w.step (.detect fd) = none) := by
  have hk := keyed_of_reach h
  have hkey : ∀ a ∈ w.master.cachesList, 0 < a := by
    intro a ha
    obtain ⟨f, hf⟩ := Finmap.mem_iff.mp ha
    exact (hk a f hf).2.1
  have hiff := Master.nullDeref_eq_none_iff hkey he (primariesTold_of_reach h fd e he)
  refine ⟨hiff, fun hsound => ?_, step_detect_of_nullDeref hk he hdead⟩
  have hmatched := (matched_iff hkey).mp (sound_of_reach hsound).matched fd e he
  rw [hiff]
  constructor
  · intro hfound hR
    exact (hkey _ (hfound.1 hR)).le
  · intro hpaired
    constructor
    · intro hR
      obtain ⟨-, f, hf, -⟩ := hmatched (hpaired hR)
      exact Finmap.mem_of_lookup_eq_some hf
    · intro _ hpos
      obtain ⟨hne, f, hf, -⟩ := hmatched hpos.le
      exact ⟨hne, Finmap.mem_of_lookup_eq_some hf⟩

/-- A primary with a backup dies. -/
theorem nullDeref_iff_paired : ∃ w,
    path step (fun w e => Atomic w e ∧ PopsSound w e) (start 1638316800) (joinPair ++ fiveSeconds) =
      some w ∧ w.master.nullDeref 5 = none := by
  have hrun : (path step (fun w e => Atomic w e ∧ PopsSound w e) (start 1638316800)
      (joinPair ++ fiveSeconds)).bind (fun w => (w.master.cachesList.lookup 5).map fun e =>
        (e.status, w.master.heartBeatDetect w.timeNow 5)) = some (statusP, some false) := by
    decide +kernel
  obtain ⟨w, hw, hf⟩ := Option.bind_eq_some_iff.mp hrun
  obtain ⟨e, he, hf⟩ := Option.map_eq_some_iff.mp hf
  rw [Prod.mk.injEq] at hf
  have hr : Reach Init step (fun w e => Atomic w e ∧ PopsSound w e) w := reach_of_path ⟨_, rfl⟩ hw
  refine ⟨w, hw, ((nullDeref_iff hr he hf.2).2.1 hr).mpr fun hR => ?_⟩
  rw [hf.1] at hR
  exact absurd hR (by decide)

/-- A backup joins, finds no primary, and dies: the entry of `-1` is looked up. -/
theorem nullDeref_idle_backup : ∃ w, Reach Init step (fun w e => Atomic w e ∧ PopsSound w e) w ∧
    w.master.heartBeatDetect w.timeNow 6 = some false ∧ w.master.nullDeref 6 = some (-1) ∧
    w.step (.detect 6) = none := by
  have hrun : (path step (fun w e => Atomic w e ∧ PopsSound w e) (start 1638316800)
      ([.accept 6, .receive 6 (lit "x#127.0.0.1#8002#9002#R")] ++ fiveSeconds)).map (fun w =>
        (w.master.heartBeatDetect w.timeNow 6, w.master.nullDeref 6,
          (w.step (.detect 6)).isNone)) = some (some false, some (-1), true) := by
    decide +kernel
  obtain ⟨w, hw, hf⟩ := Option.map_eq_some_iff.mp hrun
  rw [Prod.mk.injEq, Prod.mk.injEq, Option.isNone_iff_eq_none] at hf
  exact ⟨w, reach_of_path ⟨_, rfl⟩ hw, hf⟩

end World

end DistCache
