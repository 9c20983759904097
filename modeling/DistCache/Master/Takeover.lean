import DistCache.Master.Pairing
import DistCache.Master.Routing

/-!
A backup takes over from its primary.

`periodicDetectCache` puts the backup in the place of the primary in `fd_node` and leaves the ring alone,
so the keys of the primary are those of the backup, and no other key changes hands (`takes_over`).
-/

namespace DistCache

open Lib

section Positions

variable {l : List ℤ} {a b : ℤ}

/-- When no entry is listed twice, overwriting the position of `a` replaces `a`. -/
lemma set_idxOf_eq_map (hl : l.Nodup) :
    l.set (l.idxOf a) b = l.map fun x => if x = a then b else x := by
  induction l with
  | nil => rfl
  | cons c l ih =>
    obtain ⟨hc, hl⟩ := List.nodup_cons.mp hl
    by_cases hca : c = a
    · subst hca
      have hrest : l.map (fun x => if x = c then b else x) = l := by
        refine (List.map_congr_left fun x hx => ?_).trans l.map_id
        exact if_neg (ne_of_mem_of_not_mem hx hc)
      rw [List.idxOf_cons_self, List.set_cons_zero, List.map_cons, if_pos rfl, hrest]
    · rw [List.idxOf_cons_ne _ hca, List.set_cons_succ, List.map_cons, if_neg hca, ih hl]

end Positions

lemma FdMap.Told.sharp_mem {e : FdMap} (h : e.Told) : sharp ∈ e.ipCache := by
  obtain ⟨ip, -, portCache, -, -, -, -, hcache⟩ := h
  rw [hcache]
  exact List.mem_append_right _ List.mem_cons_self

namespace Master

variable {m m' : Master} {p b q key t : ℤ} {e f it : FdMap} {k : Str}

/-- `p` is a primary in `fd_node`, which has no duplicates, and `b` is registered as its backup. -/
structure Backed (m : Master) (p b : ℤ) (e f : FdMap) : Prop where
  nodup : m.fdNode.Nodup
  mem : p ∈ m.fdNode
  primary : m.cachesList.lookup p = some e
  isPrimary : e.status = statusP
  pair : e.pairFd = b
  pos : 0 < b
  told : e.Told
  backup : m.cachesList.lookup b = some f
  isBackup : f.status = statusR
  partner : f.pairFd = p
  toldBackup : f.Told

/-- What the backup takes over, and what stays. -/
structure TakesOver (m : Master) (p b : ℤ) (f : FdMap) (m' : Master) : Prop where
  routed : ∀ k, m.lookupFd k = some p → m'.lookupFd k = some b
  keptRoute : ∀ k, m.lookupFd k ≠ some p → m'.lookupFd k = m.lookupFd k
  answered : ∀ k, m.lookupFd k = some p → ∃ ip port, f.ipPort = ip ++ sharp :: port ∧
    m'.handleClientMessage k = some (ip ++ colon :: port)
  keptAnswer : ∀ k, m.lookupFd k ≠ some p → m'.handleClientMessage k = m.handleClientMessage k
  ring : m'.cacheAddrHash = m.cacheAddrHash
  nodes : m'.fdNode = m.fdNode.map fun q => if q = p then b else q
  promoted : m'.cachesList.lookup b = some { f with status := statusP, pairFd := -1 }
  waiting : m'.pcache = b :: m.pcache
  dead : 0 < p → m'.cachesList.lookup p = none
  others : ∀ a, a ≠ p → a ≠ b → m'.cachesList.lookup a = m.cachesList.lookup a
  rest : m'.rcache = m.rcache ∧ m'.cacheAddrMap = m.cacheAddrMap

lemma Backed.ne (h : m.Backed p b e f) : b ≠ p := by
  rintro rfl
  have hrecord := h.primary.symm.trans h.backup
  cases hrecord
  exact absurd (h.isPrimary.symm.trans h.isBackup) (by decide)

/-- The tables after the branch of a primary with a backup. -/
def promote (m : Master) (p b : ℤ) (f : FdMap) : Master :=
  { m with
    fdNode := m.fdNode.set (m.fdNode.idxOf p) b
    cachesList := m.cachesList.insert b { f with status := statusP, pairFd := -1 }
    pcache := b :: m.pcache }

/-- The branch comes to its end. -/
lemma Backed.deadPaired (h : m.Backed p b e f) :
    ∃ out, m.deadPaired p = some out ∧ out.master = m.promote p b f := by
  have hne := h.ne
  have hpair := h.pair
  subst hpair
  have hstr : ∀ {g : FdMap}, g.Told → ∃ str, sharpToColon g.ipCache = some str := by
    intro g hg
    unfold sharpToColon
    rw [if_pos (FdMap.Told.sharp_mem hg)]
    exact ⟨_, rfl⟩
  obtain ⟨str1, h₁⟩ := hstr h.told
  obtain ⟨str2, h₂⟩ := hstr h.toldBackup
  unfold Master.deadPaired setPairFd setStatus
  simp only [Option.bind_eq_bind, Option.pure_def, h.primary, h.backup, Option.bind_some, h₁, h₂,
    lookup_insert_ite, if_neg hne.symm, if_true, Finmap.insert_insert]
  exact ⟨_, rfl, rfl⟩

/-- The tables after the pass: the record of the primary is erased. -/
def takenOver (m : Master) (p b : ℤ) (f : FdMap) : Master :=
  if 0 < p then { m.promote p b f with cachesList := (m.promote p b f).cachesList.erase p }
  else m.promote p b f

/-- The pass comes to its end. -/
lemma Backed.detect (h : m.Backed p b e f) (hit : m.cachesList.lookup key = some it) (hfd : it.fd = p)
    (hdead : m.heartBeatDetect t p = some false) :
    ∃ out, m.periodicDetectCache t key = some out ∧ out.master = m.takenOver p b f := by
  obtain ⟨out, hout, hmaster⟩ := h.deadPaired
  have hR : e.status ≠ statusR := by
    rw [h.isPrimary]
    decide
  have hpos : e.pairFd > 0 := by
    rw [h.pair]
    exact h.pos
  have hdies : m.dead p = some out := by
    rw [Master.dead, h.primary, Option.bind_eq_bind, Option.bind_some, if_neg hR, if_pos h.isPrimary,
      if_pos hpos, hout]
  unfold periodicDetectCache takenOver
  rw [hit, Option.bind_eq_bind, Option.bind_some, hfd]
  dsimp only
  rw [hdead, Option.bind_eq_bind, Option.bind_some, if_neg Bool.false_ne_true, hdies,
    Option.bind_eq_bind, Option.bind_some, ← hmaster]
  by_cases hp : p > 0
  · rw [if_pos hp, if_pos hp]
    exact ⟨_, rfl, rfl⟩
  · rw [if_neg hp, if_neg hp]
    exact ⟨_, rfl, rfl⟩

/-! ### The tables afterwards -/

lemma takenOver_cacheAddrHash : (m.takenOver p b f).cacheAddrHash = m.cacheAddrHash := by
  unfold takenOver
  split_ifs <;> rfl

lemma takenOver_fdNode : (m.takenOver p b f).fdNode = m.fdNode.set (m.fdNode.idxOf p) b := by
  unfold takenOver
  split_ifs <;> rfl

lemma takenOver_lookup (hne : q ≠ p) : (m.takenOver p b f).cachesList.lookup q =
    if q = b then some { f with status := statusP, pairFd := -1 } else m.cachesList.lookup q := by
  have hpromote : (m.promote p b f).cachesList.lookup q =
      if q = b then some { f with status := statusP, pairFd := -1 } else m.cachesList.lookup q :=
    lookup_insert_ite
  rw [← hpromote]
  unfold takenOver
  split_ifs
  · exact Finmap.lookup_erase_ne hne
  · rfl

/-- The backup stands where the primary stood. -/
lemma Backed.lookupFd (h : m.Backed p b e f) (k : Str) :
    (m.takenOver p b f).lookupFd k = (m.lookupFd k).map fun q => if q = p then b else q := by
  simp only [Master.lookupFd, Master.lookupIndex, takenOver_cacheAddrHash, takenOver_fdNode,
    set_idxOf_eq_map h.nodup, List.getElem?_map, Option.bind_eq_bind, Option.map_bind]
  rfl

/-- A descriptor in `fd_node` after the pass has the client address that it had. -/
lemma Backed.ipPort (h : m.Backed p b e f) (hq : q ≠ p) :
    ((m.takenOver p b f).cachesList.lookup q).map FdMap.ipPort =
      (m.cachesList.lookup q).map FdMap.ipPort := by
  rw [takenOver_lookup hq]
  split_ifs with hqb
  · subst hqb
    rw [h.backup]
    rfl
  · rfl

/-- The answer to a client is a matter of the ring, of `fd_node` and of one client address. -/
lemma handleClientMessage_eq (m : Master) (k : Str) : m.handleClientMessage k =
    ((m.lookupFd k).bind fun q => (m.cachesList.lookup q).map FdMap.ipPort).bind fun ipPort =>
      (splitSharp ipPort)[0]?.bind fun ip => (splitSharp ipPort)[1]?.bind fun port =>
        some (ip ++ colon :: port) := by
  unfold handleClientMessage
  cases m.lookupFd k with
  | none => rfl
  | some q =>
    simp only [Option.bind_eq_bind, Option.bind_some]
    cases m.cachesList.lookup q with
    | none => rfl
    | some e =>
      simp only [Option.bind_some, Option.map_some, Option.pure_def]

/-- **Failover.**  When `periodicDetectCache` handles the death of a primary with a registered backup, the
backup takes over: its keys, its place in `fd_node` and its status; and nothing else changes. -/
theorem takes_over (h : m.Backed p b e f) (hit : m.cachesList.lookup key = some it) (hfd : it.fd = p)
    (hdead : m.heartBeatDetect t p = some false) :
    ∃ out, m.periodicDetectCache t key = some out ∧ m.TakesOver p b f out.master := by
  obtain ⟨out, hout, hmaster⟩ := h.detect hit hfd hdead
  have hroute : ∀ k, out.master.lookupFd k = (m.lookupFd k).map fun q => if q = p then b else q := by
    rw [hmaster]
    exact h.lookupFd
  refine ⟨out, hout, ?_⟩
  constructor
  case routed =>
    intro k hk
    rw [hroute, hk, Option.map_some, if_pos rfl]
  case keptRoute =>
    intro k hk
    rw [hroute]
    cases hq : m.lookupFd k with
    | none => rfl
    | some q =>
      have hqp : q ≠ p := fun heq => hk (heq ▸ hq)
      rw [Option.map_some, if_neg hqp]
  case answered =>
    intro k hk
    obtain ⟨ip, port, -, hip, hport, -, hipPort, -⟩ := h.toldBackup
    refine ⟨ip, port, hipPort, ?_⟩
    have hrecord := h.ipPort h.ne
    rw [h.backup, Option.map_some, hipPort] at hrecord
    rw [handleClientMessage_eq, hroute, hk, Option.map_some, if_pos rfl, Option.bind_some, hmaster,
      hrecord, Option.bind_some, splitSharp_pair hip hport]
    rfl
  case keptAnswer =>
    intro k hk
    rw [handleClientMessage_eq, handleClientMessage_eq, hroute]
    cases hq : m.lookupFd k with
    | none => rfl
    | some q =>
      have hqp : q ≠ p := fun heq => hk (heq ▸ hq)
      rw [Option.map_some, if_neg hqp, Option.bind_some, Option.bind_some, hmaster, h.ipPort hqp]
  case ring => rw [hmaster, takenOver_cacheAddrHash]
  case nodes => rw [hmaster, takenOver_fdNode, set_idxOf_eq_map h.nodup]
  case promoted => rw [hmaster, takenOver_lookup h.ne, if_pos rfl]
  case waiting =>
    rw [hmaster]
    unfold takenOver
    split_ifs <;> rfl
  case dead =>
    intro hp
    rw [hmaster, takenOver, if_pos hp]
    exact Finmap.lookup_erase p _
  case others =>
    intro a ha hb
    rw [hmaster, takenOver_lookup ha, if_neg hb]
  case rest =>
    rw [hmaster]
    unfold takenOver
    split_ifs <;> exact ⟨rfl, rfl⟩

end Master

namespace World

variable {w : World} {p : ℤ} {e : FdMap}

/-- In the runs in which what is taken off the stacks waits, every primary with a partner is backed. -/
lemma backed_of_reach (h : Reach Init step (fun w e => Atomic w e ∧ PopsSound w e) w)
    (hmem : p ∈ w.master.fdNode) (he : w.master.cachesList.lookup p = some e) (hpos : 0 < e.pairFd) :
    ∃ f, w.master.Backed p e.pairFd e f := by
  have hs := sound_of_reach h
  have hk := keyed_of_reach h
  have hP : e.status = statusP := by
    have hrole := hs.primary p hmem
    rw [role_of_lookup he] at hrole
    exact Option.some.inj hrole
  have hkey : ∀ a ∈ w.master.cachesList, 0 < a := by
    intro a ha
    obtain ⟨g, hg⟩ := Finmap.mem_iff.mp ha
    exact (hk a g hg).2.1
  obtain ⟨-, f, hf, hback, hstatus⟩ := (matched_iff hkey).mp hs.matched p e he hpos.le
  have hR : f.status = statusR := by
    rcases hstatus with ⟨-, hR⟩ | ⟨hR, -⟩
    · exact hR
    · exact absurd (hP.symm.trans hR) (by decide)
  exact ⟨f, hs.nodup, hmem, he, hP, rfl, hpos, (hs.known p e he).told_of_status (by rw [hP]; decide),
    hf, hR, hback, (hs.known _ f hf).told_of_status (by rw [hR]; decide)⟩

/-- A primary with a backup joins, falls silent, and its keys go to the backup. -/
theorem takes_over_joinPair : ∃ w out, path step (fun w e => Atomic w e ∧ PopsSound w e)
    (start 1638316800) (joinPair ++ fiveSeconds) = some w ∧
    w.master.periodicDetectCache w.timeNow 5 = some out ∧
    ∀ k, w.master.lookupFd k = some 5 → out.master.lookupFd k = some 6 := by
  have hrun : (path step (fun w e => Atomic w e ∧ PopsSound w e) (start 1638316800)
      (joinPair ++ fiveSeconds)).bind (fun w => (w.master.cachesList.lookup 5).map fun e =>
        (w.master.fdNode, e.fd, e.pairFd, w.master.heartBeatDetect w.timeNow 5)) =
      some ([5], 5, 6, some false) := by
    decide +kernel
  obtain ⟨w, hw, hf⟩ := Option.bind_eq_some_iff.mp hrun
  obtain ⟨e, he, hf⟩ := Option.map_eq_some_iff.mp hf
  simp only [Prod.mk.injEq] at hf
  obtain ⟨hnode, hfd, hpair, hdead⟩ := hf
  obtain ⟨f, hbacked⟩ := backed_of_reach (reach_of_path ⟨_, rfl⟩ hw)
    (by rw [hnode]; exact List.mem_cons_self) he (by rw [hpair]; decide)
  rw [hpair] at hbacked
  obtain ⟨out, hout, htakes⟩ := Master.takes_over hbacked he hfd hdead
  exact ⟨w, out, hw, hout, htakes.routed⟩

end World

end DistCache
