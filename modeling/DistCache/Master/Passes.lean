import DistCache.Lib.Succession
import DistCache.Master.Pairing

/-!
The passes of `periodicDetectCache`.

A pass goes over the caches in the order of a hash table, and stops at the first one that is not alive: it handles
that death, erases the record after the loop, and sleeps.  So one pass handles one death at most, and which one
is not determined.  What is left when all deaths have been handled is determined all the same, in the runs in
which the records are in order (`passes_settle`): every place in `fd_node` comes to its heir, the primary or
else its backup.
-/

namespace DistCache

open Lib

namespace Master

/-- The loop over the entries in this order, each with the time at which it is come to: what the first cache
that is not alive leaves, and `deletefd`. -/
def detectLoop (m : Master) : List (ℤ × ℤ) → Option (Out × ℤ)
  | [] => some ({ master := m }, -1)
  | (timeNow, key) :: rest => do
    let itcache ← m.cachesList.lookup key
    let fd := itcache.fd
    let alive ← m.heartBeatDetect timeNow fd
    if alive then m.detectLoop rest
    else do
      let out ← m.dead fd
      return (out, fd)

/-- A pass: the loop, and the erasure after it. -/
def detectPass (m : Master) (order : List (ℤ × ℤ)) : Option Out := do
  let (out, deletefd) ← m.detectLoop order
  if deletefd > 0 then
    return { out with master := { out.master with cachesList := out.master.cachesList.erase deletefd } }
  else return out

/-- What a pass finds: the times of the heartbeats, and the order of the table, with the time at which each entry
is come to. -/
structure Watch where
  times : Map Str ℤ
  order : List (ℤ × ℤ)

/-- Pass after pass.  Between two of them the heartbeats leave new times, and the table has the entries that are
left. -/
def passes : Master → List Watch → Option Master
  | m, [] => some m
  | m, w :: ws => do
    let m := { m with cacheAddrMap := w.times }
    let out ← m.detectPass (w.order.filter fun x => x.2 ∈ m.cachesList)
    out.master.passes ws

variable {m m₀ : Master} {fds : Finset ℤ} {fd t : ℤ} {e : FdMap} {out : Out} {order : List (ℤ × ℤ)} {w : Watch}
  {alive : ℤ → Bool}

/-! ### One pass is one death -/

/-- The loop goes on over a cache that is alive. -/
lemma detectPass_alive (hk : KeyedIn fds m.cachesList) (he : m.cachesList.lookup fd = some e)
    (halive : m.heartBeatDetect t fd = some true) : m.detectPass ((t, fd) :: order) = m.detectPass order := by
  have hfd := (hk fd e he).1
  unfold detectPass
  rw [detectLoop]
  simp only [he, hfd, halive, Option.bind_eq_bind, Option.bind_some, if_true]

/-- At the first cache that is not alive, the pass is what `periodicDetectCache` does at its entry. -/
lemma detectPass_dead (hk : KeyedIn fds m.cachesList) (he : m.cachesList.lookup fd = some e)
    (hdead : m.heartBeatDetect t fd = some false) :
    m.detectPass ((t, fd) :: order) = m.periodicDetectCache t fd := by
  obtain ⟨hfd, hpos, -⟩ := hk fd e he
  unfold detectPass periodicDetectCache
  rw [detectLoop]
  simp only [he, hfd, hdead, Option.bind_eq_bind, Option.bind_some, Bool.false_eq_true, if_false,
    Option.bind_assoc, Option.pure_def, gt_iff_lt, hpos, if_true]

/-! ### A death that can be handled -/

lemma exists_sharpToColon (h : e.Told) : ∃ str, sharpToColon e.ipCache = some str := by
  obtain ⟨ip, portClient, portCache, -, -, -, -, hcache⟩ := h
  rw [sharpToColon, if_pos (by simp [hcache])]
  exact ⟨_, rfl⟩

/-- The master survives a death unless it is that of a backup without a primary. -/
lemma Sound.exists_dead (hs : m.Sound) (hk : KeyedIn fds m.cachesList) (he : m.cachesList.lookup fd = some e)
    (hbacked : e.status = statusR → partner m.cachesList fd ≠ none) : ∃ out, m.dead fd = some out := by
  have hpaired {b : ℤ} (hb : partner m.cachesList fd = some b) : e.pairFd = b ∧ b ≠ fd ∧ 0 < b ∧
      ∃ f, m.cachesList.lookup b = some f := by
    obtain ⟨e', he', -, hpair⟩ := partner_eq_some_iff.mp hb
    obtain ⟨f, hf, -⟩ := partner_eq_some_iff.mp (hs.matched.symm hb)
    rw [he, Option.some.injEq] at he'
    subst he'
    exact ⟨hpair, (hs.matched.ne hb).symm, (hk b f hf).2.1, f, hf⟩
  unfold Master.dead
  rw [he, Option.bind_eq_bind, Option.bind_some]
  split_ifs with hR hP hpos
  · obtain ⟨b, hb⟩ := Option.ne_none_iff_exists'.mp (hbacked hR)
    obtain ⟨rfl, hne, -, f, hf⟩ := hpaired hb
    have hfd {g : FdMap} : (m.cachesList.insert e.pairFd g).lookup fd = some e := by
      rw [lookup_insert_ite, if_neg hne.symm, he]
    refine Option.isSome_iff_exists.mp ?_
    simp only [deadReplica, he, hf, setPairFd, hfd, Option.bind_eq_bind, Option.bind_some, Option.pure_def,
      Option.isSome_some]
  · have hb : partner m.cachesList fd = some e.pairFd :=
      partner_eq_some_iff.mpr ⟨e, he, hpos.le, rfl⟩
    obtain ⟨-, hne, -, f, hf⟩ := hpaired hb
    have htold {a : ℤ} {g : FdMap} (hg : m.cachesList.lookup a = some g) (h : g.status ≠ 110) :=
      exists_sharpToColon ((hs.known a g hg).told_of_status h)
    obtain ⟨str1, h₁⟩ := htold he (by rw [hP]; decide)
    obtain ⟨str2, h₂⟩ := htold hf (by
      rcases hs.status_partner hk he hf with h | h <;> rw [h.2] <;> decide)
    have hfd {g : FdMap} : (m.cachesList.insert e.pairFd g).lookup fd = some e := by
      rw [lookup_insert_ite, if_neg hne.symm, he]
    refine Option.isSome_iff_exists.mp ?_
    simp only [deadPaired, he, hf, h₁, h₂, setPairFd, setStatus, hfd, Finmap.insert_insert, Finmap.lookup_insert,
      Option.bind_eq_bind, Option.bind_some, Option.pure_def, Option.isSome_some]
  · refine Option.isSome_iff_exists.mp ?_
    simp only [deadAlone, he, Option.bind_eq_bind, Option.bind_some, Option.pure_def, Option.isSome_some]
  · exact ⟨_, rfl⟩

/-! ### What a death leaves to be settled -/

/-- On the way from `m₀`: the records are old ones, those of the caches that are alive among them, with the same
partners alive; every place has the heir that it had; and no backup that is not alive is without a primary. -/
structure Settling (alive : ℤ → Bool) (fds : Finset ℤ) (m₀ m : Master) : Prop where
  sound : m.Sound
  keyed : KeyedIn fds m.cachesList
  record : ∀ fd e, m.cachesList.lookup fd = some e →
    ∃ e₀, m₀.cachesList.lookup fd = some e₀ ∧ e.ipPort = e₀.ipPort
  kept : ∀ fd ∈ m₀.cachesList, alive fd = true → fd ∈ m.cachesList
  heirs : m.fdNode.filterMap (heir alive (partner m.cachesList)) =
    m₀.fdNode.filterMap (heir alive (partner m₀.cachesList))
  partners : ∀ fd, alive fd = true →
    (partner m.cachesList fd).filter alive = (partner m₀.cachesList fd).filter alive
  backed : ∀ fd e, m.cachesList.lookup fd = some e → alive fd = false → e.status = statusR →
    partner m.cachesList fd ≠ none

/-- One half of a pair goes, and the other half is a primary without a partner. -/
lemma Settling.part {m' : Master} {b b' : FdMap} (h : Settling alive fds m₀ m)
    (he : m.cachesList.lookup fd = some e) (hb : m.cachesList.lookup e.pairFd = some b) (hdead : alive fd = false)
    (hl : m'.cachesList = (m.cachesList.insert e.pairFd b').erase fd) (hfree : b'.pairFd = -1)
    (hport : b'.ipPort = b.ipPort) (hfd : b'.fd = b.fd) (hstatus : b'.status = statusP) (hsound : m'.Sound)
    (hheirs : m'.fdNode.filterMap (heir alive (Matching.part (partner m.cachesList) e.pairFd fd)) =
      m.fdNode.filterMap (heir alive (partner m.cachesList))) : Settling alive fds m₀ m' := by
  have hpair := partner_of_lookup_pairFd h.keyed he hb
  have hpartner : partner m'.cachesList = Matching.part (partner m.cachesList) e.pairFd fd := by
    have hnone : b'.partner = none := by
      rw [FdMap.partner, hfree]
      rfl
    rw [hl, partner_erase, partner_insert, hnone, Matching.part]
  have hlookup : ∀ a f, m'.cachesList.lookup a = some f → a ≠ fd ∧
      (a = e.pairFd ∧ f = b' ∨ a ≠ e.pairFd ∧ m.cachesList.lookup a = some f) := by
    intro a f hf
    rw [hl, lookup_erase_ite, lookup_insert_ite] at hf
    split_ifs at hf with hafd hapair
    · exact ⟨hafd, .inl ⟨hapair, (Option.some.inj hf).symm⟩⟩
    · exact ⟨hafd, .inr ⟨hapair, hf⟩⟩
  refine ⟨hsound, ?_, ?_, ?_, ?_, ?_, ?_⟩
  · rw [hl]
    have hinsert : KeyedIn fds (m.cachesList.insert e.pairFd b') := h.keyed.insert_lookup hb hfd
    intro a f hf
    rw [lookup_erase_ite] at hf
    split_ifs at hf
    exact hinsert a f hf
  · intro a f hf
    obtain ⟨-, ⟨rfl, rfl⟩ | ⟨-, hf⟩⟩ := hlookup a f hf
    · obtain ⟨e₀, he₀, hport₀⟩ := h.record _ b hb
      exact ⟨e₀, he₀, hport.trans hport₀⟩
    · exact h.record a f hf
  · intro a ha halive
    have hne : a ≠ fd := ne_of_alive halive hdead
    obtain ⟨f, hf⟩ := Finmap.mem_iff.mp (h.kept a ha halive)
    rw [hl, Finmap.mem_iff, lookup_erase_ite, if_neg hne, lookup_insert_ite]
    split_ifs
    · exact ⟨b', rfl⟩
    · exact ⟨f, hf⟩
  · rw [hpartner, hheirs, h.heirs]
  · intro a halive
    have hne : a ≠ fd := ne_of_alive halive hdead
    rw [hpartner, partner_part h.sound.matched hpair hdead hne, h.partners a halive]
  · intro a f hf ha hR
    obtain ⟨hafd, ⟨-, rfl⟩ | ⟨hapair, hf⟩⟩ := hlookup a f hf
    · rw [hstatus] at hR
      exact absurd hR (by decide)
    · rw [hpartner, Matching.part, Function.update_of_ne hafd, Function.update_of_ne hapair]
      exact h.backed a f hf ha hR

/-- A cache without a partner goes. -/
lemma Settling.alone {m' : Master} (h : Settling alive fds m₀ m) (hdead : alive fd = false)
    (hfree : partner m.cachesList fd = none) (hl : m'.cachesList = m.cachesList.erase fd) (hsound : m'.Sound)
    (hheirs : m'.fdNode.filterMap (heir alive (partner m.cachesList)) =
      m.fdNode.filterMap (heir alive (partner m.cachesList))) : Settling alive fds m₀ m' := by
  have hpartner : partner m'.cachesList = partner m.cachesList := by
    rw [hl, partner_erase, ← hfree, Function.update_eq_self]
  have hlookup : ∀ a f, m'.cachesList.lookup a = some f → m.cachesList.lookup a = some f := by
    intro a f hf
    rw [hl, lookup_erase_ite] at hf
    split_ifs at hf
    exact hf
  refine ⟨hsound, fun a f hf => h.keyed a f (hlookup a f hf), fun a f hf => h.record a f (hlookup a f hf), ?_,
    by rw [hpartner, hheirs, h.heirs], fun a ha => by rw [hpartner, h.partners a ha], fun a f hf => ?_⟩
  · intro a ha halive
    have hne : a ≠ fd := ne_of_alive halive hdead
    obtain ⟨f, hf⟩ := Finmap.mem_iff.mp (h.kept a ha halive)
    rw [hl, Finmap.mem_iff, lookup_erase_ite, if_neg hne]
    exact ⟨f, hf⟩
  · rw [hpartner]
    exact h.backed a f (hlookup a f hf)

/-- **A death** settles one cache and leaves the outcome as it is. -/
lemma Settling.dead (h : Settling alive fds m₀ m) (hdead : alive fd = false) (hd : m.Dead fd out) :
    Settling alive fds m₀ { out.master with cachesList := out.master.cachesList.erase fd } := by
  have hsound := h.sound.dead h.keyed hd
  cases hd with
  | @replica e b he hstatus hb =>
    have hP : b.status = statusP := by
      rcases h.sound.status_partner h.keyed he hb with hroles | hroles
      · rw [hstatus] at hroles
        exact absurd hroles.1 (by decide)
      · exact hroles.2
    refine h.part he hb hdead rfl rfl rfl rfl hP hsound (List.filterMap_congr fun a ha => ?_)
    have hne : a ≠ fd := h.sound.ne_of_status he (by rw [hstatus]; decide) a ha
    exact heir_part h.sound.matched (partner_of_lookup_pairFd h.keyed he hb) hdead hne
  | @paired e b _ _ he hstatus hpos hne hb =>
    have hpair := partner_of_lookup_pairFd h.keyed he hb
    refine h.part he hb hdead rfl rfl rfl rfl rfl hsound ?_
    dsimp only
    by_cases hmem : fd ∈ m.fdNode
    · exact filterMap_set_idxOf h.sound.nodup hmem (heir_taken h.sound.matched hpair hdead)
        fun a _ ha => heir_part h.sound.matched hpair hdead ha
    · rw [List.set_eq_of_length_le (List.idxOf_eq_length_iff.mpr hmem).ge]
      exact List.filterMap_congr fun a ha =>
        heir_part h.sound.matched hpair hdead (ne_of_mem_of_not_mem ha hmem)
  | @alone e he hstatus hpair hmem =>
    have hfree := h.sound.partner_eq_none h.keyed he hpair
    exact h.alone hdead hfree rfl hsound (filterMap_erase_of_none (heir_alone hdead hfree))
  | @stray e he hstatus hpair hmem =>
    exact h.alone hdead (h.sound.partner_eq_none h.keyed he hpair) rfl hsound rfl
  | @other e he hP hR =>
    have hfree : partner m.cachesList fd = none := by
      rw [Option.eq_none_iff_forall_ne_some]
      intro b hb
      have hfit := h.sound.matched.fit hb
      rw [role_of_lookup he] at hfit
      simp [Opposite, hP, hR] at hfit
    exact h.alone hdead hfree rfl hsound rfl

/-! ### Passes -/

/-- A pass comes to every cache of `m₀`, and the times tell those that are alive from the others. -/
structure Watch.Sees (alive : ℤ → Bool) (m₀ : Master) (w : Watch) : Prop where
  all : ∀ fd ∈ m₀.cachesList, ∃ t, (t, fd) ∈ w.order
  alive_iff : ∀ t fd e, (t, fd) ∈ w.order → m₀.cachesList.lookup fd = some e →
    (t - (w.times.lookup e.ipPort).getD 0 < heartBeatInterval ↔ alive fd = true)

/-- The caches whose death is still to be handled. -/
def unsettled (alive : ℤ → Bool) (m : Master) : Finset ℤ := m.cachesList.keys.filter fun fd => alive fd = false

/-- The times have no part in what is settled. -/
lemma Settling.setTimes (h : Settling alive fds m₀ m) (times : Map Str ℤ) :
    Settling alive fds m₀ { m with cacheAddrMap := times } :=
  ⟨⟨h.sound.known, h.sound.matched, h.sound.nodup, h.sound.primary⟩, h.keyed, h.record, h.kept, h.heirs,
    h.partners, h.backed⟩

/-- What the loop of a pass finds at a cache. -/
lemma Settling.verdict (h : Settling alive fds m₀ m) (hw : w.Sees alive m₀) (hmem : (t, fd) ∈ w.order)
    (htimes : m.cacheAddrMap = w.times) (he : m.cachesList.lookup fd = some e) :
    m.heartBeatDetect t fd = some (alive fd) := by
  obtain ⟨e₀, he₀, hport⟩ := h.record fd e he
  have hiff := hw.alive_iff t fd e₀ hmem he₀
  rw [heartBeatDetect, he, Option.bind_eq_bind, Option.bind_some, htimes, hport, Option.pure_def,
    Option.some.injEq, Bool.eq_iff_iff, decide_eq_true_iff]
  exact hiff

/-- The death that a pass handles. -/
lemma Settling.periodicDetectCache (h : Settling alive fds m₀ m) (he : m.cachesList.lookup fd = some e)
    (hdead : alive fd = false) (hverdict : m.heartBeatDetect t fd = some false) : ∃ out, m.Dead fd out ∧
      m.periodicDetectCache t fd = some { out with
        master := { out.master with cachesList := out.master.cachesList.erase fd } } := by
  obtain ⟨hfd, hpos, -⟩ := h.keyed fd e he
  obtain ⟨out, hout⟩ := h.sound.exists_dead h.keyed he (h.backed fd e he hdead)
  have hkey : ∀ a ∈ m.cachesList, 0 < a := fun a ha => by
    obtain ⟨f, hf⟩ := Finmap.mem_iff.mp ha
    exact (h.keyed a f hf).2.1
  refine ⟨out, dead_cases hkey hout, ?_⟩
  simp only [Master.periodicDetectCache, he, hfd, hverdict, hout, Option.bind_eq_bind, Option.bind_some,
    Bool.false_eq_true, if_false, gt_iff_lt, hpos, if_true, Option.pure_def]

/-- A pass over some of the caches: it finds them all alive, or handles the death of one. -/
lemma Settling.detectPass (h : Settling alive fds m₀ m) (hw : w.Sees alive m₀)
    (htimes : m.cacheAddrMap = w.times) (hall : ∀ x ∈ order, x ∈ w.order ∧ x.2 ∈ m.cachesList) :
    (∀ x ∈ order, alive x.2 = true) ∧ m.detectPass order = some { master := m } ∨
      ∃ fd ∈ m.cachesList, alive fd = false ∧ ∃ out, m.Dead fd out ∧ m.detectPass order = some { out with
        master := { out.master with cachesList := out.master.cachesList.erase fd } } := by
  induction order with
  | nil => exact .inl ⟨fun x hx => absurd hx List.not_mem_nil, rfl⟩
  | cons x order ih =>
    obtain ⟨t, fd⟩ := x
    obtain ⟨hmem, hfd⟩ := hall _ List.mem_cons_self
    obtain ⟨e, he⟩ := Finmap.mem_iff.mp hfd
    have hverdict := h.verdict hw hmem htimes he
    cases halive : alive fd with
    | true =>
      rw [halive] at hverdict
      rw [detectPass_alive h.keyed he hverdict]
      refine (ih fun x hx => hall x (List.mem_cons_of_mem _ hx)).imp_left fun ⟨hrest, hpass⟩ => ⟨?_, hpass⟩
      intro x hx
      rcases List.mem_cons.mp hx with rfl | hx
      · exact halive
      · exact hrest x hx
    | false =>
      rw [halive] at hverdict
      rw [detectPass_dead h.keyed he hverdict]
      obtain ⟨out, hd, hout⟩ := h.periodicDetectCache he halive hverdict
      exact .inr ⟨fd, hfd, halive, out, hd, hout⟩

/-- A death takes one cache off those to be settled. -/
lemma Dead.card_unsettled (hd : m.Dead fd out) (hfd : fd ∈ m.cachesList) (hdead : alive fd = false) :
    (unsettled alive { out.master with cachesList := out.master.cachesList.erase fd }).card + 1 =
      (unsettled alive m).card := by
  have herase : unsettled alive { out.master with cachesList := out.master.cachesList.erase fd } =
      (unsettled alive m).erase fd := by
    ext a
    simp only [Master.unsettled, Finset.mem_filter, Finset.mem_erase, Finmap.mem_keys, Finmap.mem_erase,
      hd.mem_iff]
    tauto
  have hmem : fd ∈ unsettled alive m :=
    Finset.mem_filter.mpr ⟨Finmap.mem_keys.mpr hfd, hdead⟩
  rw [herase, Finset.card_erase_add_one hmem]

/-- As many passes as there are deaths settle them. -/
lemma Settling.passes {ws : List Watch} (h : Settling alive fds m₀ m) (hw : ∀ w ∈ ws, w.Sees alive m₀)
    (hlen : (unsettled alive m).card ≤ ws.length) : ∃ m', m.passes ws = some m' ∧
      Settling alive fds m₀ m' ∧ ∀ fd ∈ m'.cachesList, alive fd = true := by
  induction ws generalizing m with
  | nil =>
    refine ⟨m, rfl, h, fun fd hfd => ?_⟩
    have hempty := Finset.card_eq_zero.mp (Nat.le_zero.mp hlen)
    by_contra halive
    rw [Bool.not_eq_true] at halive
    have hmem : fd ∈ unsettled alive m := Finset.mem_filter.mpr ⟨Finmap.mem_keys.mpr hfd, halive⟩
    rw [hempty] at hmem
    exact absurd hmem (Finset.notMem_empty fd)
  | cons w ws ih =>
    have hsees := hw w List.mem_cons_self
    have hrest : ∀ x ∈ ws, x.Sees alive m₀ := fun x hx => hw x (List.mem_cons_of_mem _ hx)
    have h₁ := h.setTimes w.times
    have hall : ∀ x ∈ w.order.filter fun x => x.2 ∈ m.cachesList, x ∈ w.order ∧ x.2 ∈ m.cachesList :=
      fun x hx => by simpa using List.mem_filter.mp hx
    rw [Master.passes]
    obtain ⟨halive, hpass⟩ | ⟨fd, hfd, hdead, out, hd, hpass⟩ := h₁.detectPass hsees rfl hall
    · -- nobody is left to die
      rw [Option.bind_eq_bind, hpass, Option.bind_some]
      refine ih h₁ hrest ?_
      have hempty : unsettled alive { m with cacheAddrMap := w.times } = ∅ := by
        refine Finset.filter_eq_empty_iff.mpr fun fd hfd => ?_
        obtain ⟨t, ht⟩ := hsees.all fd (by
          obtain ⟨e, he⟩ := Finmap.mem_iff.mp (Finmap.mem_keys.mp hfd)
          obtain ⟨e₀, he₀, -⟩ := h.record fd e he
          exact Finmap.mem_of_lookup_eq_some he₀)
        rw [halive (t, fd) (List.mem_filter.mpr ⟨ht, by simpa using Finmap.mem_keys.mp hfd⟩)]
        exact Bool.false_ne_true.symm
      rw [hempty]
      exact Nat.zero_le _
    · rw [Option.bind_eq_bind, hpass, Option.bind_some]
      refine ih (h₁.dead hdead hd) hrest ?_
      have hcard := hd.card_unsettled hfd hdead
      exact Nat.le_of_succ_le_succ (hcard.trans_le hlen)

end Master

namespace World

variable {w : World} {alive : ℤ → Bool} {ws : List Master.Watch}

open Master

/-- **Passes.**  From a state that the master reaches with only time between the halves of a shrink (`Atomic`)
and while what is taken off its stacks waits (`PopsSound`): whatever the orders in which the passes come to
the caches, when all of them find the same caches alive, as many passes as there are other caches handle all
their deaths.  Those that are alive are left, with the partners that are alive, and every place in `fd_node`
is held by the primary that had it, when that is alive, by its backup, when only that one is, and is gone
otherwise.  (A backup without a primary must not be among the dead: its death brings the master down.) -/
theorem passes_settle (h : Reach Init step (fun w e => Atomic w e ∧ PopsSound w e) w)
    (hbacked : ∀ fd e, w.master.cachesList.lookup fd = some e → alive fd = false → e.status = statusR →
      partner w.master.cachesList fd ≠ none)
    (hsees : ∀ x ∈ ws, x.Sees alive w.master) (hlen : (unsettled alive w.master).card ≤ ws.length) :
    ∃ m', w.master.passes ws = some m' ∧
      (∀ fd, fd ∈ m'.cachesList ↔ fd ∈ w.master.cachesList ∧ alive fd = true) ∧
      m'.fdNode = w.master.fdNode.filterMap (heir alive (partner w.master.cachesList)) ∧
      (∀ fd ∈ m'.fdNode, role m'.cachesList fd = some statusP) ∧
      ∀ fd ∈ m'.cachesList, partner m'.cachesList fd = (partner w.master.cachesList fd).filter alive := by
  have h₀ : Settling alive w.openFds w.master w.master :=
    ⟨sound_of_reach h, keyed_of_reach h, fun fd e he => ⟨e, he, rfl⟩, fun fd hfd _ => hfd, rfl,
      fun fd _ => rfl, hbacked⟩
  obtain ⟨m', hm', hi, halive⟩ := h₀.passes hsees hlen
  refine ⟨m', hm', fun fd => ⟨fun hfd => ⟨?_, halive fd hfd⟩, fun hfd => hi.kept fd hfd.1 hfd.2⟩, ?_,
    hi.sound.primary, fun fd hfd => ?_⟩
  · obtain ⟨e, he⟩ := Finmap.mem_iff.mp hfd
    obtain ⟨e₀, he₀, -⟩ := hi.record fd e he
    exact Finmap.mem_of_lookup_eq_some he₀
  · rw [← hi.heirs, filterMap_heir_of_alive fun fd hfd => ?_]
    obtain ⟨e, he, -⟩ := Option.map_eq_some_iff.mp (hi.sound.primary fd hfd)
    exact halive fd (Finmap.mem_of_lookup_eq_some he)
  · rw [← hi.partners fd (halive fd hfd)]
    cases hpair : partner m'.cachesList fd with
    | none => rfl
    | some b =>
      obtain ⟨f, hf, -⟩ := partner_eq_some_iff.mp (hi.sound.matched.symm hpair)
      exact (Option.filter_some_pos (halive b (Finmap.mem_of_lookup_eq_some hf))).symm

/-- Two pairs. -/
def twoPairs : List Event :=
  joinPair ++ [.accept 7, .receive 7 (lit "x#127.0.0.1#8003#9003#P"), .accept 8,
    .receive 8 (lit "x#127.0.0.1#8004#9004#R")]

/-- Only the second backup has been heard of. -/
def lastOneHeard : Master.Watch :=
  ⟨Finmap.singleton (lit "127.0.0.1#8004") 1638316805,
    [(1638316806, 8), (1638316806, 6), (1638316806, 7), (1638316806, 5)]⟩

/-- Three deaths, a backup's before its primary's and a primary's with a backup: one place is left. -/
theorem passes_settle_twoPairs : ∃ w m',
    path step (fun w e => Atomic w e ∧ PopsSound w e) (start 1638316800) twoPairs = some w ∧
    w.master.passes [lastOneHeard, lastOneHeard, lastOneHeard] = some m' ∧ m'.fdNode = [8] := by
  have hrun : (path step (fun w e => Atomic w e ∧ PopsSound w e) (start 1638316800) twoPairs).map (fun w =>
      decide (w.master.cachesList.keys = {5, 6, 7, 8} ∧ w.master.fdNode = [5, 7] ∧
        [5, 6, 7, 8].map (fun fd => (w.master.cachesList.lookup fd).map FdMap.ipPort) =
          [some (lit "127.0.0.1#8001"), some (lit "127.0.0.1#8002"), some (lit "127.0.0.1#8003"),
            some (lit "127.0.0.1#8004")] ∧
        [5, 6, 7, 8].map (partner w.master.cachesList) = [some 6, some 5, some 8, some 7])) = some true := by
    decide +kernel
  obtain ⟨w, hw, hf⟩ := Option.map_eq_some_iff.mp hrun
  simp only [decide_eq_true_eq, List.map_cons, List.map_nil, List.cons.injEq, and_true] at hf
  obtain ⟨hkeys, hnode, ⟨h5, h6, h7, h8⟩, p5, p6, p7, p8⟩ := hf
  have hmem : ∀ fd, fd ∈ w.master.cachesList → fd = 5 ∨ fd = 6 ∨ fd = 7 ∨ fd = 8 := fun fd hfd => by
    simpa [hkeys] using Finmap.mem_keys.mpr hfd
  have hport {fd : ℤ} {e : FdMap} {s : Str} (he : w.master.cachesList.lookup fd = some e)
      (h : (w.master.cachesList.lookup fd).map FdMap.ipPort = some s) : e.ipPort = s := by
    rw [he] at h
    exact Option.some.inj h
  have hsees : lastOneHeard.Sees (fun fd => fd == 8) w.master := by
    refine ⟨fun fd hfd => ⟨1638316806, ?_⟩, fun t fd e ht he => ?_⟩
    · rcases hmem fd hfd with rfl | rfl | rfl | rfl <;> decide
    · simp only [lastOneHeard, List.mem_cons, List.not_mem_nil, or_false, Prod.mk.injEq] at ht
      obtain ⟨rfl, rfl⟩ | ⟨rfl, rfl⟩ | ⟨rfl, rfl⟩ | ⟨rfl, rfl⟩ := ht
      · rw [hport he h8]
        decide
      · rw [hport he h6]
        decide
      · rw [hport he h7]
        decide
      · rw [hport he h5]
        decide
  obtain ⟨m', hm', -, hfinal, -⟩ := passes_settle (reach_of_path ⟨_, rfl⟩ hw)
    (fun fd e he hdead hstatus => by
      rcases hmem fd (Finmap.mem_of_lookup_eq_some he) with rfl | rfl | rfl | rfl
      · rw [p5]
        nofun
      · rw [p6]
        nofun
      · rw [p7]
        nofun
      · rw [p8]
        nofun)
    (fun x hx => by
      have hx : x = lastOneHeard := by simpa using hx
      exact hx ▸ hsees)
    (show (unsettled (fun fd => fd == 8) w.master).card ≤ [lastOneHeard, lastOneHeard, lastOneHeard].length by
      rw [unsettled, hkeys]
      decide)
  have hfirst : heir (fun fd => fd == 8) (partner w.master.cachesList) 5 = none := by
    rw [heir, p5]
    decide
  have hsecond : heir (fun fd => fd == 8) (partner w.master.cachesList) 7 = some 8 := by
    rw [heir, p7]
    decide
  refine ⟨w, m', hw, hm', ?_⟩
  rw [hfinal, hnode, List.filterMap_cons, hfirst, List.filterMap_cons, hsecond]
  rfl

end World

end DistCache
