import DistCache.Master.World

/-!
The connections that are open and the records of the master.

A record is made when a connection is accepted, and goes when its cache is found dead.  A connection
without a role is found dead as well, before its first heartbeat or after one with an unknown role; its
record goes and the connection stays open.  That is the only way to lose a record of an open connection
(`registered_iff`).
-/

namespace DistCache

open Lib

namespace Master

variable {m : Master} {fd : ℤ} {out : Out} {f : FdMap}

/-- The death of a cache with a role closes its connection. -/
lemma Dead.mem_closed (hd : m.Dead fd out)
    (hrole : ∀ e ∈ m.cachesList.lookup fd, e.status = statusP ∨ e.status = statusR) :
    fd ∈ out.closed := by
  cases hd with
  | replica | paired | alone | stray => exact List.mem_singleton_self fd
  | other he hP hR =>
    rcases hrole _ he with h | h
    · exact absurd h hP
    · exact absurd h hR

/-- The death of a cache without a role leaves it open. -/
lemma Dead.closed_eq_nil (hd : m.Dead fd out)
    (hf : m.cachesList.lookup fd = some f) (hP : f.status ≠ statusP) (hR : f.status ≠ statusR) :
    out.closed = [] := by
  have hsame : ∀ {g : FdMap}, m.cachesList.lookup fd = some g → g = f := fun hg =>
    Option.some.inj (hg.symm.trans hf)
  cases hd with
  | replica he hs => exact absurd (hsame he ▸ hs) hR
  | paired he hs => exact absurd (hsame he ▸ hs) hP
  | alone he hs => exact absurd (hsame he ▸ hs) hP
  | stray he hs => exact absurd (hsame he ▸ hs) hP
  | other => rfl

end Master

namespace World

variable {w w' : World} {fd : ℤ} {e : Event} {ok : World → Event → Prop}

/-- Every open connection has a record. -/
def Registered (w : World) : Prop := ∀ fd ∈ w.openFds, fd ∈ w.master.cachesList

/-- A cache that is found dead has said what it is. -/
def DeadHasRole (w : World) : Event → Prop
  | .detect fd => w.master.heartBeatDetect w.timeNow fd = some false →
      ∀ e ∈ w.master.cachesList.lookup fd, e.status = statusP ∨ e.status = statusR
  | _ => True

instance decidableDeadHasRole (w : World) : (e : Event) → Decidable (w.DeadHasRole e)
  | .detect fd => inferInstanceAs (Decidable (w.master.heartBeatDetect w.timeNow fd = some false →
      ∀ e ∈ w.master.cachesList.lookup fd, e.status = statusP ∨ e.status = statusR))
  | .accept _ | .receive _ _ | .shrinkBegin | .shrinkEnd | .tick => isTrue trivial

lemma Registered.step (hk : w.Keyed) (hreg : w.Registered) (hrole : w.DeadHasRole e)
    (h : w.step e = some w') : w'.Registered := by
  cases e with
  | accept fd =>
    obtain ⟨-, -, rfl⟩ := step_accept h
    intro a ha
    refine Finmap.mem_insert.mpr ?_
    rcases Finset.mem_insert.mp ha with rfl | ha
    · exact .inl rfl
    · exact .inr (hreg a ha)
  | receive fd msg =>
    obtain ⟨-, ⟨-, rfl⟩ | ⟨-, m, am, hh, rfl⟩⟩ := step_receive h
    · exact hreg
    · exact fun a ha => hh.mem_iff.mpr (hreg a ha)
  | detect fd =>
    rcases step_detect hk h with ⟨-, rfl⟩ | ⟨hdead, out, hd, rfl⟩
    · exact hreg
    · intro a ha
      obtain ⟨ha, hopen⟩ := Finset.mem_sdiff.mp ha
      have hclosed := hd.mem_closed (hrole hdead)
      have hne : a ≠ fd := fun heq => hopen (List.mem_toFinset.mpr (heq ▸ hclosed))
      exact Finmap.mem_erase.mpr ⟨hne, hd.mem_iff.mpr (hreg a ha)⟩
  | shrinkBegin =>
    obtain ⟨-, sh, e, -, -, -, rfl⟩ := step_shrinkBegin h
    intro a ha
    exact hreg a ha
  | shrinkEnd =>
    obtain ⟨sh, out, -, -, hend, rfl⟩ := step_shrinkEnd h
    intro a hleft
    obtain ⟨ha, hopen⟩ := Finset.mem_sdiff.mp hleft
    obtain ⟨-, e, -, ⟨-, -, rfl⟩ | ⟨-, rfl⟩⟩ := Master.shrinkEnd_cases hend
    · rw [List.mem_toFinset, List.mem_cons, List.mem_singleton, not_or] at hopen
      exact Finmap.mem_erase.mpr ⟨hopen.2, Finmap.mem_erase.mpr ⟨hopen.1, hreg a ha⟩⟩
    · rw [List.mem_toFinset, List.mem_singleton] at hopen
      exact Finmap.mem_erase.mpr ⟨hopen, hreg a ha⟩
  | tick =>
    cases h
    exact hreg

theorem registered_of_reach (h : Reach Init step DeadHasRole w) : w.Registered := by
  refine h.invariant (I := Registered) ?_ fun _ _ _ hr hi hok hs => hi.step (keyed_of_reach hr) hok hs
  rintro _ ⟨t₀, rfl⟩ a ha
  exact absurd ha (Finset.notMem_empty a)

/-- **Open connections are registered** as long as every cache that is found dead has a role: whenever a
message is read from a connection, the master has a record of it.  The first pass that finds a cache
without a role ends it. -/
theorem registered_iff (h : Reach Init step DeadHasRole w) :
    (∀ fd ∈ w.openFds, fd ∈ w.master.cachesList) ∧
      ∀ ev w', w.step ev = some w' →
        (w.DeadHasRole ev ↔ ∀ fd ∈ w'.openFds, fd ∈ w'.master.cachesList) := by
  have hreg := registered_of_reach h
  refine ⟨hreg, fun ev w' hstep => ⟨fun hrole => registered_of_reach (h.next hrole hstep), ?_⟩⟩
  intro hreg'
  cases ev with
  | detect fd =>
    intro hdead f hf
    rcases step_detect (keyed_of_reach h) hstep with ⟨halive, -⟩ | ⟨-, out, hd, rfl⟩
    · rw [hdead] at halive
      cases halive
    · by_contra hno
      rw [not_or] at hno
      have hopen : fd ∈ w.openFds := (keyed_of_reach h fd f hf).2.2
      have hmem := hreg' fd (by rw [hd.closed_eq_nil hf hno.1 hno.2]; simpa using hopen)
      exact (Finmap.mem_erase.mp hmem).1 rfl
  | _ => trivial

/-- A primary is heard and dies; its connection is closed. -/
theorem registered_iff_death : ∃ w, path step DeadHasRole (start 1638316800)
    ([.accept 5, .accept 6, .receive 5 (lit "x#127.0.0.1#8001#9001#P"),
      .receive 6 (lit "x#127.0.0.1#8002#9002#P")] ++ List.replicate 5 .tick ++ [.detect 5]) = some w ∧
    6 ∈ w.openFds ∧ 6 ∈ w.master.cachesList := by
  have hrun : (path step DeadHasRole (start 1638316800)
      ([.accept 5, .accept 6, .receive 5 (lit "x#127.0.0.1#8001#9001#P"),
        .receive 6 (lit "x#127.0.0.1#8002#9002#P")] ++ List.replicate 5 .tick ++ [.detect 5])).map
      (fun w => w.openFds) = some {6} := by
    decide +kernel
  obtain ⟨w, hw, hopen⟩ := Option.map_eq_some_iff.mp hrun
  have hmem : (6 : ℤ) ∈ w.openFds := by
    rw [hopen]
    exact Finset.mem_singleton_self 6
  exact ⟨w, hw, hmem, (registered_iff (reach_of_path ⟨_, rfl⟩ hw)).1 6 hmem⟩

/-- A pass comes between `accept` and the first heartbeat: the record goes, the connection stays open,
and the heartbeat finds no record. -/
theorem heartbeat_not_registered : ∃ w, Reach Init step (fun _ _ => True) w ∧ (5 : ℤ) ∈ w.openFds ∧
    w.master.cachesList.lookup 5 = none ∧
      w.step (.receive 5 (lit "x#127.0.0.1#8001#9001#P")) = none := by
  have hrun : (path step (fun _ _ => True) (start 1638316800) [.accept 5, .detect 5]).map
      (fun w => (w.openFds, (w.master.cachesList.lookup 5).isNone,
        (w.step (.receive 5 (lit "x#127.0.0.1#8001#9001#P"))).isNone)) = some ({5}, true, true) := by
    decide +kernel
  obtain ⟨w, hw, hf⟩ := Option.map_eq_some_iff.mp hrun
  rw [Prod.mk.injEq, Prod.mk.injEq, Option.isNone_iff_eq_none, Option.isNone_iff_eq_none] at hf
  refine ⟨w, reach_of_path ⟨_, rfl⟩ hw, ?_, hf.2⟩
  rw [hf.1]
  exact Finset.mem_singleton_self 5

end World

end DistCache
