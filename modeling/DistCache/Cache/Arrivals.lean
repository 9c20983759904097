import Mathlib.Data.List.Forall2
import DistCache.Cache.Migration

/-!
What arrives of a migration.

`to_single_cache` sends what `get` gives it.  For a key that a client write has evicted since the snapshot
that is the empty default value, and the cache at the other end stores it like any other.  `Audit` keeps,
beside the messages, what the store held when each of them was made.
-/

namespace DistCache

open Lib

/-- A dying cache, and for each entry that it has sent, the latest first, its key and what the store held
for it. -/
structure Audit where
  migration : Migration
  read : List (Str × Option Str)

namespace Migration

variable {m : Migration} {e : Event}

/-- The key whose turn it is. -/
def turnKey (m : Migration) : Option Str :=
  match m.phase with
  | .sending i => m.cache.outKey[i]?
  | _ => none

/-- What the event reads of the store for a message. -/
def seen (m : Migration) (e : Event) : List (Str × Option Str) :=
  match e, m.turnKey with
  | .send, some key => [(key, m.cache.mainCache.lookup key)]
  | _, _ => []

/-- A key whose entry is sent is still in the store. -/
def TurnHeld (m : Migration) (e : Event) : Prop :=
  ∀ r ∈ m.seen e, r.1 ∈ m.cache.mainCache.keys

instance decidableTurnHeld (m : Migration) (e : Event) : Decidable (m.TurnHeld e) :=
  decidable_of_iff (∀ r ∈ m.seen e, m.cache.mainCache.keys.contains r.1 = true)
    (forall₂_congr fun _ _ => List.contains_iff_mem)

/-- The keys of the store and of the snapshot have no separator in them. -/
structure SharpFree (m : Migration) : Prop where
  keys : ∀ k ∈ m.cache.mainCache.keys, sharp ∉ k
  outKey : m.phase ≠ .start → ∀ k ∈ m.cache.outKey, sharp ∉ k

end Migration

namespace Audit

variable {a a' : Audit} {m m' : Migration} {e : Migration.Event} {message : Str}

/-- The dying cache, and what is noted of its reads. -/
def step (a : Audit) (e : Migration.Event) : Option Audit :=
  (a.migration.step e).map fun m => ⟨m, a.migration.seen e ++ a.read⟩

/-- A cache that begins to die.  The keys of a store come from requests, up to the first separator. -/
def Init (a : Audit) : Prop :=
  Migration.Init a.migration ∧ (∀ k ∈ a.migration.cache.mainCache.keys, sharp ∉ k) ∧ a.read = []

/-- Every entry that `from_single_cache` stores when it receives the message is the one that was read. -/
def Genuine (message : Str) (r : Str × Option Str) : Prop :=
  ∀ c c' : Cache, c.fromSingleCache message = some c' →
    ∃ v, r.2 = some v ∧ c'.mainCache = (c.mainCache.put r.1 v).2

/-- All messages are genuine. -/
def AllGenuine (a : Audit) : Prop :=
  List.Forall₂ (fun s r => Genuine s.2 r) a.migration.sent a.read

/-- The key whose entry is sent is still in the store. -/
def TurnHeld (a : Audit) (e : Migration.Event) : Prop := a.migration.TurnHeld e

instance decidableTurnHeld (a : Audit) (e : Migration.Event) : Decidable (a.TurnHeld e) :=
  inferInstanceAs (Decidable (a.migration.TurnHeld e))

end Audit

/-! ### Keys without separators -/

/-- A request keeps the keys of a store free of separators. -/
lemma Cache.sharpFree_clientChat {c c' : Cache} {message buffer : Str}
    (hc : ∀ k ∈ c.mainCache.keys, sharp ∉ k) (h : c.clientChat message = some (c', buffer)) :
    ∀ k ∈ c'.mainCache.keys, sharp ∉ k := by
  obtain ⟨mc, rfl, ⟨-, -, hlookup⟩ | ⟨key, val, hwrite, rfl⟩⟩ := Cache.clientChat_cases h
  · intro k hk
    obtain ⟨v, hv⟩ := LruCache.exists_lookup hk
    exact hc k (LruCache.mem_keys_of_lookup ((hlookup k).symm.trans hv))
  · intro k hk
    obtain ⟨v, hv⟩ := LruCache.exists_lookup hk
    rcases LruCache.lookup_put hv with ⟨rfl, -⟩ | ⟨-, hold⟩
    · exact sharp_not_mem_of_writeOf hwrite
    · exact hc k (LruCache.mem_keys_of_lookup hold)

namespace Migration

variable {m m' : Migration} {e : Event}

lemma SharpFree.step (hm : m.SharpFree) (h : m.step e = some m') : m'.SharpFree := by
  cases e with
  | client message =>
    obtain ⟨-, hserve⟩ := step_client h
    simp only [serve, Option.bind_eq_bind, Option.bind_eq_some_iff, Option.pure_def,
      Option.some.injEq] at hserve
    obtain ⟨⟨c, buffer⟩, hc, rfl⟩ := hserve
    have hkeys := Cache.sharpFree_clientChat hm.keys hc
    obtain ⟨mc, rfl, -⟩ := Cache.clientChat_cases hc
    exact ⟨hkeys, hm.outKey⟩
  | snapshot keys =>
    obtain ⟨-, hperm, c, hmain, hout, -, -, rfl⟩ := step_snapshot h
    refine ⟨?_, fun _ => ?_⟩
    · dsimp only
      rw [hmain]
      exact hm.keys
    · dsimp only
      rw [hout]
      exact fun k hk => hm.keys k (hperm.mem_iff.mp hk)
  | send =>
    obtain ⟨i, address, key, hphase, -, -, rfl⟩ := step_send h
    refine ⟨fun k hk => ?_, fun _ => hm.outKey (by simp [hphase])⟩
    obtain ⟨v, hv⟩ := LruCache.exists_lookup hk
    rw [Cache.lookup_toSingleCache] at hv
    exact hm.keys k (LruCache.mem_keys_of_lookup hv)
  | exit =>
    obtain ⟨i, hphase, -, rfl⟩ := step_exit h
    exact ⟨hm.keys, fun _ => hm.outKey (by simp [hphase])⟩

/-- A turn notes the key whose entry it sends. -/
lemma seen_send (h : m.step .send = some m') : ∃ address key,
    key ∈ m.cache.outKey ∧ m.phase ≠ .start ∧
    m.seen .send = [(key, m.cache.mainCache.lookup key)] ∧
    m'.sent = (address, key ++ sharp :: (m.cache.mainCache.lookup key).getD []) :: m.sent := by
  obtain ⟨i, address, key, hphase, -, hkey, rfl⟩ := step_send h
  refine ⟨address, key, List.mem_of_getElem? hkey, by simp [hphase], ?_, ?_⟩
  · unfold seen turnKey
    rw [hphase]
    dsimp only
    rw [hkey]
  · dsimp only
    rw [Cache.toSingleCache_fst]

/-- The other events send nothing and note nothing. -/
lemma sent_of_step (h : m.step e = some m') (he : e ≠ .send) : m'.sent = m.sent ∧ m.seen e = [] := by
  cases e with
  | client message =>
    obtain ⟨mc, rfl, -⟩ := serve_cases (step_client h).2
    exact ⟨rfl, rfl⟩
  | snapshot keys =>
    obtain ⟨-, -, c, -, -, -, -, rfl⟩ := step_snapshot h
    exact ⟨rfl, rfl⟩
  | send => exact absurd rfl he
  | exit =>
    obtain ⟨i, -, -, rfl⟩ := step_exit h
    exact ⟨rfl, rfl⟩

end Migration

namespace Audit

variable {a a' : Audit} {e : Migration.Event}

/-- The message that is made of what `get` gives is genuine when there was an entry. -/
lemma genuine_iff {key : Str} (hfree : sharp ∉ key) (o : Option Str) :
    Genuine (key ++ sharp :: o.getD []) (key, o) ↔ o.isSome = true := by
  constructor
  · intro h
    obtain ⟨v, hv, -⟩ := h (Cache.new 10 (lit "P") [] [] []) _ (Cache.fromSingleCache_append hfree _)
    rw [show o = some v from hv]
    rfl
  · intro h c c' hc
    obtain ⟨v, rfl⟩ := Option.isSome_iff_exists.mp h
    rw [Option.getD_some, Cache.fromSingleCache_append hfree, Option.some.injEq] at hc
    exact ⟨v, rfl, by rw [← hc]⟩

/-- A step keeps the messages genuine, unless it sends the entry of a key that is gone. -/
lemma allGenuine_step (hm : a.migration.SharpFree) (h : a.step e = some a') :
    a'.AllGenuine ↔ a.AllGenuine ∧ a.TurnHeld e := by
  obtain ⟨m, hstep, rfl⟩ := Option.map_eq_some_iff.mp h
  unfold AllGenuine TurnHeld Migration.TurnHeld
  by_cases he : e = .send
  · subst he
    obtain ⟨address, key, hkey, hphase, hseen, hsent⟩ := Migration.seen_send hstep
    dsimp only
    rw [hsent, hseen, List.singleton_append, List.forall₂_cons,
      genuine_iff (hm.outKey hphase key hkey), ← LruCache.mem_keys_iff, and_comm]
    simp
  · obtain ⟨hsent, hseen⟩ := Migration.sent_of_step hstep he
    dsimp only
    rw [hsent, hseen]
    simp

/-- In the runs in which no key is gone when its turn comes, the messages are genuine. -/
lemma allGenuine_of_reach (h : Reach Init step TurnHeld a) : a.migration.SharpFree ∧ a.AllGenuine := by
  refine h.invariant (I := fun a => a.migration.SharpFree ∧ a.AllGenuine) ?_ fun a e a' _ hi hok hs => ?_
  · rintro a ⟨⟨-, hphase, hsent, -⟩, hfree, hread⟩
    refine ⟨⟨hfree, fun hne => absurd hphase hne⟩, ?_⟩
    rw [AllGenuine, hsent, hread]
    exact .nil
  · obtain ⟨m, hstep, rfl⟩ := Option.map_eq_some_iff.mp hs
    exact ⟨hi.1.step hstep, (allGenuine_step hi.1 hs).mpr ⟨hi.2, hok⟩⟩

/-- **Arrivals.**  While no key is gone from the store of the dying cache when its turn comes, every entry
that a receiver stores is one that the dying cache held when it was read; and the first key that is gone
ends it. -/
theorem entries_arrive_iff (h : Reach Init step TurnHeld a) :
    a.AllGenuine ∧ ∀ e a', a.step e = some a' → (a'.AllGenuine ↔ a.TurnHeld e) := by
  obtain ⟨hfree, hall⟩ := allGenuine_of_reach h
  refine ⟨hall, fun e a' hs => ?_⟩
  rw [allGenuine_step hfree hs]
  exact and_iff_right hall

/-- The dying cache without entries. -/
def empty : Audit := ⟨Migration.empty, []⟩

lemma init_empty : Init empty :=
  ⟨⟨rfl, rfl, rfl, rfl⟩, fun _ hk => absurd hk List.not_mem_nil, rfl⟩

/-- One entry is written and sent. -/
theorem entries_arrive_single : ∃ a, path step TurnHeld empty
    [.client (lit "a#1"), .snapshot [lit "a"], .send] = some a ∧ a.AllGenuine := by
  have hrun : (path step TurnHeld empty
      [.client (lit "a#1"), .snapshot [lit "a"], .send]).isSome = true := by
    decide +kernel
  obtain ⟨a, ha⟩ := Option.isSome_iff_exists.mp hrun
  exact ⟨a, ha, (entries_arrive_iff (reach_of_path init_empty ha)).1⟩

/-- Ten other keys are written between the snapshot and the turn of the first key. -/
def evicting : List Migration.Event :=
  [.client (lit "a#1"), .snapshot [lit "a"], .client (lit "b#1"), .client (lit "c#1"),
    .client (lit "d#1"), .client (lit "e#1"), .client (lit "f#1"), .client (lit "g#1"),
    .client (lit "h#1"), .client (lit "i#1"), .client (lit "j#1"), .client (lit "k#1"), .send]

/-- The first key is gone, and a receiver stores it with an empty value. -/
theorem entries_arrive_evicted : ∃ a address, Reach Init step (fun _ _ => True) a ∧
    a.migration.sent = [(address, lit "a#")] ∧ a.read = [(lit "a", none)] ∧ ¬ a.AllGenuine ∧
    ∃ c', (Cache.new 10 (lit "P") (lit "127.0.0.1") (lit "8002") (lit "9002")).fromSingleCache
      (lit "a#") = some c' ∧ c'.mainCache.lookup (lit "a") = some [] := by
  have hrun : (path step (fun _ _ => True) empty evicting).map (fun a =>
      (decide (a.migration.sent = [((lit "127.0.0.1", lit "9002"), lit "a#")]),
        decide (a.read = [(lit "a", none)]))) = some (true, true) := by
    decide +kernel
  obtain ⟨a, ha, hf⟩ := Option.map_eq_some_iff.mp hrun
  rw [Prod.mk.injEq, decide_eq_true_iff, decide_eq_true_iff] at hf
  have hstored : ((Cache.new 10 (lit "P") (lit "127.0.0.1") (lit "8002") (lit "9002")).fromSingleCache
      (lit "a#")).map (fun c' => c'.mainCache.lookup (lit "a")) = some (some []) := by
    decide +kernel
  obtain ⟨c', hc', hlookup⟩ := Option.map_eq_some_iff.mp hstored
  refine ⟨a, _, reach_of_path init_empty ha, hf.1, hf.2, fun hall => ?_, c', hc', hlookup⟩
  rw [AllGenuine, hf.1, hf.2, List.forall₂_cons] at hall
  obtain ⟨v, hv, -⟩ := hall.1 _ c' hc'
  cases hv

end Audit

end DistCache
