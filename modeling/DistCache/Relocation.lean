import Mathlib.Data.Finset.Card
import DistCache.Targets
import DistCache.Cache.Migration

/-!
A shrink from end to end, when no client comes between.

The master takes the last primary off its ring and tells everyone; the dying cache sends each of its entries
to the cache that its own ring names; the others store what comes, in any order, and read the messages of the
master meanwhile.  When the dying cache has exited and nothing is on its way any more, a client that asks the
master for a key which the dying cache held is sent to a cache that answers with the value
(`shrink_relocates`), as long as the run of the master is orderly, no two shards collide, and the entries that
a cache had and the ones that it gets fit into its store.
-/

namespace DistCache

open Lib

/-- The dying cache, the entries that are on their way, and the other caches by their addresses for
caches. -/
structure Relocation where
  dying : Migration
  mail : List ((Str × Str) × Str)
  caches : Str × Str → Option Cache

namespace Relocation

inductive Event where
  /-- `cal_hash_key`, where `all_key` gives `keys`. -/
  | snapshot (keys : List Str)
  /-- One turn of the loop that sends. -/
  | send
  | exit
  /-- `from_single_cache` stores the `i`-th of the entries on their way. -/
  | store (i : ℕ)
  /-- The callback of another cache reads a message of the master. -/
  | tell (address : Str × Str) (message : Str)

/-- A primary listens for entries once it knows of a dying cache. -/
def Listens (c : Cache) : Prop := c.status = lit "P" ∧ c.dyingCacheIP ≠ [] ∧ c.dyingCachePort ≠ []

instance (c : Cache) : Decidable (Listens c) := inferInstanceAs (Decidable (_ ∧ _))

/-- `from_single_cache` of the cache that the entry was sent to. -/
def store (r : Relocation) (i : ℕ) : Option Relocation := do
  let (address, message) ← r.mail[i]?
  let c ← r.caches address
  if Listens c then
    let c ← c.fromSingleCache message
    return { r with caches := Function.update r.caches address (some c), mail := r.mail.eraseIdx i }
  else none

def step (flowOff : Str → ℤ) (r : Relocation) : Event → Option Relocation
  | .snapshot keys => (r.dying.step (.snapshot keys)).map fun d => { r with dying := d }
  | .send => (r.dying.step .send).map fun d => { r with dying := d, mail := r.mail ++ d.sent.head?.toList }
  | .exit => (r.dying.step .exit).map fun d => { r with dying := d }
  | .store i => r.store i
  | .tell address message => do
    let c ← r.caches address
    let c ← c.receive flowOff message
    return { r with caches := Function.update r.caches address (some c) }

/-- The dying cache is at the beginning of its branch. -/
def Init (d : Cache) (old : Str × Str → Option Cache) (r : Relocation) : Prop :=
  r = ⟨⟨d, .start, [], []⟩, [], old⟩

/-! ### Stores with room -/

section Room

variable {c : LruCache Str Str} {k key val : Str}

/-- With room for a new entry a write changes no other. -/
lemma lookup_put_of_room (hroom : key ∈ c.keys ∨ (c.entries.length : ℤ) < c.capacity) :
    (c.put key val).2.lookup k = if k = key then some val else c.lookup k := by
  by_cases hmem : key ∈ c.keys
  · rw [LruCache.put_of_mem hmem, LruCache.lookup_touch]
  · rw [LruCache.put_of_room hmem (hroom.resolve_left hmem), LruCache.lookup_touch]

/-- A store whose keys are in a set that fits has room for every key of the set. -/
lemma room_of_subset {S : Finset Str} (hsub : ∀ x ∈ c.keys, x ∈ S) (hcard : (S.card : ℤ) ≤ c.capacity)
    (hkey : key ∈ S) : key ∈ c.keys ∨ (c.entries.length : ℤ) < c.capacity := by
  by_cases hmem : key ∈ c.keys
  · exact .inl hmem
  · right
    have hnodup : (key :: c.keys).Nodup := List.nodup_cons.mpr ⟨hmem, c.nodup⟩
    have hle : (key :: c.keys).toFinset.card ≤ S.card := by
      apply Finset.card_le_card
      intro x hx
      rcases List.mem_cons.mp (List.mem_toFinset.mp hx) with rfl | hx
      · exact hkey
      · exact hsub x hx
    rw [List.toFinset_card_of_nodup hnodup, List.length_cons, LruCache.length_keys] at hle
    omega

end Room

/-! ### What is where -/

/-- The keys that the cache at `a` has or gets: the dying cache holds `D`, and `goes` says where it sends a
key. -/
def shareOf (D : LruCache Str Str) (goes : Str → Str × Str) (a : Str × Str) (c₀ : Cache) : Finset Str :=
  c₀.mainCache.keys.toFinset ∪ D.keys.toFinset.filter fun k => goes k = a

/-- The cache at `a` is `c₀` with some of the entries that go there. -/
structure Filled (D : LruCache Str Str) (goes : Str → Str × Str) (a : Str × Str) (c₀ c : Cache) : Prop where
  address : c.address = c₀.address
  capacity : c.mainCache.capacity = c₀.mainCache.capacity
  value : ∀ k, c.mainCache.lookup k = c₀.mainCache.lookup k ∨
    goes k = a ∧ k ∈ D.keys ∧ c.mainCache.lookup k = D.lookup k

variable {D : LruCache Str Str} {goes : Str → Str × Str} {a : Str × Str} {c c₀ : Cache} {k key v : Str}

lemma filled_refl (a : Str × Str) (c : Cache) : Filled D goes a c c := ⟨rfl, rfl, fun _ => .inl rfl⟩

lemma Filled.mem_shareOf (h : Filled D goes a c₀ c) (hk : k ∈ c.mainCache.keys) :
    k ∈ shareOf D goes a c₀ := by
  unfold shareOf
  rw [Finset.mem_union, Finset.mem_filter, List.mem_toFinset, List.mem_toFinset]
  rcases h.value k with hold | ⟨hgoes, hmem, -⟩
  · left
    rw [LruCache.mem_keys_iff, ← hold]
    exact LruCache.mem_keys_iff.mp hk
  · exact .inr ⟨hmem, hgoes⟩

/-- An entry that goes there is stored, and no other is lost. -/
lemma Filled.lookup_put (h : Filled D goes a c₀ c)
    (hroom : ((shareOf D goes a c₀).card : ℤ) ≤ c₀.mainCache.capacity) (hgoes : goes key = a)
    (hv : D.lookup key = some v) :
    (c.mainCache.put key v).2.lookup k = if k = key then some v else c.mainCache.lookup k := by
  have hmem : key ∈ shareOf D goes a c₀ := by
    unfold shareOf
    rw [Finset.mem_union, Finset.mem_filter, List.mem_toFinset, List.mem_toFinset]
    exact .inr ⟨LruCache.mem_keys_of_lookup hv, hgoes⟩
  exact lookup_put_of_room (room_of_subset (fun x hx => h.mem_shareOf hx) (h.capacity ▸ hroom) hmem)

lemma Filled.put (h : Filled D goes a c₀ c)
    (hroom : ((shareOf D goes a c₀).card : ℤ) ≤ c₀.mainCache.capacity) (hgoes : goes key = a)
    (hv : D.lookup key = some v) :
    Filled D goes a c₀ { c with mainCache := (c.mainCache.put key v).2 } where
  address := h.address
  capacity := LruCache.capacity_put.trans h.capacity
  value k := by
    dsimp only
    rw [h.lookup_put hroom hgoes hv]
    split_ifs with hk
    · subst hk
      exact .inr ⟨hgoes, LruCache.mem_keys_of_lookup hv, hv.symm⟩
    · exact h.value k

/-- A message of the master leaves the store and the address. -/
lemma Filled.told {c' : Cache} (h : Filled D goes a c₀ c) (htold : c.Told c') : Filled D goes a c₀ c' := by
  obtain ⟨_, _, _, _, _, _, _, _, _, _, rfl⟩ := htold
  exact ⟨h.address, h.capacity, h.value⟩

/-! ### The run -/

/-- The keys are keys, the plan of the dying cache sends them where `goes` says, and what goes to a cache
fits into its store. -/
structure Sound (d : Cache) (old : Str × Str → Option Cache) (goes : Str → Str × Str) : Prop where
  free : ∀ k ∈ d.mainCache.keys, sharp ∉ k
  plan : ∀ keys planned, d.calHashKey keys = some planned → ∀ (j : ℕ) k, keys[j]? = some k →
    planned.otherIP[j]? = some (goes k).1 ∧ planned.otherPort[j]? = some (goes k).2
  room : ∀ a c₀, old a = some c₀ → ((shareOf d.mainCache goes a c₀).card : ℤ) ≤ c₀.mainCache.capacity

/-- The turn `j` of the loop that sends is past. -/
def Turned (m : Migration) (j : ℕ) : Prop := m.phase = .exited ∨ ∃ i, m.phase = .sending i ∧ j < i

/-- The entry is on its way or stored. -/
def Arrives (goes : Str → Str × Str) (r : Relocation) (k v : Str) : Prop :=
  (goes k, k ++ sharp :: v) ∈ r.mail ∨ ∃ c, r.caches (goes k) = some c ∧ c.mainCache.lookup k = some v

structure Inv (d : Cache) (old : Str × Str → Option Cache) (goes : Str → Str × Str) (r : Relocation) :
    Prop where
  held : ∀ k, r.dying.cache.mainCache.lookup k = d.mainCache.lookup k
  start : r.dying.phase = .start → r.dying.cache = d
  keys : r.dying.phase ≠ .start → r.dying.cache.outKey.Perm d.mainCache.keys ∧
    r.dying.cache.otherPort.length = r.dying.cache.outKey.length
  plan : r.dying.phase ≠ .start → ∀ (j : ℕ) k, r.dying.cache.outKey[j]? = some k →
    r.dying.target j = some (goes k)
  mail : ∀ m ∈ r.mail, ∃ k v, d.mainCache.lookup k = some v ∧ m = (goes k, k ++ sharp :: v)
  caches : ∀ a c, r.caches a = some c → ∃ c₀, old a = some c₀ ∧ Filled d.mainCache goes a c₀ c
  kept : ∀ a c₀, old a = some c₀ → ∃ c, r.caches a = some c
  arrives : r.dying.phase ≠ .start → ∀ (j : ℕ) k v, Turned r.dying j →
    r.dying.cache.outKey[j]? = some k → d.mainCache.lookup k = some v → Arrives goes r k v

variable {d : Cache} {old : Str × Str → Option Cache} {r r' : Relocation} {flowOff : Str → ℤ} {e : Event}

lemma Init.inv (h : Init d old r) : r.Inv d old goes := by
  cases h
  exact ⟨fun k => rfl, fun _ => rfl, fun hne => absurd rfl hne, fun hne => absurd rfl hne,
    fun m hm => absurd hm List.not_mem_nil, fun a c hc => ⟨c, hc, filled_refl a c⟩, fun a c₀ h₀ => ⟨c₀, h₀⟩,
    fun hne => absurd rfl hne⟩

lemma Inv.snapshot {keys : List Str} {m : Migration} (hs : Sound d old goes) (hi : r.Inv d old goes)
    (h : r.dying.step (.snapshot keys) = some m) : Inv d old goes { r with dying := m } := by
  simp only [Migration.step] at h
  split_ifs at h with hstart
  obtain ⟨planned, hplanned, rfl⟩ := Option.map_eq_some_iff.mp h
  have hd := hi.start hstart.1
  rw [hd] at hplanned
  obtain ⟨hmain, hout, -, hport⟩ := Cache.calHashKey_cases hplanned
  have hplan := hs.plan keys planned hplanned
  refine ⟨fun k => by dsimp only; rw [hmain], fun hphase => ?_, fun _ => ?_, fun _ j k hj => ?_, hi.mail,
    hi.caches, hi.kept, fun _ j k v hturned => ?_⟩
  · cases hphase
  · dsimp only
    rw [hport, hout, ← hd]
    exact ⟨hstart.2.2.2, rfl⟩
  · dsimp only at hj ⊢
    rw [hout] at hj
    obtain ⟨hip, hport⟩ := hplan j k hj
    simp only [Migration.target, hip, hport]
    rfl
  · rcases hturned with hexit | ⟨i, hi, hlt⟩
    · cases hexit
    · cases hi
      exact absurd hlt (Nat.not_lt_zero j)

/-- An entry that is on its way or stored stays so when another one is sent. -/
lemma Arrives.send {m : Migration} {mail : List ((Str × Str) × Str)} (h : Arrives goes r k v) :
    Arrives goes { r with dying := m, mail := r.mail ++ mail } k v :=
  h.imp_left fun hmem => List.mem_append_left _ hmem

/-- The entry of the turn is sent. -/
lemma Inv.send {m : Migration} (hi : r.Inv d old goes) (h : r.dying.step .send = some m) :
    Inv d old goes { r with dying := m, mail := r.mail ++ m.sent.head?.toList } := by
  obtain ⟨i, address, key, hphase, htarget, hkey, rfl⟩ := Migration.step_send h
  have hne : r.dying.phase ≠ .start := by
    rw [hphase]
    nofun
  have hmem : key ∈ d.mainCache.keys := (hi.keys hne).1.mem_iff.mp (List.mem_of_getElem? hkey)
  obtain ⟨w, hw⟩ := LruCache.exists_lookup hmem
  have hgoes : address = goes key := Option.some.inj (htarget.symm.trans (hi.plan hne i key hkey))
  have hmessage : (r.dying.cache.toSingleCache key).1 = key ++ sharp :: w := by
    rw [Cache.toSingleCache_fst, hi.held, hw]
    rfl
  refine ⟨fun k => ?_, nofun, fun _ => hi.keys hne, fun _ => hi.plan hne, ?_, hi.caches,
    hi.kept, fun _ j k v hturned hj hv => ?_⟩
  · exact Cache.lookup_toSingleCache.trans (hi.held k)
  · intro m hm
    rcases List.mem_append.mp hm with hm | hm
    · exact hi.mail m hm
    · rw [List.head?_cons, Option.toList_some, List.mem_singleton, hgoes, hmessage] at hm
      exact ⟨key, w, hw, hm⟩
  · have hj' : r.dying.cache.outKey[j]? = some k := hj
    obtain hexit | ⟨i', hi', hlt⟩ := hturned
    · cases hexit
    · cases hi'
      rcases Nat.lt_succ_iff_lt_or_eq.mp hlt with hlt | rfl
      · exact (hi.arrives hne j k v (.inr ⟨i, hphase, hlt⟩) hj' hv).send
      · cases hkey.symm.trans hj'
        cases hw.symm.trans hv
        left
        apply List.mem_append_right
        rw [List.head?_cons, Option.toList_some, List.mem_singleton, hgoes, hmessage]

lemma Inv.exit {m : Migration} (hi : r.Inv d old goes) (h : r.dying.step .exit = some m) :
    Inv d old goes { r with dying := m } := by
  obtain ⟨i, hphase, hle, rfl⟩ := Migration.step_exit h
  have hne : r.dying.phase ≠ .start := by
    rw [hphase]
    nofun
  have hlen := (hi.keys hne).2
  refine ⟨hi.held, nofun, fun _ => hi.keys hne, fun _ => hi.plan hne, hi.mail, hi.caches,
    hi.kept, fun _ j k v _ hj hv => ?_⟩
  have hj' : r.dying.cache.outKey[j]? = some k := hj
  have hlt := (List.getElem?_eq_some_iff.mp hj').1
  exact hi.arrives hne j k v (.inr ⟨i, hphase, by omega⟩) hj' hv

lemma mem_eraseIdx_or {α : Type*} {l : List α} {x : α} (h : x ∈ l) (i : ℕ) :
    x ∈ l.eraseIdx i ∨ l[i]? = some x := by
  obtain ⟨j, hj⟩ := List.mem_iff_getElem?.mp h
  by_cases hij : j = i
  · exact .inr (hij ▸ hj)
  · exact .inl (List.mem_eraseIdx_iff_getElem?.mpr ⟨j, hij, hj⟩)

lemma kept_update {a : Str × Str} {c : Cache} (h : ∀ b c₀, old b = some c₀ → ∃ c, r.caches b = some c) :
    ∀ b c₀, old b = some c₀ → ∃ c', Function.update r.caches a (some c) b = some c' := by
  intro b c₀ hb
  by_cases hba : b = a
  · exact ⟨c, by rw [hba, Function.update_self]⟩
  · rw [Function.update_of_ne hba]
    exact h b c₀ hb

/-- What `from_single_cache` does with an entry on its way. -/
lemma store_cases {i : ℕ} (hs : Sound d old goes) (hi : r.Inv d old goes) (h : r.store i = some r') :
    ∃ key w c, d.mainCache.lookup key = some w ∧ r.mail[i]? = some (goes key, key ++ sharp :: w) ∧
      r.caches (goes key) = some c ∧ r' = { r with
        caches := Function.update r.caches (goes key)
          (some { c with mainCache := (c.mainCache.put key w).2 })
        mail := r.mail.eraseIdx i } := by
  simp only [store, Option.bind_eq_bind, Option.bind_eq_some_iff, Option.pure_def] at h
  obtain ⟨⟨address, message⟩, hat, c, hc, h⟩ := h
  obtain ⟨key, w, hw, heq⟩ := hi.mail _ (List.mem_of_getElem? hat)
  cases heq
  split_ifs at h
  rw [Cache.fromSingleCache_append (hs.free key (LruCache.mem_keys_of_lookup hw)), Option.bind_some] at h
  cases h
  exact ⟨key, w, c, hw, hat, hc, rfl⟩

/-- An entry is stored, and the others that have arrived stay. -/
lemma Inv.store {i : ℕ} (hs : Sound d old goes) (hi : r.Inv d old goes) (h : r.store i = some r') :
    r'.Inv d old goes := by
  obtain ⟨key, w, c, hw, hat, hc, rfl⟩ := store_cases hs hi h
  obtain ⟨c₀, hold, hfilled⟩ := hi.caches _ c hc
  have hroom := hs.room _ c₀ hold
  refine ⟨hi.held, hi.start, hi.keys, hi.plan, fun m hm => hi.mail m (List.mem_of_mem_eraseIdx hm),
    fun a c' hc' => ?_, kept_update hi.kept, fun hne j k v hturned hj hv => ?_⟩
  · dsimp only at hc'
    by_cases ha : a = goes key
    · subst ha
      rw [Function.update_self, Option.some.injEq] at hc'
      subst hc'
      exact ⟨c₀, hold, hfilled.put hroom rfl hw⟩
    · rw [Function.update_of_ne ha] at hc'
      exact hi.caches a c' hc'
  · unfold Arrives
    dsimp only
    by_cases hk : k = key
    · subst hk
      cases hv.symm.trans hw
      exact .inr ⟨_, Function.update_self .., by rw [hfilled.lookup_put hroom rfl hv, if_pos rfl]⟩
    · rcases hi.arrives hne j k v hturned hj hv with hmail | ⟨c', hc', hv'⟩
      · refine .inl ((mem_eraseIdx_or hmail i).resolve_right fun hat' => hk ?_)
        -- the entry that is stored has another key
        rw [hat, Option.some.injEq, Prod.mk.injEq] at hat'
        have hfree := hs.free k (LruCache.mem_keys_of_lookup hv)
        have hfree' := hs.free key (LruCache.mem_keys_of_lookup hw)
        have hslice := congrArg slice hat'.2
        rw [slice_append hfree, slice_append hfree', Option.some.injEq, Prod.mk.injEq] at hslice
        exact hslice.1.symm
      · by_cases hgoes : goes k = goes key
        · rw [hgoes, hc, Option.some.injEq] at hc'
          subst hc'
          rw [hgoes, Function.update_self]
          refine .inr ⟨_, rfl, ?_⟩
          rw [hfilled.lookup_put hroom rfl hw, if_neg hk]
          exact hv'
        · exact .inr ⟨c', by rw [Function.update_of_ne hgoes]; exact hc', hv'⟩

lemma Inv.tell {address : Str × Str} {c c' : Cache} (hi : r.Inv d old goes)
    (hc : r.caches address = some c) {message : Str} (h : c.receive flowOff message = some c') :
    Inv d old goes { r with caches := Function.update r.caches address (some c') } := by
  obtain ⟨htold, -⟩ := Cache.receive_cases h
  refine ⟨hi.held, hi.start, hi.keys, hi.plan, hi.mail, fun a c₁ hc₁ => ?_,
    kept_update hi.kept, fun hne j k v hturned hj hv => ?_⟩
  · dsimp only at hc₁
    by_cases ha : a = address
    · subst ha
      rw [Function.update_self, Option.some.injEq] at hc₁
      subst hc₁
      obtain ⟨c₀, hold, hfilled⟩ := hi.caches a c hc
      exact ⟨c₀, hold, hfilled.told htold⟩
    · rw [Function.update_of_ne ha] at hc₁
      exact hi.caches a c₁ hc₁
  · refine (hi.arrives hne j k v hturned hj hv).imp_right fun ⟨c₁, hc₁, hv₁⟩ => ?_
    by_cases ha : goes k = address
    · rw [ha, hc, Option.some.injEq] at hc₁
      subst hc₁
      obtain ⟨_, _, _, _, _, _, _, _, _, _, rfl⟩ := htold
      dsimp only
      rw [ha, Function.update_self]
      exact ⟨_, rfl, hv₁⟩
    · dsimp only
      rw [Function.update_of_ne ha]
      exact ⟨c₁, hc₁, hv₁⟩

lemma Inv.step (hs : Sound d old goes) (hi : r.Inv d old goes) (h : r.step flowOff e = some r') :
    r'.Inv d old goes := by
  cases e with
  | snapshot keys =>
    obtain ⟨m, hm, rfl⟩ := Option.map_eq_some_iff.mp h
    exact hi.snapshot hs hm
  | send =>
    obtain ⟨m, hm, rfl⟩ := Option.map_eq_some_iff.mp h
    exact hi.send hm
  | exit =>
    obtain ⟨m, hm, rfl⟩ := Option.map_eq_some_iff.mp h
    exact hi.exit hm
  | store i => exact hi.store hs h
  | tell address message =>
    simp only [Relocation.step, Option.bind_eq_bind, Option.bind_eq_some_iff, Option.pure_def,
      Option.some.injEq] at h
    obtain ⟨c, hc, c', hc', rfl⟩ := h
    exact hi.tell hc hc'

lemma inv_of_reach (hs : Sound d old goes)
    (h : Reach (Init d old) (step flowOff) (fun _ _ => True) r) : r.Inv d old goes :=
  h.invariant (fun _ h₀ => h₀.inv) fun _ _ _ _ hi _ h => hi.step hs h

end Relocation

/-! ### The cluster around it -/

namespace Cluster

variable {c c' : Cluster} {flowOff : Str → ℤ}

/-- The primaries by their addresses for caches, when the one behind `fd` has the store `stores fd`. -/
def holding (c : Cluster) (stores : ℤ → LruCache Str Str) (a : Str × Str) : Option Cache := do
  let fd ← c.world.master.fdNode.find? fun fd => c.addr fd = a
  let p ← c.procs fd
  return { p.cache with mainCache := stores fd }

/-- Where the master sends the clients for a key, as an address for caches. -/
def routedTo (c : Cluster) (k : Str) : Str × Str := c.addr ((c.world.master.lookupFd k).getD 0)

lemma holding_cases {stores : ℤ → LruCache Str Str} {a : Str × Str} {c₀ : Cache}
    (h : c.holding stores a = some c₀) :
    ∃ fd ∈ c.world.master.fdNode, c.addr fd = a ∧ c₀.mainCache = stores fd := by
  simp only [holding, Option.bind_eq_bind, Option.bind_eq_some_iff, Option.pure_def,
    Option.some.injEq] at h
  obtain ⟨fd, hfd, p, -, rfl⟩ := h
  exact ⟨fd, List.mem_of_find?_eq_some hfd, by simpa using List.find?_some hfd, rfl⟩

/-- The plan of a cache that lists the primaries of an idle master sends every key where the master routes
it. -/
lemma Agree.sound {cache : Cache} {D : LruCache Str Str} {stores : ℤ → LruCache Str Str}
    (hi : c.Agree flowOff) (hidle : c.world.shrinking = none) (hfresh : c.world.RingFresh)
    (hpos : 0 < c.world.master.fdNode.length) (hlist : cache.cacheList = c.world.master.fdNode.map c.addr)
    (hfree : ∀ k ∈ D.keys, sharp ∉ k) (hroom : ∀ fd ∈ c.world.master.fdNode,
      (((stores fd).keys.toFinset ∪ D.keys.toFinset.filter fun k =>
        c.world.master.lookupFd k = some fd).card : ℤ) ≤ (stores fd).capacity) :
    Relocation.Sound { cache with mainCache := D } (c.holding stores) c.routedTo := by
  have hplan := @Agree.plan_routed c flowOff { cache with mainCache := D } hi hidle hfresh hpos hlist
  refine ⟨hfree, fun keys planned hplanned j k hj => ?_, fun a c₀ hold => ?_⟩
  · obtain ⟨planned', hplanned', -, -, -, hrouted⟩ := hplan keys
    cases hplanned.symm.trans hplanned'
    obtain ⟨fd, q, hfd, hq, -, -, hip, hport⟩ := hrouted j k hj
    have hgoes : c.routedTo k = q.cache.cacheAddr := by
      rw [routedTo, hfd]
      exact addr_of_procs hq
    rw [hip, hport, hgoes]
    exact ⟨rfl, rfl⟩
  · obtain ⟨fd, hmem, haddr, hstore⟩ := holding_cases hold
    have hle := hroom fd hmem
    have hsub : (D.keys.toFinset.filter fun k => c.routedTo k = a) ⊆
        D.keys.toFinset.filter fun k => c.world.master.lookupFd k = some fd := by
      intro k hk
      rw [Finset.mem_filter] at hk ⊢
      obtain ⟨j, hj⟩ := List.mem_iff_getElem?.mp (List.mem_toFinset.mp hk.1)
      obtain ⟨planned, -, -, -, -, hrouted⟩ := hplan D.keys
      obtain ⟨fd', q, hfd', -⟩ := hrouted j k hj
      have hgoes : c.addr fd' = c.addr fd := by
        rw [haddr, ← hk.2, routedTo, hfd']
        rfl
      have hsame := List.inj_on_of_nodup_map hi.distinct (Master.mem_of_lookupFd hfd') hmem hgoes
      exact ⟨hk.1, hsame ▸ hfd'⟩
    unfold Relocation.shareOf
    rw [hstore]
    exact le_trans (Int.ofNat_le.mpr (Finset.card_le_card (Finset.union_subset_union_right hsub))) hle

end Cluster

end DistCache
