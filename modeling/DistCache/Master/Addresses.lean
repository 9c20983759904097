import DistCache.Master.Pairing

/-!
The addresses of the caches in `fd_node`.

The master tells connections apart by their descriptors, and whether a cache is alive by its address.  A
cache that crashes and starts again with the same arguments connects before its old connection is found
dead; the heartbeats on the new one keep the old one alive, and `fd_node` has its address twice.  The
addresses differ exactly as long as every cache that enters `fd_node` brings a new one
(`addresses_differ_iff`).
-/

namespace DistCache

open Lib

variable {l : Map ℤ FdMap} {a b fd top : ℤ} {e f te : FdMap}

/-! ### Addresses of records -/

/-- The address for caches in the record of a connection. -/
def addr (l : Map ℤ FdMap) (a : ℤ) : Option Str := (l.lookup a).map FdMap.ipCache

/-- `a` has the record of a primary whose first heartbeat has come. -/
def IsEntry (l : Map ℤ FdMap) (a : ℤ) : Prop :=
  ∃ e, l.lookup a = some e ∧ e.ipPort ≠ noAddr ∧ e.status = statusP

lemma addr_of_lookup (h : l.lookup a = some e) : addr l a = some e.ipCache := by
  rw [addr, h, Option.map_some]

lemma addr_insert : addr (l.insert a e) = Function.update (addr l) a (some e.ipCache) := by
  funext b
  rw [Function.update_apply, addr, lookup_insert_ite]
  split_ifs <;> rfl

lemma addr_erase : addr (l.erase a) = Function.update (addr l) a none := by
  funext b
  rw [Function.update_apply, addr, lookup_erase_ite]
  split_ifs <;> rfl

/-- A record that keeps its address is changed. -/
lemma addr_insert_same (hte : l.lookup top = some te) (hf : f.ipCache = te.ipCache) :
    addr (l.insert top f) = addr l := by
  rw [addr_insert, hf, ← addr_of_lookup hte, Function.update_eq_self]

lemma IsEntry.insert_same (h : IsEntry l a) (hte : l.lookup top = some te)
    (hport : f.ipPort = te.ipPort) (hs : te.status = statusP → f.status = statusP) :
    IsEntry (l.insert top f) a := by
  obtain ⟨e, he, hnew, hstatus⟩ := h
  by_cases ha : a = top
  · subst ha
    rw [hte, Option.some.injEq] at he
    subst he
    exact ⟨f, Finmap.lookup_insert _, by rw [hport]; exact hnew, hs hstatus⟩
  · exact ⟨e, by rw [lookup_insert_ite, if_neg ha]; exact he, hnew, hstatus⟩

lemma IsEntry.insert_of_ne (h : IsEntry l a) (hne : a ≠ b) : IsEntry (l.insert b f) a := by
  obtain ⟨e, he, hrest⟩ := h
  exact ⟨e, by rw [lookup_insert_ite, if_neg hne]; exact he, hrest⟩

lemma IsEntry.erase (h : IsEntry l a) (hne : a ≠ b) : IsEntry (l.erase b) a := by
  obtain ⟨e, he, hrest⟩ := h
  exact ⟨e, by rw [lookup_erase_ite, if_neg hne]; exact he, hrest⟩

lemma IsEntry.status (h : IsEntry l a) (he : l.lookup a = some e) : e.status = statusP := by
  obtain ⟨f, hf, -, hstatus⟩ := h
  rw [he, Option.some.injEq] at hf
  exact hf ▸ hstatus

/-! ### Addresses come with the first heartbeat -/

/-- The addresses of every record, for clients and for caches, meet `φ`. -/
abbrev AllAddressed (φ : Str → Str → Prop) (l : Map ℤ FdMap) : Prop :=
  Every (fun _ e => φ e.ipPort e.ipCache) l

section Addressed

variable {φ : Str → Str → Prop}

lemma AllAddressed.insert_same (h : AllAddressed φ l) (hte : l.lookup top = some te)
    (hport : f.ipPort = te.ipPort) (hcache : f.ipCache = te.ipCache) :
    AllAddressed φ (l.insert top f) := by
  refine Every.insert h ?_
  rw [hport, hcache]
  exact h top te hte

namespace Master

variable {m m' : Master} {msg : Str} {am : Map Str ℤ} {out : Out}

lemma Heard.allAddressed (h : AllAddressed φ m.cachesList)
    (hfirst : ∀ r e, m.First fd msg r e → φ e.ipPort e.ipCache) (hh : m.Heard fd msg am m') :
    AllAddressed φ m'.cachesList := by
  cases hh with
  | again => exact h
  | primary hf | replica hf | other hf => exact h.insert (hfirst _ _ hf)
  | @primaryPaired e te top rest hf _ hte | @replicaPaired e te top rest hf _ hte =>
    have htold : φ e.ipPort e.ipCache := hfirst _ e hf
    have hjoined : AllAddressed φ (m.cachesList.insert fd { e with pairFd := top }) :=
      Every.insert h htold
    exact hjoined.insert_same hte rfl rfl

lemma Dead.allAddressed (h : AllAddressed φ m.cachesList) (hd : m.Dead fd out) :
    AllAddressed φ (out.master.cachesList.erase fd) := by
  cases hd with
  | @replica e b _ _ hb =>
    have h' : AllAddressed φ (m.cachesList.insert e.pairFd { b with pairFd := -1 }) :=
      AllAddressed.insert_same h hb rfl rfl
    exact h'.erase fd
  | @paired e b _ _ _ _ _ _ hb =>
    have h' : AllAddressed φ
        (m.cachesList.insert e.pairFd { b with status := statusP, pairFd := -1 }) :=
      AllAddressed.insert_same h hb rfl rfl
    exact h'.erase fd
  | alone => exact h.erase fd
  | stray => exact h.erase fd
  | other => exact h.erase fd

end Master

namespace World

variable {w w' : World} {ev : Event} {ok : World → Event → Prop}

lemma allAddressed_step (hk : w.Keyed) (h₀ : φ noAddr noAddr)
    (hfirst : ∀ fd msg, ev = .receive fd msg → ∀ r e, w.master.First fd msg r e →
      φ e.ipPort e.ipCache)
    (hall : AllAddressed φ w.master.cachesList) (h : w.step ev = some w') :
    AllAddressed φ w'.master.cachesList := by
  cases ev with
  | accept fd =>
    obtain ⟨-, -, rfl⟩ := step_accept h
    exact Every.insert hall h₀
  | receive fd msg =>
    obtain ⟨-, ⟨-, rfl⟩ | ⟨-, m, am, hh, rfl⟩⟩ := step_receive h
    · exact hall
    · exact hh.allAddressed hall (hfirst fd msg rfl)
  | detect fd =>
    rcases step_detect hk h with ⟨-, rfl⟩ | ⟨-, out, hd, rfl⟩
    · exact hall
    · exact hd.allAddressed hall
  | shrinkBegin =>
    obtain ⟨-, sh, e, -, -, -, rfl⟩ := step_shrinkBegin h
    exact hall
  | shrinkEnd =>
    obtain ⟨sh, out, -, -, hend, rfl⟩ := step_shrinkEnd h
    obtain ⟨-, e, -, ⟨-, -, rfl⟩ | ⟨-, rfl⟩⟩ := Master.shrinkEnd_cases hend
    · exact (hall.erase _).erase _
    · exact hall.erase _
  | tick =>
    cases h
    exact hall

/-- What is true of the placeholder and of the addresses in every first heartbeat is true of the
addresses of every record. -/
theorem allAddressed_of_reach (h₀ : φ noAddr noAddr)
    (hfirst : ∀ w fd msg r e, ok w (.receive fd msg) → w.master.First fd msg r e →
      φ e.ipPort e.ipCache) (h : Reach Init step ok w) : AllAddressed φ w.master.cachesList := by
  refine h.invariant (I := fun w => AllAddressed φ w.master.cachesList) ?_
    fun w ev w' hr hi hok hs => allAddressed_step (keyed_of_reach hr) h₀ ?_ hi hs
  · rintro _ ⟨t₀, rfl⟩ a e he
    simp [start, Master.start] at he
  · rintro fd msg rfl r e hf
    exact hfirst w fd msg r e hok hf

end World

end Addressed

/-- Two addresses as they are before the first heartbeat, or neither of them. -/
def Announced (ipPort ipCache : Str) : Prop := ipPort = noAddr ∧ ipCache = noAddr ∨ ipPort ≠ noAddr

/-- Where `periodicDetectCache` finds a `'#'` there is an address. -/
lemma Announced.of_sharp {ipPort ipCache str : Str} (h : Announced ipPort ipCache)
    (hsharp : Master.sharpToColon ipCache = some str) : ipPort ≠ noAddr := by
  refine h.resolve_left fun hno => ?_
  have hnone : Master.sharpToColon noAddr = none := by decide
  rw [hno.2, hnone] at hsharp
  cases hsharp

lemma World.announced_of_reach {w : World} {ok : World → Event → Prop} (h : Reach Init step ok w) :
    AllAddressed Announced w.master.cachesList :=
  allAddressed_of_reach (.inl ⟨rfl, rfl⟩) (fun _ _ _ _ _ _ hf => .inr hf.told.ipPort_ne) h

/-! ### The entries of `fd_node` -/

/-- The entries of `nodes` have records of primaries, with different addresses. -/
structure Entries (l : Map ℤ FdMap) (nodes : List ℤ) : Prop where
  entry : ∀ a ∈ nodes, IsEntry l a
  nodup : (nodes.map (addr l)).Nodup

variable {nodes : List ℤ}

lemma map_addr_update {x : Option Str} (ha : a ∉ nodes) :
    nodes.map (Function.update (addr l) a x) = nodes.map (addr l) :=
  List.map_congr_left fun _ hb => Function.update_of_ne (ne_of_mem_of_not_mem hb ha) _ _

lemma Entries.erase (h : Entries l nodes) (ha : a ∉ nodes) : Entries (l.erase a) nodes where
  entry b hb := (h.entry b hb).erase (ne_of_mem_of_not_mem hb ha)
  nodup := by
    rw [addr_erase, map_addr_update ha]
    exact h.nodup

lemma Entries.insert_of_not_mem (h : Entries l nodes) (ha : a ∉ nodes) :
    Entries (l.insert a e) nodes where
  entry b hb := (h.entry b hb).insert_of_ne (ne_of_mem_of_not_mem hb ha)
  nodup := by
    rw [addr_insert, map_addr_update ha]
    exact h.nodup

lemma Entries.insert_same (h : Entries l nodes) (hte : l.lookup top = some te)
    (hport : f.ipPort = te.ipPort) (hcache : f.ipCache = te.ipCache)
    (hs : te.status = statusP → f.status = statusP) : Entries (l.insert top f) nodes where
  entry b hb := (h.entry b hb).insert_same hte hport hs
  nodup := by
    rw [addr_insert_same hte hcache]
    exact h.nodup

lemma Entries.of_sublist {nodes' : List ℤ} (h : Entries l nodes) (hsub : nodes'.Sublist nodes) :
    Entries l nodes' where
  entry b hb := h.entry b (hsub.subset hb)
  nodup := h.nodup.sublist (hsub.map _)

/-- The same said of pairs of positions. -/
lemma pairwise_addr_iff (h : ∀ a ∈ nodes, IsEntry l a) : (nodes.map (addr l)).Nodup ↔
    nodes.Pairwise fun a b => ∀ e f, l.lookup a = some e → l.lookup b = some f →
      e.ipCache ≠ f.ipCache := by
  unfold List.Nodup
  rw [List.pairwise_map]
  refine List.Pairwise.iff_of_mem fun {a b} ha hb => ?_
  obtain ⟨e, he, -⟩ := h a ha
  obtain ⟨f, hf, -⟩ := h b hb
  rw [addr_of_lookup he, addr_of_lookup hf, Ne, Option.some.injEq]
  constructor
  · intro hne e' f' he' hf'
    rw [he, Option.some.injEq] at he'
    rw [hf, Option.some.injEq] at hf'
    exact he' ▸ hf' ▸ hne
  · exact fun hall => hall e f he hf

/-- An entry is added at the end. -/
lemma nodup_concat_addr {x : Option Str} (hnodup : (nodes.map (addr l)).Nodup) (ha : a ∉ nodes) :
    ((nodes ++ [a]).map (Function.update (addr l) a x)).Nodup ↔ x ∉ nodes.map (addr l) := by
  rw [List.map_append, map_addr_update ha, List.map_singleton, Function.update_self, List.nodup_append]
  constructor
  · exact fun h hmem => h.2.2 x hmem x (List.mem_singleton_self x) rfl
  · refine fun h => ⟨hnodup, List.nodup_singleton x, fun y hy z hz => ?_⟩
    rw [List.mem_singleton.mp hz]
    exact ne_of_mem_of_not_mem hy h

/-- A primary joins, and its address is new exactly when the addresses still differ. -/
lemma Entries.concat (h : Entries l nodes) (ha : a ∉ nodes) (hnew : e.ipPort ≠ noAddr)
    (hs : e.status = statusP) : (∀ b ∈ nodes ++ [a], IsEntry (l.insert a e) b) ∧
      (((nodes ++ [a]).map (addr (l.insert a e))).Nodup ↔ some e.ipCache ∉ nodes.map (addr l)) := by
  constructor
  · intro b hb
    rcases List.mem_append.mp hb with hb | hb
    · exact (h.entry b hb).insert_of_ne (ne_of_mem_of_not_mem hb ha)
    · rw [List.mem_singleton.mp hb]
      exact ⟨e, Finmap.lookup_insert _, hnew, hs⟩
  · rw [addr_insert]
    exact nodup_concat_addr h.nodup ha

/-! ### The steps of the master -/

/-- A position is overwritten or taken out. -/
lemma exists_split_at (ha : a ∈ nodes) : ∃ l₁ l₂, a ∉ l₁ ∧ nodes = l₁ ++ a :: l₂ ∧
    nodes.set (nodes.idxOf a) b = l₁ ++ b :: l₂ ∧ nodes.erase a = l₁ ++ l₂ := by
  obtain ⟨l₁, l₂, rfl, hl₁⟩ := List.eq_append_cons_of_mem ha
  refine ⟨l₁, l₂, hl₁, rfl, ?_, ?_⟩
  · rw [List.idxOf_append_of_notMem hl₁, List.idxOf_cons_self, Nat.add_zero,
      List.set_append_right _ _ le_rfl, Nat.sub_self, List.set_cons_zero]
  · rw [List.erase_append_right _ hl₁, List.erase_cons_head]

/-- An entry that goes, and another cache in its place. -/
lemma Entries.promote (h : Entries l nodes) (ha : a ∈ nodes) (hne : b ≠ a) (hb : l.lookup b = some te)
    (hport : f.ipPort = te.ipPort) (hcache : f.ipCache = te.ipCache) (htold : te.ipPort ≠ noAddr)
    (hs : f.status = statusP) :
    (∀ c ∈ nodes.set (nodes.idxOf a) b, IsEntry ((l.insert b f).erase a) c) ∧
      (((nodes.set (nodes.idxOf a) b).map (addr ((l.insert b f).erase a))).Nodup ↔
        some te.ipCache ∉ (nodes.erase a).map (addr l)) := by
  have hnodes : nodes.Nodup := h.nodup.of_map _
  obtain ⟨l₁, l₂, -, -, hset, herase⟩ := exists_split_at (b := b) ha
  have hgone : a ∉ l₁ ++ l₂ := by
    rw [← herase]
    exact hnodes.not_mem_erase
  have hsub : (l₁ ++ l₂).Sublist nodes := by
    rw [← herase]
    exact List.erase_sublist
  have hleft := ((h.insert_same hb hport hcache fun _ => hs).of_sublist hsub).erase hgone
  have hnew : ((l.insert b f).erase a).lookup b = some f := by
    rw [lookup_erase_ite, if_neg hne, Finmap.lookup_insert]
  rw [hset, herase]
  constructor
  · intro c hc
    rw [List.mem_append, List.mem_cons, or_left_comm, ← List.mem_append] at hc
    rcases hc with rfl | hc
    · exact ⟨f, hnew, hport ▸ htold, hs⟩
    · exact hleft.entry c hc
  · rw [List.map_append, List.map_cons, List.nodup_middle, ← List.map_append, List.nodup_cons,
      addr_of_lookup hnew, and_iff_left hleft.nodup, addr_erase, map_addr_update hgone,
      addr_insert_same hb hcache, hcache]

namespace Master

variable {m m' : Master} {msg r : Str} {am : Map Str ℤ} {fds : Finset ℤ} {out : Out}

/-- The address of a primary that joins is that of no position. -/
def JoinsNew (m : Master) (fd : ℤ) (msg : Str) : Prop :=
  m.Joins fd msg (lit "P") → ∀ ip ∈ (splitSharp msg)[1]?, ∀ port ∈ (splitSharp msg)[3]?,
    some (ip ++ sharp :: port) ∉ m.fdNode.map (addr m.cachesList)

/-- The address of the backup that takes the place of its primary is that of no other position. -/
def PromotesNew (m : Master) (fd : ℤ) : Prop :=
  fd ∈ m.fdNode → ∀ e ∈ m.cachesList.lookup fd, ∀ b ∈ m.cachesList.lookup e.pairFd,
    some b.ipCache ∉ (m.fdNode.erase fd).map (addr m.cachesList)

instance decidableJoinsNew (m : Master) (fd : ℤ) (msg : Str) : Decidable (m.JoinsNew fd msg) := by
  unfold JoinsNew; infer_instance

instance decidablePromotesNew (m : Master) (fd : ℤ) : Decidable (m.PromotesNew fd) := by
  unfold PromotesNew; infer_instance

lemma First.joinsNew_iff (hx : msg.head? = some 120) (hf : m.First fd msg (lit "P") e) :
    m.JoinsNew fd msg ↔ some e.ipCache ∉ m.fdNode.map (addr m.cachesList) := by
  have hj := hf.joins hx
  obtain ⟨-, -, hip, -, hcache, -, -⟩ := hf
  constructor
  · exact fun h => h hj _ hip _ hcache
  · intro h _ ip hip' port hport
    rw [Option.mem_def, hip, Option.some.injEq] at hip'
    rw [Option.mem_def, hcache, Option.some.injEq] at hport
    rw [← hip', ← hport]
    exact h

/-- A heartbeat other than the first one of a primary. -/
lemma joinsNew_of_not (h : ¬ m.Joins fd msg (lit "P")) : m.JoinsNew fd msg := fun hj => absurd hj h

/-- A connection without an address is no entry. -/
lemma First.not_mem_fdNode (hen : Entries m.cachesList m.fdNode) (hf : m.First fd msg r e) :
    fd ∉ m.fdNode := by
  intro hmem
  obtain ⟨it, hit, hnew, -⟩ := hf.lookup
  obtain ⟨e', he', hold, -⟩ := hen.entry fd hmem
  rw [hit, Option.some.injEq] at he'
  exact hold (he' ▸ hnew)

lemma entries_heard (hx : msg.head? = some 120) (hen : Entries m.cachesList m.fdNode)
    (hh : m.Heard fd msg am m') : (∀ a ∈ m'.fdNode, IsEntry m'.cachesList a) ∧
      ((m'.fdNode.map (addr m'.cachesList)).Nodup ↔ m.JoinsNew fd msg) := by
  have hstatus : ∀ {e : FdMap}, m.First fd msg (lit "P") e → e.status = statusP := fun hf =>
    (Option.some.inj hf.status).symm
  have hother : ∀ {r : Str} {e : FdMap}, r ≠ lit "P" → m.First fd msg r e → m.JoinsNew fd msg :=
    fun hne hf => joinsNew_of_not fun hj => hne (hf.role_eq hj).symm
  have hsame : ∀ {l' : Map ℤ FdMap}, Entries l' m.fdNode → m.JoinsNew fd msg →
      (∀ a ∈ m.fdNode, IsEntry l' a) ∧ ((m.fdNode.map (addr l')).Nodup ↔ m.JoinsNew fd msg) :=
    fun h hj => ⟨h.entry, iff_of_true h.nodup hj⟩
  cases hh with
  | again hit hold =>
    refine hsame hen (joinsNew_of_not ?_)
    rintro ⟨-, hnew, -⟩
    rw [hit, Option.map_some, Option.some.injEq] at hnew
    exact hold hnew
  | primary hf =>
    rw [hf.joinsNew_iff hx]
    exact hen.concat (hf.not_mem_fdNode hen) hf.told.ipPort_ne (hstatus hf)
  | @primaryPaired e te top rest hf hr hte =>
    have hprimary : e.status = statusP := hstatus hf
    obtain ⟨hentry, hnodup⟩ := hen.concat (e := { e with pairFd := top }) (hf.not_mem_fdNode hen)
      hf.told.ipPort_ne hprimary
    have haddr : addr (paired m.cachesList fd top e te) =
        addr (m.cachesList.insert fd { e with pairFd := top }) := addr_insert_same hte rfl
    rw [hf.joinsNew_iff hx]
    dsimp only
    rw [haddr]
    exact ⟨fun a ha => (hentry a ha).insert_same hte rfl id, hnodup⟩
  | replica hf =>
    exact hsame (hen.insert_of_not_mem (hf.not_mem_fdNode hen)) (hother (by decide) hf)
  | replicaPaired hf hp hte =>
    refine hsame (Entries.insert_same ?_ hte rfl rfl id) (hother (by decide) hf)
    exact hen.insert_of_not_mem (hf.not_mem_fdNode hen)
  | other hf hP =>
    exact hsame (hen.insert_of_not_mem (hf.not_mem_fdNode hen)) (hother hP hf)

/-- Who has no partner on record is replaced by nobody. -/
lemma promotesNew_of_none (h : ∀ e ∈ m.cachesList.lookup fd, m.cachesList.lookup e.pairFd = none) :
    m.PromotesNew fd := by
  intro _ e he b hb
  rw [Option.mem_def, h e he] at hb
  cases hb

lemma promotesNew_iff {b : FdMap} (hfd : fd ∈ m.fdNode) (he : m.cachesList.lookup fd = some e)
    (hb : m.cachesList.lookup e.pairFd = some b) :
    m.PromotesNew fd ↔ some b.ipCache ∉ (m.fdNode.erase fd).map (addr m.cachesList) := by
  constructor
  · exact fun h => h hfd e he b hb
  · intro h _ e' he' b' hb'
    obtain rfl := Option.mem_unique he he'
    obtain rfl := Option.mem_unique hb hb'
    exact h

lemma entries_dead (hk : KeyedIn fds m.cachesList)
    (hknown : AllAddressed Announced m.cachesList) (hen : Entries m.cachesList m.fdNode)
    (hd : m.Dead fd out) :
    (∀ a ∈ out.master.fdNode, IsEntry (out.master.cachesList.erase fd) a) ∧
      ((out.master.fdNode.map (addr (out.master.cachesList.erase fd))).Nodup ↔ m.PromotesNew fd) := by
  have hnodes : m.fdNode.Nodup := hen.nodup.of_map _
  have hsame : ∀ {l' : Map ℤ FdMap} {nodes : List ℤ}, Entries l' nodes → m.PromotesNew fd →
      (∀ a ∈ nodes, IsEntry l' a) ∧ ((nodes.map (addr l')).Nodup ↔ m.PromotesNew fd) :=
    fun h hp => ⟨h.entry, iff_of_true h.nodup hp⟩
  cases hd with
  | @replica e b he hs hb =>
    have hfd : fd ∉ m.fdNode := fun hmem => by
      rw [(hen.entry fd hmem).status he] at hs
      exact absurd hs (by decide)
    have hunpaired := hen.insert_same (f := { b with pairFd := -1 }) hb rfl rfl id
    exact hsame (hunpaired.erase hfd) fun hmem => absurd hmem hfd
  | @paired e b _ _ he hs hpos hne hb _ h₂ =>
    by_cases hfd : fd ∈ m.fdNode
    · rw [promotesNew_iff hfd he hb]
      exact hen.promote hfd hne hb rfl rfl ((hknown _ b hb).of_sharp h₂) rfl
    · have hset : m.fdNode.set (m.fdNode.idxOf fd) e.pairFd = m.fdNode :=
        List.set_eq_of_length_le (List.idxOf_eq_length hfd).ge
      have hpromoted := hen.insert_same (f := { b with status := statusP, pairFd := -1 }) hb rfl rfl
        fun _ => rfl
      dsimp only
      rw [hset]
      exact hsame (hpromoted.erase hfd) fun hmem => absurd hmem hfd
  | @alone e he hs hpair hmem =>
    have hfd : fd ∉ m.fdNode.erase fd := hnodes.not_mem_erase
    refine hsame ((hen.of_sublist List.erase_sublist).erase hfd) (promotesNew_of_none fun e' he' => ?_)
    obtain rfl := Option.mem_unique he he'
    rw [Option.eq_none_iff_forall_ne_some]
    exact fun b hb => hpair (hk _ b hb).2.1
  | stray _ _ _ hmem => exact hsame (hen.erase hmem) fun hfd => absurd hfd hmem
  | other he hP =>
    have hfd : fd ∉ m.fdNode := fun hmem => hP ((hen.entry fd hmem).status he)
    exact hsame (hen.erase hfd) fun hmem => absurd hmem hfd

/-- A shrink that takes the last entry off `fd_node`, and a backup that is no entry. -/
lemma entries_shrinkEnd {l : List ℤ} (hen : Entries m.cachesList m.fdNode) (hl : m.fdNode = l ++ [fd])
    (hbackup : ∀ e ∈ m.cachesList.lookup fd, e.pairFd ∉ m.fdNode) (h : m.shrinkEnd fd = some out) :
    Entries out.master.cachesList out.master.fdNode := by
  have hdrop : m.fdNode.dropLast = l := by rw [hl, List.dropLast_concat]
  have hleft : Entries m.cachesList l := hen.of_sublist (hl ▸ List.sublist_append_left l [fd])
  have hnodes : m.fdNode.Nodup := hen.nodup.of_map _
  have hfd : fd ∉ l := by
    rw [hl, List.nodup_append] at hnodes
    exact fun hmem => hnodes.2.2 fd hmem fd (List.mem_singleton_self fd) rfl
  obtain ⟨-, e, he, ⟨-, -, rfl⟩ | ⟨-, rfl⟩⟩ := shrinkEnd_cases h
  · have hpair : e.pairFd ∉ l := fun hmem =>
      hbackup e he (hl ▸ List.mem_append_left [fd] hmem)
    dsimp only
    rw [hdrop]
    exact (hleft.erase hpair).erase hfd
  · dsimp only
    rw [hdrop]
    exact hleft.erase hfd

end Master

/-! ### Runs -/

namespace World

variable {w w' : World} {ev : Event}

/-- A cache that enters `fd_node`, as a primary that joins or as the backup of one that is dead, has an
address that no other position carries. -/
def NewAddress (w : World) : Event → Prop
  | .receive fd msg => msg.head? = some 120 → w.master.JoinsNew fd msg
  | .detect fd => w.master.heartBeatDetect w.timeNow fd = some false → w.master.PromotesNew fd
  | _ => True

instance decidableNewAddress (w : World) : (e : Event) → Decidable (w.NewAddress e)
  | .receive fd msg => inferInstanceAs (Decidable (msg.head? = some 120 → w.master.JoinsNew fd msg))
  | .detect fd => inferInstanceAs
    (Decidable (w.master.heartBeatDetect w.timeNow fd = some false → w.master.PromotesNew fd))
  | .accept _ | .shrinkBegin | .shrinkEnd | .tick => isTrue trivial

/-- The backup that goes with a primary that is shrunk is no entry of `fd_node`. -/
def BackupOutside (w : World) : Event → Prop
  | .shrinkEnd => ∀ sh ∈ w.shrinking, ∀ e ∈ w.master.cachesList.lookup sh.fd,
      e.pairFd ∉ w.master.fdNode
  | _ => True

instance decidableBackupOutside (w : World) : (e : Event) → Decidable (w.BackupOutside e)
  | .shrinkEnd => inferInstanceAs (Decidable (∀ sh ∈ w.shrinking,
      ∀ e ∈ w.master.cachesList.lookup sh.fd, e.pairFd ∉ w.master.fdNode))
  | .accept _ | .receive _ _ | .detect _ | .shrinkBegin | .tick => isTrue trivial

/-- Of two positions of `fd_node` the caches carry different addresses. -/
def AddressesDiffer (w : World) : Prop :=
  w.master.fdNode.Pairwise fun a b => ∀ e f, w.master.cachesList.lookup a = some e →
    w.master.cachesList.lookup b = some f → e.ipCache ≠ f.ipCache

lemma entries_step (hk : w.Keyed) (hi : w.RingInv) (hall : AllAddressed Announced w.master.cachesList)
    (hen : Entries w.master.cachesList w.master.fdNode) (hout : w.BackupOutside ev)
    (h : w.step ev = some w') : (∀ a ∈ w'.master.fdNode, IsEntry w'.master.cachesList a) ∧
      ((w'.master.fdNode.map (addr w'.master.cachesList)).Nodup ↔ w.NewAddress ev) := by
  cases ev with
  | accept fd =>
    obtain ⟨-, hfd, rfl⟩ := step_accept h
    have hmem : fd ∉ w.master.fdNode := fun hmem => by
      obtain ⟨e, he, -⟩ := hen.entry fd hmem
      exact hfd (hk fd e he).2.2
    have hen' : Entries (w.master.accept fd).cachesList w.master.fdNode := hen.insert_of_not_mem hmem
    exact ⟨hen'.entry, iff_of_true hen'.nodup trivial⟩
  | receive fd msg =>
    obtain ⟨-, ⟨hx, rfl⟩ | ⟨hx, m, am, hh, rfl⟩⟩ := step_receive h
    · exact ⟨hen.entry, iff_of_true hen.nodup fun hx' => absurd hx' hx⟩
    · obtain ⟨hentry, hnodup⟩ := Master.entries_heard hx hen hh
      exact ⟨hentry, hnodup.trans ⟨fun hj _ => hj, fun hj => hj hx⟩⟩
  | detect fd =>
    rcases step_detect hk h with ⟨halive, rfl⟩ | ⟨hdead, out, hd, rfl⟩
    · refine ⟨hen.entry, iff_of_true hen.nodup fun hdead => ?_⟩
      rw [halive] at hdead
      cases hdead
    · obtain ⟨hentry, hnodup⟩ := Master.entries_dead hk hall hen hd
      exact ⟨hentry, hnodup.trans ⟨fun hp _ => hp, fun hp => hp hdead⟩⟩
  | shrinkBegin =>
    obtain ⟨-, sh, e, -, -, -, rfl⟩ := step_shrinkBegin h
    exact ⟨hen.entry, iff_of_true hen.nodup trivial⟩
  | shrinkEnd =>
    obtain ⟨sh, out, hsh, -, hend, rfl⟩ := step_shrinkEnd h
    obtain ⟨-, f, hf, -⟩ := Master.shrinkEnd_cases hend
    obtain ⟨-, l, hl⟩ := hi.busy sh hsh (Finmap.mem_of_lookup_eq_some hf)
    have hen' := Master.entries_shrinkEnd hen hl (hout sh hsh) hend
    exact ⟨hen'.entry, iff_of_true hen'.nodup trivial⟩
  | tick =>
    cases h
    exact ⟨hen.entry, iff_of_true hen.nodup trivial⟩

lemma entries_of_reach
    (h : Reach Init step (fun w e => Atomic w e ∧ BackupOutside w e ∧ NewAddress w e) w) :
    Entries w.master.cachesList w.master.fdNode := by
  refine h.invariant (I := fun w => Entries w.master.cachesList w.master.fdNode) ?_
    fun w ev w' hr hen hok hstep => ?_
  · rintro _ ⟨t₀, rfl⟩
    exact ⟨fun a ha => absurd ha List.not_mem_nil, List.nodup_nil⟩
  · have hi := ringInv_of_reach (hr.mono fun _ _ hok => hok.1.undisturbed)
    obtain ⟨hentry, hnodup⟩ := entries_step (keyed_of_reach hr) hi (announced_of_reach hr) hen
      hok.2.1 hstep
    exact ⟨hentry, hnodup.mpr hok.2.2⟩

/-- **Addresses.**  While every cache that enters `fd_node` has an address that no other position
carries, the caches of two positions carry different addresses; and the first one that brings an address
that is there already ends it. -/
theorem addresses_differ_iff
    (h : Reach Init step (fun w e => Atomic w e ∧ BackupOutside w e ∧ NewAddress w e) w) :
    w.AddressesDiffer ∧ ∀ ev w', w.Atomic ev → w.BackupOutside ev → w.step ev = some w' →
      (w.NewAddress ev ↔ w'.AddressesDiffer) := by
  have hen := entries_of_reach h
  have hi := ringInv_of_reach (h.mono fun _ _ hok => hok.1.undisturbed)
  refine ⟨(pairwise_addr_iff hen.entry).mp hen.nodup, fun ev w' _ hout hstep => ?_⟩
  obtain ⟨hentry, hnodup⟩ := entries_step (keyed_of_reach h) hi (announced_of_reach h) hen hout hstep
  rw [← hnodup]
  exact pairwise_addr_iff hentry

/-- A primary dies, its backup takes its place, and the primary starts again with its old address when
its old connection is gone. -/
theorem addresses_differ_iff_restart : ∃ w,
    path step (fun w e => Atomic w e ∧ BackupOutside w e ∧ NewAddress w e) (start 1638316800)
      (joinPair ++ fiveSeconds ++ [.detect 5, .accept 7,
        .receive 7 (lit "x#127.0.0.1#8001#9001#P")]) = some w ∧
    w.master.fdNode = [6, 7] ∧ w.AddressesDiffer := by
  have hrun : (path step (fun w e => Atomic w e ∧ BackupOutside w e ∧ NewAddress w e)
      (start 1638316800) (joinPair ++ fiveSeconds ++ [.detect 5, .accept 7,
        .receive 7 (lit "x#127.0.0.1#8001#9001#P")])).map (fun w => w.master.fdNode) =
      some [6, 7] := by
    decide +kernel
  obtain ⟨w, hw, hnode⟩ := Option.map_eq_some_iff.mp hrun
  exact ⟨w, hw, hnode, (addresses_differ_iff (reach_of_path ⟨_, rfl⟩ hw)).1⟩

/-- A primary crashes after its first heartbeat and starts again with the same arguments at once: its old
connection is still in `fd_node`, and so is the new one, with the same address. -/
theorem addresses_restart_twice : ∃ w, Reach Init step Atomic w ∧ w.master.fdNode = [5, 6] ∧
    ¬ w.AddressesDiffer := by
  have hrun : (path step Atomic (start 1638316800)
      [.accept 5, .receive 5 (lit "x#127.0.0.1#8001#9001#P"), .accept 6,
        .receive 6 (lit "x#127.0.0.1#8001#9001#P")]).map (fun w => (w.master.fdNode,
          addr w.master.cachesList 5, addr w.master.cachesList 6)) =
      some ([5, 6], some (lit "127.0.0.1#9001"), some (lit "127.0.0.1#9001")) := by
    decide +kernel
  obtain ⟨w, hw, hf⟩ := Option.map_eq_some_iff.mp hrun
  rw [Prod.mk.injEq, Prod.mk.injEq] at hf
  obtain ⟨hnode, h₅, h₆⟩ := hf
  refine ⟨w, reach_of_path ⟨_, rfl⟩ hw, hnode, fun hdiffer => ?_⟩
  obtain ⟨e, he, hecache⟩ := Option.map_eq_some_iff.mp h₅
  obtain ⟨f, hf, hfcache⟩ := Option.map_eq_some_iff.mp h₆
  unfold AddressesDiffer at hdiffer
  rw [hnode, List.pairwise_pair] at hdiffer
  exact hdiffer e f he hf (hecache.trans hfcache.symm)

end World

end DistCache
