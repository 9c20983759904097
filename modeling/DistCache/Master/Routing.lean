import Mathlib.Tactic.IntervalCases
import DistCache.Master.RingInv

/-!
Which primary a key is routed to when another primary goes, or joins.

Consistent hashing promises that a removal moves the keys of the primary that goes and no others.
The master takes the points of the *last* shard off the ring whichever primary goes, and
`fd_node.erase` moves every later primary one shard down.  So the promise holds for the keys of the
primaries before the one that goes, and hence for every shrink; behind it a primary keeps a key
only when it is the last one and the key falls to the shard it comes down to.
-/

namespace DistCache

open Lib

namespace Master

variable {m m' : Master} {i j : ℕ} {p q : ℤ} {key : Str}

lemma lookupIndex_eq_owner : m.lookupIndex key = m.cacheAddrHash.owner key := rfl

/-- The primary `p` at position `i` goes from `fd_node`, its shard from the ring, and its record
(and that of its partner) from `caches_list`. -/
structure Removes (m : Master) (i : ℕ) (p : ℤ) (m' : Master) : Prop where
  node : m.fdNode[i]? = some p
  fdNode : m'.fdNode = m.fdNode.eraseIdx i
  hash : m'.cacheAddrHash = m.cacheAddrHash.deleteNode i
  partner : ∀ e ∈ m.cachesList.lookup p, 0 < e.pairFd → m'.cachesList.lookup e.pairFd = none
  lookup : ∀ a, a ≠ p → (∀ e ∈ m.cachesList.lookup p, e.pairFd ≠ a) →
    m'.cachesList.lookup a = m.cachesList.lookup a

/-- The key does not change hands when position `i` goes: it belongs to a shard before, or to the
last one and falls to the one before that. -/
def KeepsRoute (m : Master) (i : ℕ) (key : Str) : Prop :=
  ∃ j, m.lookupIndex key = some j ∧
    (j < i ∨ (i < j ∧ j + 1 = m.fdNode.length ∧ m.cacheAddrHash.nextOwner key = some (j - 1)))

/-- Where a key goes. -/
lemma Removes.lookupFd (hr : m.Removes i p m') (hc : m.cacheAddrHash.Labelled)
    (hfull : m.cacheAddrHash.Complete) :
    m'.lookupFd key = (m.cacheAddrHash.nextOwner key).bind fun j =>
      if j < i then m.fdNode[j]? else m.fdNode[j + 1]? := by
  simp only [Master.lookupFd, Option.bind_eq_bind, lookupIndex_eq_owner, hr.hash, hr.fdNode,
    ConsistentHash.owner_deleteNode hc hfull, List.getElem?_eraseIdx]

/-- A key of another primary that keeps its route. -/
lemma Removes.lookupFd_of_keeps (hr : m.Removes i p m') (hc : m.cacheAddrHash.Labelled)
    (hfull : m.cacheAddrHash.Complete) (hnodes : m.cacheAddrHash.nodes = m.fdNode.length)
    (hq : m.lookupFd key = some q) (hkeep : m.KeepsRoute i key) : m'.lookupFd key = some q := by
  obtain ⟨j, hj, hcase⟩ := hkeep
  rw [Master.lookupFd, hj, Option.bind_eq_bind, Option.bind_some] at hq
  have hi := (List.getElem?_eq_some_iff.mp hr.node).1
  rw [hr.lookupFd hc hfull]
  rcases hcase with hlt | ⟨hlt, hlast, hnext⟩
  · have hne : (j : ℤ) ≠ m.cacheAddrHash.nodes - 1 := by omega
    rw [ConsistentHash.nextOwner_of_owner hj hne, Option.bind_some, if_pos hlt, hq]
  · have hj1 : j - 1 + 1 = j := by omega
    rw [hnext, Option.bind_some, if_neg (by omega), hj1, hq]

/-- A key of another primary that does not keep its route, when no primary is listed twice. -/
lemma Removes.keeps_of_lookupFd (hr : m.Removes i p m') (hc : m.cacheAddrHash.Labelled)
    (hfull : m.cacheAddrHash.Complete) (hnodes : m.cacheAddrHash.nodes = m.fdNode.length)
    (hnodup : m.fdNode.Nodup) (hq : m.lookupFd key = some q) (hqp : q ≠ p)
    (h' : m'.lookupFd key = some q) : m.KeepsRoute i key := by
  obtain ⟨j, hj, hjq⟩ := Option.bind_eq_some_iff.mp hq
  have hjlen := (List.getElem?_eq_some_iff.mp hjq).1
  -- the position of `q` is the only one
  have huniq : ∀ k, m.fdNode[k]? = some q → k = j := fun k hk =>
    (List.getElem?_inj (List.getElem?_eq_some_iff.mp hk).1 hnodup).mp (hk.trans hjq.symm)
  have hji : j ≠ i := by
    rintro rfl
    exact hqp (Option.some.inj (hjq.symm.trans hr.node))
  refine ⟨j, hj, (Nat.lt_or_gt_of_ne hji).imp_right fun hlt => ?_⟩
  rw [hr.lookupFd hc hfull] at h'
  obtain ⟨v, hv, hget⟩ := Option.bind_eq_some_iff.mp h'
  have hv1 : v + 1 = j := by
    split_ifs at hget with hvi
    · have := huniq v hget
      omega
    · exact huniq (v + 1) hget
  refine ⟨hlt, ?_, by rw [hv]; congr 1; omega⟩
  by_contra hlast
  have hne : (j : ℤ) ≠ m.cacheAddrHash.nodes - 1 := by omega
  rw [ConsistentHash.nextOwner_of_owner hj hne, Option.some.injEq] at hv
  omega

/-- A key is looked up in `fd_node`. -/
lemma mem_of_lookupFd (h : m.lookupFd key = some q) : q ∈ m.fdNode := by
  obtain ⟨i, -, hq⟩ := Option.bind_eq_some_iff.mp h
  exact List.mem_of_getElem? hq

/-- The answer to a client is a matter of the descriptor and its record. -/
lemma handleClientMessage_congr (hq : m.lookupFd key = some q) (hq' : m'.lookupFd key = some q)
    (hrec : m'.cachesList.lookup q = m.cachesList.lookup q) :
    m'.handleClientMessage key = m.handleClientMessage key := by
  unfold Master.handleClientMessage
  rw [hq, hq', Option.bind_eq_bind, Option.bind_some, Option.bind_eq_bind, Option.bind_some, hrec]

/-- Only a registered connection is answered with. -/
lemma exists_lookup_of_handleClientMessage {addr : Str} (hq : m.lookupFd key = some q)
    (h : m.handleClientMessage key = some addr) : ∃ e, m.cachesList.lookup q = some e := by
  unfold Master.handleClientMessage at h
  rw [hq, Option.bind_eq_bind, Option.bind_some] at h
  obtain ⟨e, he, -⟩ := Option.bind_eq_some_iff.mp h
  exact ⟨e, he⟩

end Master

/-! ### The two removals -/

namespace World

variable {w w₁ w₂ w' : World} {i n : ℕ} {p q : ℤ} {key : Str}

/-- The primary `p` at position `i` goes and no backup takes its place. -/
inductive Removal (w : World) : ℕ → ℤ → World → Prop
  /-- `p` is found dead, and has no backup. -/
  | death {p : ℤ} {e : FdMap} {w' : World} (hidle : w.shrinking = none) (hmem : p ∈ w.master.fdNode)
      (he : w.master.cachesList.lookup p = some e) (hs : e.status = statusP)
      (hpair : ¬ 0 < e.pairFd) (hdead : w.master.heartBeatDetect w.timeNow p = some false)
      (h : w.step (.detect p) = some w') : Removal w (w.master.fdNode.idxOf p) p w'
  /-- `p` is shrunk. -/
  | shrink {p : ℤ} {n : ℕ} {w₁ w₂ w' : World} (hlast : w.master.fdNode.getLast? = some p)
      (h₁ : w.step .shrinkBegin = some w₁)
      (hwait : path step (fun _ _ => True) w₁ (List.replicate n .tick) = some w₂)
      (h₂ : w₂.step .shrinkEnd = some w') : Removal w (w.master.fdNode.length - 1) p w'

/-- Time alone passes. -/
lemma path_ticks (h : path step (fun _ _ => True) w (List.replicate n .tick) = some w') :
    w'.master = w.master ∧ w'.shrinking = w.shrinking := by
  induction n generalizing w with
  | zero =>
    cases h
    exact ⟨rfl, rfl⟩
  | succ n ih =>
    rw [List.replicate_succ, path, if_pos trivial] at h
    exact ih (w := { w with timeNow := w.timeNow + 1 }) h

lemma Removal.idle (hr : w.Removal i p w') : w.shrinking = none := by
  cases hr with
  | death hidle => exact hidle
  | shrink _ h₁ => exact (step_shrinkBegin h₁).1

lemma Removal.removes (hk : w.Keyed) (hr : w.Removal i p w') :
    w.master.Removes i p w'.master := by
  cases hr with
  | @death _ e w' hidle hmem he hs hpair hdead h =>
    rcases step_detect hk h with ⟨halive, -⟩ | ⟨-, out, hd, rfl⟩
    · rw [hdead] at halive
      cases halive
    · have hidx := List.idxOf_lt_length_of_mem hmem
      have hnode : w.master.fdNode[w.master.fdNode.idxOf p]? = some p := by
        rw [List.getElem?_eq_getElem hidx, List.getElem_idxOf]
      cases hd with
      | replica he' hs' =>
        rw [he, Option.some.injEq] at he'
        subst he'
        rw [hs] at hs'
        exact absurd hs' (by decide)
      | paired he' _ hpos =>
        rw [he, Option.some.injEq] at he'
        subst he'
        exact absurd hpos hpair
      | alone =>
        refine ⟨hnode, List.erase_eq_eraseIdx_of_idxOf rfl, rfl, fun f hf hpos => ?_,
          fun a ha _ => Finmap.lookup_erase_ne ha⟩
        cases he.symm.trans hf
        exact absurd hpos hpair
      | stray _ _ _ hno => exact absurd hmem hno
      | other he' hP =>
        rw [he, Option.some.injEq] at he'
        subst he'
        exact absurd hs hP
  | @shrink _ n w₁ w₂ w' hlast h₁ hwait h₂ =>
    obtain ⟨-, sh, e, hlast', he, -, rfl⟩ := step_shrinkBegin h₁
    obtain ⟨hmaster, hsh⟩ := path_ticks hwait
    obtain ⟨sh', out, hsh', -, hend, rfl⟩ := step_shrinkEnd h₂
    cases hsh.symm.trans hsh'
    rw [hlast, Option.some.injEq] at hlast'
    subst hlast'
    rw [hmaster] at hend
    have hnode : w.master.fdNode[w.master.fdNode.length - 1]? = some sh.fd := by
      rw [← List.getLast?_eq_getElem?, hlast]
    obtain ⟨-, e', he', hout⟩ := Master.shrinkEnd_cases hend
    rcases hout with ⟨-, hne, rfl⟩ | ⟨hpair, rfl⟩
    · refine ⟨hnode, List.eraseIdx_length_sub_one.symm, rfl, fun f hf _ => ?_, fun a ha hb => ?_⟩
      · cases he'.symm.trans hf
        exact (Finmap.lookup_erase_ne hne).trans (Finmap.lookup_erase _ _)
      · exact (Finmap.lookup_erase_ne ha).trans (Finmap.lookup_erase_ne (hb e' he').symm)
    · refine ⟨hnode, List.eraseIdx_length_sub_one.symm, rfl, fun f hf hpos => ?_,
        fun a ha _ => Finmap.lookup_erase_ne ha⟩
      cases he'.symm.trans hf
      exact absurd hpos hpair

/-- **Removals.**  In a ring without collisions the key of another primary keeps its route when
that primary stands before the one that goes, or is the last one and the key falls to the shard it
comes down to (and is not the backup of the one that goes); and, when no primary is listed twice,
in no other case. -/
theorem removal_keeps_route {addr : Str} (h : Reach Init step Atomic w) (hr : w.Removal i p w')
    (hfull : w.master.cacheAddrHash.Complete) (hq : w.master.lookupFd key = some q) (hqp : q ≠ p)
    (haddr : w.master.handleClientMessage key = some addr) :
    (w.master.KeepsRoute i key ∧ (∀ e ∈ w.master.cachesList.lookup p, e.pairFd ≠ q) →
      w'.master.lookupFd key = some q ∧ w'.master.handleClientMessage key = some addr) ∧
    (w.master.fdNode.Nodup →
      w'.master.lookupFd key = some q ∧ w'.master.handleClientMessage key = some addr →
      w.master.KeepsRoute i key ∧ ∀ e ∈ w.master.cachesList.lookup p, e.pairFd ≠ q) := by
  have hi := ringInv_of_reach (h.mono fun _ _ => Atomic.undisturbed)
  have hnodes := hi.idle hr.idle
  have hrem := hr.removes (keyed_of_reach h)
  constructor
  · rintro ⟨hkeep, hpair⟩
    have hq' := hrem.lookupFd_of_keeps hi.labelled hfull hnodes hq hkeep
    refine ⟨hq', ?_⟩
    rw [Master.handleClientMessage_congr hq hq' (hrem.lookup q hqp hpair), haddr]
  · rintro hnodup ⟨hq', haddr'⟩
    refine ⟨hrem.keeps_of_lookupFd hi.labelled hfull hnodes hnodup hq hqp hq', ?_⟩
    rintro e he rfl
    obtain ⟨f, hf⟩ := Master.exists_lookup_of_handleClientMessage hq haddr
    obtain ⟨f', hf'⟩ := Master.exists_lookup_of_handleClientMessage hq' haddr'
    rw [hrem.partner e he (keyed_of_reach h _ f hf).2.1] at hf'
    cases hf'

/-! ### A primary that joins -/

/-- **Arrivals.**  When a shard joins a ring that is not empty every key keeps its owner or goes to the
new shard, collisions of labels included; and when a primary joins, every key keeps its primary or goes
to the new one. -/
theorem join_keeps_route {c : ConsistentHash} (hne : c.key2Index.keys.Nonempty) (key : Str) :
    (∃ i, c.owner key = some i ∧ ∀ index, (c.addNode index).owner key = some i ∨
      (c.addNode index).owner key = some index) ∧
    ∀ (w w' : World) (fd : ℤ) (msg : Str), w.master.cacheAddrHash = c →
      w.master.Joins fd msg (lit "P") → w.step (.receive fd msg) = some w' →
      w'.master.lookupFd key = w.master.lookupFd key ∨ w'.master.lookupFd key = some fd := by
  obtain ⟨i, hi⟩ := ConsistentHash.exists_owner hne key
  refine ⟨⟨i, hi, fun index => ?_⟩, fun w w' fd msg hring hjoin hstep => ?_⟩
  · rw [← hi]
    exact c.owner_addNode index key
  · obtain ⟨-, ⟨hx, -⟩ | ⟨-, m, am, hh, rfl⟩⟩ := step_receive hstep
    · exact absurd hjoin.1 hx
    · rcases hh.node_cases with ⟨hnode, hhash⟩ | ⟨-, hnode, hhash⟩
      · left
        show m.lookupFd key = w.master.lookupFd key
        simp only [Master.lookupFd, Master.lookupIndex, hnode, hhash]
      · have hfd : m.lookupFd key = (m.cacheAddrHash.owner key).bind fun j => m.fdNode[j]? := rfl
        have hfd' : w.master.lookupFd key = (c.owner key).bind fun j => w.master.fdNode[j]? := by
          rw [← hring]
          rfl
        show m.lookupFd key = w.master.lookupFd key ∨ m.lookupFd key = some fd
        rw [hfd, hfd', hhash, hnode, hring]
        rcases c.owner_addNode w.master.fdNode.length key with howner | howner
        · rw [howner, hi, Option.bind_some, Option.bind_some]
          rcases lt_trichotomy i w.master.fdNode.length with hlt | heq | hgt
          · exact .inl (List.getElem?_append_left hlt)
          · right
            rw [heq]
            exact List.getElem?_concat_length
          · left
            have hlen : (w.master.fdNode ++ [fd]).length ≤ i := by
              rw [List.length_append, List.length_singleton]
              omega
            rw [List.getElem?_eq_none hlen, List.getElem?_eq_none hgt.le]
        · right
          rw [howner, Option.bind_some]
          exact List.getElem?_concat_length

/-- A second primary joins, and a key keeps the first one or goes to the second. -/
theorem join_keeps_route_second : ∃ w w' : World,
    path step (fun _ _ => True) (start 1638316800)
      [.accept 5, .receive 5 (lit "x#127.0.0.1#8001#9001#P"), .accept 6] = some w ∧
    w.step (.receive 6 (lit "x#127.0.0.1#8002#9002#P")) = some w' ∧
    (w'.master.lookupFd (lit "x") = w.master.lookupFd (lit "x") ∨
      w'.master.lookupFd (lit "x") = some 6) := by
  have hrun : (path step (fun _ _ => True) (start 1638316800)
      [.accept 5, .receive 5 (lit "x#127.0.0.1#8001#9001#P"), .accept 6]).map (fun w =>
        (decide w.master.cacheAddrHash.key2Index.keys.Nonempty,
          decide (w.master.Joins 6 (lit "x#127.0.0.1#8002#9002#P") (lit "P")),
          (w.step (.receive 6 (lit "x#127.0.0.1#8002#9002#P"))).isSome)) =
      some (true, true, true) := by
    decide +kernel
  obtain ⟨w, hw, hf⟩ := Option.map_eq_some_iff.mp hrun
  rw [Prod.mk.injEq, Prod.mk.injEq, decide_eq_true_iff, decide_eq_true_iff] at hf
  obtain ⟨hne, hjoin, hsome⟩ := hf
  obtain ⟨w', hw'⟩ := Option.isSome_iff_exists.mp hsome
  exact ⟨w, w', hw, hw', (join_keeps_route hne (lit "x")).2 w w' 6 _ rfl hjoin hw'⟩

/-! ### Points with one label in runs with few primaries -/

/-- A step changes the ring by a removal, or by the arrival of a primary. -/
lemma hash_step {e : Event} (hk : w.Keyed) (h : w.step e = some w') :
    w'.master.cacheAddrHash = w.master.cacheAddrHash ∨
      (∃ index, w'.master.cacheAddrHash = w.master.cacheAddrHash.deleteNode index) ∨
      ∃ fd msg, e = .receive fd msg ∧
        w'.master.cacheAddrHash = w.master.cacheAddrHash.addNode w.master.fdNode.length := by
  cases e with
  | accept fd =>
    obtain ⟨-, -, rfl⟩ := step_accept h
    exact .inl rfl
  | receive fd msg =>
    obtain ⟨-, ⟨-, rfl⟩ | ⟨-, m, am, hh, rfl⟩⟩ := step_receive h
    · exact .inl rfl
    · rcases hh.node_cases with ⟨-, hhash⟩ | ⟨-, -, hhash⟩
      · exact .inl hhash
      · exact .inr (.inr ⟨fd, msg, rfl, hhash⟩)
  | detect fd =>
    rcases step_detect hk h with ⟨-, rfl⟩ | ⟨-, out, hd, rfl⟩
    · exact .inl rfl
    · rcases hd.node_cases with ⟨-, hhash⟩ | ⟨-, -, hhash⟩ | ⟨-, -, hhash⟩
      · exact .inl hhash
      · exact .inl hhash
      · exact .inr (.inl ⟨_, hhash⟩)
  | shrinkBegin =>
    obtain ⟨-, sh, e, -, -, -, rfl⟩ := step_shrinkBegin h
    exact .inr (.inl ⟨_, rfl⟩)
  | shrinkEnd =>
    obtain ⟨sh, out, -, -, hend, rfl⟩ := step_shrinkEnd h
    obtain ⟨-, e, -, ⟨-, -, rfl⟩ | ⟨-, rfl⟩⟩ := Master.shrinkEnd_cases hend <;> exact .inl rfl
  | tick =>
    cases h
    exact .inl rfl

/-- Heartbeats come only while there are fewer than `N` primaries. -/
def Below (N : ℕ) (w : World) : Event → Prop
  | .receive _ _ => w.master.fdNode.length < N
  | _ => True

instance decidableBelow (N : ℕ) (w : World) : (e : Event) → Decidable (Below N w e)
  | .receive _ _ => inferInstanceAs (Decidable (w.master.fdNode.length < N))
  | .accept _ | .detect _ | .shrinkBegin | .shrinkEnd | .tick => isTrue trivial

variable {N : ℕ}

/-- The arrival of a primary in such a run: the new shard is the next one. -/
lemma nodes_of_below {fd : ℤ} {msg : Str}
    (hr : Reach Init step (fun w e => Atomic w e ∧ Below N w e) w)
    (hok : w.Atomic (.receive fd msg) ∧ Below N w (.receive fd msg)) :
    (w.master.fdNode.length : ℤ) = w.master.cacheAddrHash.nodes ∧
      w.master.cacheAddrHash.nodes < N := by
  have hi := ringInv_of_reach (hr.mono fun _ _ hok => hok.1.undisturbed)
  have hidle : w.shrinking = none := by
    rcases hok.1 with h | h | h
    · exact h
    · cases h
    · cases h
  have hnodes := hi.idle hidle
  have hlen : w.master.fdNode.length < N := hok.2
  omega

/-- The ring has 100 labels a shard and at most `N` shards. -/
lemma size_of_reach (h : Reach Init step (fun w e => Atomic w e ∧ Below N w e) w) :
    w.master.cacheAddrHash.vNodes = 100 ∧ w.master.cacheAddrHash.nodes ≤ N := by
  refine h.invariant
    (I := fun w => w.master.cacheAddrHash.vNodes = 100 ∧ w.master.cacheAddrHash.nodes ≤ (N : ℤ)) ?_ ?_
  · rintro _ ⟨t₀, rfl⟩
    have hnodes : (start t₀).master.cacheAddrHash.nodes = 0 := rfl
    exact ⟨rfl, by omega⟩
  · rintro w e w' hr ⟨hv, hN⟩ hok hs
    rcases hash_step (keyed_of_reach hr) hs with hhash | ⟨index, hhash⟩ | ⟨fd, msg, rfl, hhash⟩ <;>
      rw [hhash]
    · exact ⟨hv, hN⟩
    · exact ⟨hv, by rw [ConsistentHash.nodes_deleteNode]; omega⟩
    · have hlt := (nodes_of_below hr hok).2
      exact ⟨hv, by rw [ConsistentHash.nodes_addNode]; omega⟩

/-- A point with one label among `N` shards belongs to the shard of that label, as long as there are
no more primaries. -/
theorem owned_of_reach {p : UInt32} (honly : ConsistentHash.OnlyLabel 100 N i p)
    (h : Reach Init step (fun w e => Atomic w e ∧ Below N w e) w) :
    w.master.cacheAddrHash.Owned i p := by
  refine h.invariant (I := fun w => w.master.cacheAddrHash.Owned i p) ?_ ?_
  · rintro _ ⟨t₀, rfl⟩ hlt
    have hnodes : (start t₀).master.cacheAddrHash.nodes = 0 := rfl
    omega
  · intro w e w' hr ho hok hs
    have hi := ringInv_of_reach (hr.mono fun _ _ hok => hok.1.undisturbed)
    obtain ⟨hv, hN⟩ := size_of_reach hr
    rcases hash_step (keyed_of_reach hr) hs with hhash | ⟨index, hhash⟩ | ⟨fd, msg, rfl, hhash⟩ <;>
      rw [hhash]
    · exact ho
    · exact ho.deleteNode (hv ▸ honly) hN
    · obtain ⟨hnodes, hlt⟩ := nodes_of_below hr hok
      exact ho.addNode hi.labelled (hv ▸ honly) hlt hnodes

/-- With `N` primaries at most, and no collision among the labels of `N` shards, the ring is always
complete. -/
theorem complete_of_reach
    (honly : ∀ i < N, ∀ j < 100, ConsistentHash.OnlyLabel 100 N i (point i j))
    (h : Reach Init step (fun w e => Atomic w e ∧ Below N w e) w) :
    w.master.cacheAddrHash.Complete := by
  rintro i p hi ⟨j, hj, rfl⟩
  obtain ⟨hv, hN⟩ := size_of_reach h
  exact owned_of_reach (honly i (by omega) j (by omega)) h hi

/-- A key whose hash is a point with one label is routed by the position of that label. -/
lemma lookupFd_of_owned (honly : ConsistentHash.OnlyLabel 100 N i (murmur3_32 key))
    (h : Reach Init step (fun w e => Atomic w e ∧ Below N w e) w) (hidle : w.shrinking = none)
    (hq : w.master.fdNode[i]? = some q) : w.master.lookupFd key = some q := by
  have hi := ringInv_of_reach (h.mono fun _ _ hok => hok.1.undisturbed)
  have hlt := (List.getElem?_eq_some_iff.mp hq).1
  have hnodes := hi.idle hidle
  have howner := ConsistentHash.owner_of_lookup (owned_of_reach honly h (by omega))
  rw [Master.lookupFd, Master.lookupIndex_eq_owner, howner, Option.bind_eq_bind, Option.bind_some,
    hq]

/-! ### A key that changes hands -/

/-- Three primaries join, and the first one falls silent. -/
def firstSilent : List Event :=
  [.accept 5, .receive 5 (lit "x#127.0.0.1#8001#9001#P"), .tick, .tick, .tick,
    .accept 6, .receive 6 (lit "x#127.0.0.1#8002#9002#P"),
    .accept 7, .receive 7 (lit "x#127.0.0.1#8003#9003#P"), .tick, .tick]

/-- The address a key is answered with, from the position it is looked up at. -/
lemma handleClientMessage_of_lookupFd {m : Master} {ipPort addr : Str}
    (hq : m.lookupFd key = some q) (hrec : (m.cachesList.lookup q).map FdMap.ipPort = some ipPort)
    (haddr : (do
      let ip ← (splitSharp ipPort)[0]?
      let port ← (splitSharp ipPort)[1]?
      return ip ++ colon :: port) = some addr) : m.handleClientMessage key = some addr := by
  obtain ⟨e, he, rfl⟩ := Option.map_eq_some_iff.mp hrec
  rw [Master.handleClientMessage, hq, Option.bind_eq_bind, Option.bind_some, he,
    Option.bind_eq_bind, Option.bind_some]
  exact haddr

/-- The first of three primaries dies, and a key of the second one goes to the third. -/
theorem removal_moves_route : ∃ w w', Reach Init step Atomic w ∧ w.Removal 0 5 w' ∧
    w.master.lookupFd ConsistentHash.labelKey = some 6 ∧
    w.master.handleClientMessage ConsistentHash.labelKey = some (lit "127.0.0.1:8002") ∧
    w'.master.lookupFd ConsistentHash.labelKey = some 7 ∧
    w'.master.handleClientMessage ConsistentHash.labelKey = some (lit "127.0.0.1:8003") := by
  have hbefore : (path step (fun w e => Atomic w e ∧ Below 3 w e) (start 1638316800)
      firstSilent).bind (fun w => (w.master.cachesList.lookup 5).map fun e =>
        (w.shrinking.isNone, w.master.fdNode, e.status, e.pairFd,
          w.master.heartBeatDetect w.timeNow 5)) =
      some (true, [5, 6, 7], statusP, -1, some false) := by
    decide +kernel
  have hafter : ((path step (fun w e => Atomic w e ∧ Below 3 w e) (start 1638316800)
      firstSilent).bind (fun w => w.step (.detect 5))).map (fun w' =>
        (w'.shrinking.isNone, w'.master.fdNode)) = some (true, [6, 7]) := by
    decide +kernel
  have haddr : ((path step (fun w e => Atomic w e ∧ Below 3 w e) (start 1638316800)
      firstSilent).map fun w => (w.master.cachesList.lookup 6).map FdMap.ipPort) =
        some (some (lit "127.0.0.1#8002")) ∧
      (((path step (fun w e => Atomic w e ∧ Below 3 w e) (start 1638316800)
      firstSilent).bind (fun w => w.step (.detect 5))).map fun w' =>
        (w'.master.cachesList.lookup 7).map FdMap.ipPort) =
          some (some (lit "127.0.0.1#8003")) := by
    decide +kernel
  obtain ⟨w, hw, hf⟩ := Option.bind_eq_some_iff.mp hbefore
  obtain ⟨e, he, hf⟩ := Option.map_eq_some_iff.mp hf
  obtain ⟨w', hw', hf'⟩ := Option.map_eq_some_iff.mp hafter
  rw [hw, Option.bind_some] at hw'
  rw [hw, Option.bind_some, hw', Option.map_some, Option.map_some, Option.some.injEq,
    Option.some.injEq] at haddr
  simp only [Prod.mk.injEq, Option.isNone_iff_eq_none] at hf hf'
  obtain ⟨hidle, hnode, hstatus, hpair, hdead⟩ := hf
  obtain ⟨hidle', hnode'⟩ := hf'
  have hr : Reach Init step (fun w e => Atomic w e ∧ Below 3 w e) w := reach_of_path ⟨_, rfl⟩ hw
  have hok : w.Atomic (.detect 5) ∧ Below 3 w (.detect 5) := ⟨.inl hidle, trivial⟩
  have hr' := hr.next hok hw'
  have hq := lookupFd_of_owned ConsistentHash.onlyLabel_labelKey hr hidle (q := 6) (by rw [hnode]; rfl)
  have hq' := lookupFd_of_owned ConsistentHash.onlyLabel_labelKey hr' hidle' (q := 7) (by rw [hnode']; rfl)
  have hrem := Removal.death hidle (by rw [hnode]; decide) he hstatus (by rw [hpair]; decide) hdead hw'
  rw [hnode] at hrem
  exact ⟨w, w', hr.mono fun _ _ hok => hok.1, hrem, hq,
    handleClientMessage_of_lookupFd hq haddr.1 (by decide), hq',
    handleClientMessage_of_lookupFd hq' haddr.2 (by decide)⟩

/-! ### A key that stays -/

/-- The second of two primaries is shrunk, and a key of the first one stays. -/
theorem removal_keeps_route_shrunk : ∃ w w' : World, w.Removal 1 6 w' ∧
    w.master.lookupFd (lit "SHARD-0NODE-0") = some 5 ∧
    w'.master.lookupFd (lit "SHARD-0NODE-0") = some 5 := by
  have hjoin : (path step (fun w e => Atomic w e ∧ Below 2 w e) (start 1638316800)
      (shrinkSecond.dropLast)).bind (fun w => (w.master.cachesList.lookup 6).map fun e =>
        (w.shrinking.isNone, w.master.fdNode, e.pairFd,
          (w.master.cachesList.lookup 5).map FdMap.ipPort)) =
      some (true, [5, 6], -1, some (lit "127.0.0.1#8001")) := by
    decide +kernel
  have hshrink : (((path step (fun w e => Atomic w e ∧ Below 2 w e) (start 1638316800)
      shrinkSecond.dropLast).bind fun w => w.step .shrinkBegin).bind fun w₁ =>
        (path step (fun _ _ => True) w₁ (List.replicate 5 .tick)).bind fun w₂ =>
          w₂.step .shrinkEnd).isSome = true := by
    decide +kernel
  obtain ⟨w, hw, hf⟩ := Option.bind_eq_some_iff.mp hjoin
  obtain ⟨e, he, hf⟩ := Option.map_eq_some_iff.mp hf
  simp only [Prod.mk.injEq, Option.isNone_iff_eq_none] at hf
  obtain ⟨hidle, hnode, hpair, hrec⟩ := hf
  obtain ⟨w', hw'⟩ := Option.isSome_iff_exists.mp hshrink
  rw [hw, Option.bind_some] at hw'
  obtain ⟨w₁, h₁, hw'⟩ := Option.bind_eq_some_iff.mp hw'
  obtain ⟨w₂, hwait, h₂⟩ := Option.bind_eq_some_iff.mp hw'
  have hr : Reach Init step (fun w e => Atomic w e ∧ Below 2 w e) w := reach_of_path ⟨_, rfl⟩ hw
  have hfull := complete_of_reach ConsistentHash.onlyLabel_two hr
  have honly : ConsistentHash.OnlyLabel 100 2 0 (murmur3_32 (lit "SHARD-0NODE-0")) := by
    have hpoint : murmur3_32 (lit "SHARD-0NODE-0") = point (0 : ℕ) 0 := by decide +kernel
    rw [hpoint]
    exact ConsistentHash.onlyLabel_two 0 (by decide) 0 (by decide)
  have hq := lookupFd_of_owned honly hr hidle (q := 5) (by rw [hnode]; rfl)
  have haddr : w.master.handleClientMessage (lit "SHARD-0NODE-0") = some (lit "127.0.0.1:8001") :=
    handleClientMessage_of_lookupFd hq hrec (by decide)
  have hrem := Removal.shrink (by rw [hnode]; rfl) h₁ hwait h₂
  rw [hnode] at hrem
  refine ⟨w, w', hrem, hq, ((removal_keeps_route (hr.mono fun _ _ hok => hok.1) hrem hfull hq
    (by decide) haddr).1 ⟨⟨0, ?_, .inl (by decide)⟩, fun f hf => ?_⟩).1⟩
  · have howner := owned_of_reach honly hr (by
      have hi := ringInv_of_reach (hr.mono fun _ _ hok => hok.1.undisturbed)
      have hnodes := hi.idle hidle
      rw [hnode] at hnodes
      rw [hnodes]
      decide)
    exact ConsistentHash.owner_of_lookup howner
  · cases he.symm.trans hf
    rw [hpair]
    decide

end World

end DistCache
