import DistCache.Master.World

/-!
The ring against `fd_node`.

Between two events that are no part of a shrink the ring has as many shards in play as `fd_node`
has entries, and every point belongs to one of them.  In the wait of a shrink the ring is one
shard short, for the last entry of `fd_node`; the code counts on that entry being last still when
the wait is over.  Two things break it: a primary that joins in the meantime goes behind it, and a
cache that gets its descriptor ends the wait in its place.  `Undisturbed` leaves both out, and then
a shrink takes off `fd_node` the very primary it has announced.
-/

namespace DistCache

open Lib

/-! ### Lists that end in a given entry -/

section Last

variable {l : List ℤ} {a b x : ℤ}

lemma erase_concat_of_ne (hx : x ≠ a) : (l ++ [a]).erase x = l.erase x ++ [a] := by
  rw [List.erase_append]
  split_ifs with hmem
  · rfl
  · rw [List.erase_of_not_mem hmem, List.erase_of_not_mem (by simpa using hx)]

lemma set_idxOf_concat_of_ne (hx : x ≠ a) :
    (l ++ [a]).set ((l ++ [a]).idxOf x) b = l.set (l.idxOf x) b ++ [a] := by
  by_cases hmem : x ∈ l
  · rw [List.idxOf_append_of_mem hmem, List.set_append_left _ _ (List.idxOf_lt_length_of_mem hmem)]
  · have hmem' : x ∉ l ++ [a] := by simpa [hx] using hmem
    rw [List.idxOf_of_notMem hmem', List.idxOf_of_notMem hmem, List.set_eq_of_length_le le_rfl,
      List.set_eq_of_length_le le_rfl]

end Last

namespace World

variable {w w' : World} {e : Event}

/-- While a shrink is in its wait, no primary joins and no new connection gets the descriptor of
the primary that is shrunk. -/
def Undisturbed (w : World) : Event → Prop
  | .accept fd => ∀ sh ∈ w.shrinking, sh.fd ≠ fd
  | .receive fd msg => w.shrinking = none ∨ ¬ w.master.Joins fd msg (lit "P")
  | _ => True

instance decidableUndisturbed (w : World) : (e : Event) → Decidable (w.Undisturbed e)
  | .accept fd => inferInstanceAs (Decidable (∀ sh ∈ w.shrinking, sh.fd ≠ fd))
  | .receive fd msg =>
    inferInstanceAs (Decidable (w.shrinking = none ∨ ¬ w.master.Joins fd msg (lit "P")))
  | .detect _ | .shrinkBegin | .shrinkEnd | .tick => isTrue trivial

lemma Atomic.undisturbed (h : w.Atomic e) : w.Undisturbed e := by
  rcases h with hidle | rfl | rfl
  · cases e with
    | accept fd =>
      intro sh hsh
      rw [hidle] at hsh
      cases hsh
    | receive fd msg => exact .inl hidle
    | _ => trivial
  · trivial
  · trivial

/-- The ring and `fd_node`, when no shrink is in progress and in the wait of one.  In the wait
something is known only as long as the primary that is shrunk has its record: without it the wait
faults. -/
structure RingInv (w : World) : Prop where
  labelled : w.master.cacheAddrHash.Labelled
  idle : w.shrinking = none → w.master.cacheAddrHash.nodes = w.master.fdNode.length
  busy : ∀ sh ∈ w.shrinking, sh.fd ∈ w.master.cachesList →
    w.master.cacheAddrHash.nodes + 1 = w.master.fdNode.length ∧ ∃ l, w.master.fdNode = l ++ [sh.fd]

lemma ringInv_start (t₀ : ℤ) : (start t₀).RingInv where
  labelled := ConsistentHash.labelled_initializeRing 100
  idle _ := rfl
  busy sh hsh := by cases hsh

/-- Steps that leave the ring, `fd_node` and the shrink alone, and give no record to the primary
that is shrunk. -/
lemma RingInv.of_eq (hi : w.RingInv) (hhash : w'.master.cacheAddrHash = w.master.cacheAddrHash)
    (hnode : w'.master.fdNode = w.master.fdNode) (hsh : w'.shrinking = w.shrinking)
    (hmem : ∀ sh ∈ w.shrinking, sh.fd ∈ w'.master.cachesList → sh.fd ∈ w.master.cachesList) :
    w'.RingInv where
  labelled := hhash ▸ hi.labelled
  idle h := by
    rw [hhash, hnode]
    exact hi.idle (hsh ▸ h)
  busy sh h hin := by
    rw [hsh] at h
    rw [hhash, hnode]
    exact hi.busy sh h (hmem sh h hin)

lemma RingInv.receive {fd : ℤ} {msg : Str} {m : Master} {am : Map Str ℤ} (hi : w.RingInv)
    (hok : w.Undisturbed (.receive fd msg)) (hx : msg.head? = some 120)
    (hh : w.master.Heard fd msg am m) : RingInv { w with master := m } := by
  rcases hh.node_cases with ⟨hnode, hhash⟩ | ⟨⟨e, hf⟩, hnode, hhash⟩
  · exact hi.of_eq hhash hnode rfl fun sh _ => hh.mem_iff.mp
  · have hidle : w.shrinking = none := hok.resolve_right fun hn => hn (hf.joins hx)
    have hnodes := hi.idle hidle
    refine ⟨?_, fun _ => ?_, fun sh hsh => ?_⟩
    · rw [hhash]
      exact hi.labelled.addNode hnodes.symm
    · simp only [hhash, hnode, ConsistentHash.nodes_addNode, List.length_append, List.length_singleton]
      omega
    · dsimp only at hsh
      rw [hidle] at hsh
      cases hsh

lemma RingInv.detect {fd : ℤ} {out : Out} {fds : Finset ℤ} (hi : w.RingInv)
    (hd : w.master.Dead fd out) :
    RingInv { w with
      master := { out.master with cachesList := out.master.cachesList.erase fd }
      openFds := fds } := by
  have hmem : ∀ sh : Shrink, sh.fd ∈ out.master.cachesList.erase fd →
      sh.fd ≠ fd ∧ sh.fd ∈ w.master.cachesList := by
    intro sh h
    rw [Finmap.mem_erase] at h
    exact ⟨h.1, hd.mem_iff.mp h.2⟩
  rcases hd.node_cases with ⟨hnode, hhash⟩ | ⟨b, hnode, hhash⟩ | ⟨hfd, hnode, hhash⟩
  · exact hi.of_eq hhash hnode rfl fun sh _ h => (hmem sh h).2
  · refine ⟨hhash ▸ hi.labelled, fun hidle => ?_, fun sh hsh hin => ?_⟩
    · simp only [hhash, hnode, List.length_set]
      exact hi.idle hidle
    · obtain ⟨hlen, l, hl⟩ := hi.busy sh hsh (hmem sh hin).2
      simp only [hhash, hnode, List.length_set]
      refine ⟨hlen, l.set (l.idxOf fd) b, ?_⟩
      rw [hl, set_idxOf_concat_of_ne (hmem sh hin).1.symm]
  · have hpos := List.length_pos_of_mem hfd
    have hlen := List.length_erase_of_mem hfd
    refine ⟨?_, fun hidle => ?_, fun sh hsh hin => ?_⟩
    · rw [hhash]
      exact hi.labelled.deleteNode _
    · have hnodes := hi.idle hidle
      simp only [hhash, hnode, ConsistentHash.nodes_deleteNode]
      omega
    · obtain ⟨hnodes, l, hl⟩ := hi.busy sh hsh (hmem sh hin).2
      simp only [hhash, hnode, ConsistentHash.nodes_deleteNode]
      refine ⟨by omega, l.erase fd, ?_⟩
      rw [hl, erase_concat_of_ne (hmem sh hin).1.symm]

lemma RingInv.step (hk : w.Keyed) (hi : w.RingInv) (hok : w.Undisturbed e)
    (h : w.step e = some w') : w'.RingInv := by
  cases e with
  | accept fd =>
    obtain ⟨-, -, rfl⟩ := step_accept h
    refine hi.of_eq rfl rfl rfl fun sh hsh hin => ?_
    rw [Master.accept, Finmap.mem_insert] at hin
    exact hin.resolve_left (hok sh hsh)
  | receive fd msg =>
    obtain ⟨-, ⟨-, rfl⟩ | ⟨hx, m, am, hh, rfl⟩⟩ := step_receive h
    · exact hi
    · exact hi.receive hok hx hh
  | detect fd =>
    rcases step_detect hk h with ⟨-, rfl⟩ | ⟨-, out, hd, rfl⟩
    · exact hi
    · exact hi.detect hd
  | shrinkBegin =>
    obtain ⟨hidle, sh, e, hlast, -, -, rfl⟩ := step_shrinkBegin h
    obtain ⟨l, hl⟩ := List.getLast?_eq_some_iff.mp hlast
    refine ⟨hi.labelled.deleteNode _, ?_, ?_⟩
    · intro hn
      cases hn
    · intro sh' hsh' _
      cases hsh'
      have hnodes := hi.idle hidle
      exact ⟨by simp only [ConsistentHash.nodes_deleteNode]; omega, l, hl⟩
  | shrinkEnd =>
    obtain ⟨sh, out, hsh, -, hs, rfl⟩ := step_shrinkEnd h
    obtain ⟨hne, e, he, hout⟩ := Master.shrinkEnd_cases hs
    have hpos := List.length_pos_iff.mpr hne
    obtain ⟨hnodes, -⟩ := hi.busy sh hsh (Finmap.mem_of_lookup_eq_some he)
    have hmaster : out.master.cacheAddrHash = w.master.cacheAddrHash ∧
        out.master.fdNode = w.master.fdNode.dropLast := by
      rcases hout with ⟨-, -, rfl⟩ | ⟨-, rfl⟩ <;> exact ⟨rfl, rfl⟩
    refine ⟨hmaster.1 ▸ hi.labelled, ?_, ?_⟩
    · intro _
      simp only [after, hmaster, List.length_dropLast]
      omega
    · intro sh' hsh'
      cases hsh'
  | tick =>
    cases h
    exact ⟨hi.labelled, hi.idle, hi.busy⟩

theorem ringInv_of_reach (h : Reach Init step Undisturbed w) : w.RingInv := by
  refine h.invariant (I := RingInv) ?_ fun w e w' hr hi hok hs => hi.step (keyed_of_reach hr) hok hs
  rintro _ ⟨t₀, rfl⟩
  exact ringInv_start t₀

/-! ### A shrink takes off what it has announced -/

/-- The points of the ring belong to entries of `fd_node`. -/
lemma RingInv.lookup_lt (hi : w.RingInv) (hidle : w.shrinking = none) {p : UInt32} {v : ℕ}
    (hv : w.master.cacheAddrHash.key2Index.lookup p = some v) : v < w.master.fdNode.length := by
  have hlt := (hi.labelled p v hv).1
  have hnodes := hi.idle hidle
  omega

lemma RingInv.shrinkEnd (hi : w.RingInv) (h : w.step .shrinkEnd = some w') :
    ∃ sh ∈ w.shrinking, w.master.fdNode = w'.master.fdNode ++ [sh.fd] := by
  obtain ⟨sh, out, hsh, -, hs, rfl⟩ := step_shrinkEnd h
  obtain ⟨-, e, he, hout⟩ := Master.shrinkEnd_cases hs
  obtain ⟨-, l, hl⟩ := hi.busy sh hsh (Finmap.mem_of_lookup_eq_some he)
  refine ⟨sh, hsh, ?_⟩
  have hnode : out.master.fdNode = w.master.fdNode.dropLast := by
    rcases hout with ⟨-, -, rfl⟩ | ⟨-, rfl⟩ <;> rfl
  rw [after, hnode, hl, List.dropLast_concat]

/-- The shrink in progress stays as it is until its second half. -/
lemma shrinking_of_step (h : w.step e = some w') (he : e ≠ .shrinkEnd) :
    ∀ sh ∈ w.shrinking, sh ∈ w'.shrinking := by
  intro sh hsh
  obtain ⟨r, hr, rfl⟩ := Option.map_eq_some_iff.mp h
  cases e with
  | accept fd =>
    simp only [exec] at hr
    split_ifs at hr
    cases hr
    exact hsh
  | receive fd msg =>
    simp only [exec] at hr
    split_ifs at hr
    obtain ⟨out, -, rfl⟩ := Option.map_eq_some_iff.mp hr
    exact hsh
  | detect fd =>
    obtain ⟨out, -, rfl⟩ := Option.map_eq_some_iff.mp hr
    exact hsh
  | shrinkBegin =>
    obtain ⟨hidle, -⟩ := step_shrinkBegin h
    rw [hidle] at hsh
    cases hsh
  | shrinkEnd => exact absurd rfl he
  | tick =>
    cases hr
    exact hsh

/-- What a shrink announces: the address of the descriptor it keeps for its second half. -/
lemma sends_shrinkBegin {sends : List (ℤ × Str)} (h : w.exec .shrinkBegin = some (w', sends)) :
    ∃ sh ∈ w'.shrinking, ∃ e, w.master.cachesList.lookup sh.fd = some e ∧
      sends = w.master.fdNode.map fun fdi => (fdi, lit "K#" ++ e.ipCache) := by
  simp only [exec] at h
  split_ifs at h
  obtain ⟨⟨out, sh⟩, hout, hr⟩ := Option.map_eq_some_iff.mp h
  obtain ⟨-, e, he, -, rfl⟩ := Master.shrinkBegin_cases hout
  cases hr
  exact ⟨sh, rfl, e, he, rfl⟩

/-- **Shrinks.**  When no primary joins during a wait and the descriptor it is about is not given
away, a shrink takes off `fd_node` the primary whose address it has announced; and when no shrink
is in progress the ring has as many shards as `fd_node` entries, and every point is of one of
them. -/
theorem shrink_removes_announced (h : Reach Init step Undisturbed w) :
    (∀ w' sends, w.exec .shrinkBegin = some (w', sends) → ∃ sh ∈ w'.shrinking,
      ∃ e, w.master.cachesList.lookup sh.fd = some e ∧
        sends = w.master.fdNode.map fun fdi => (fdi, lit "K#" ++ e.ipCache)) ∧
    (∀ e w', w.step e = some w' → e ≠ .shrinkEnd → ∀ sh ∈ w.shrinking, sh ∈ w'.shrinking) ∧
    (∀ w', w.step .shrinkEnd = some w' →
      ∃ sh ∈ w.shrinking, w.master.fdNode = w'.master.fdNode ++ [sh.fd]) ∧
    (w.shrinking = none → w.master.cacheAddrHash.nodes = w.master.fdNode.length ∧
      ∀ p v, w.master.cacheAddrHash.key2Index.lookup p = some v → v < w.master.fdNode.length) := by
  have hi := ringInv_of_reach h
  refine ⟨fun w' sends => sends_shrinkBegin, fun e w' => shrinking_of_step, fun w' => hi.shrinkEnd,
    fun hidle => ⟨hi.idle hidle, fun p v => hi.lookup_lt hidle⟩⟩

/-- Two primaries join, and a shrink of the second one begins. -/
def shrinkSecond : List Event :=
  [.accept 5, .receive 5 (lit "x#127.0.0.1#8001#9001#P"),
    .accept 6, .receive 6 (lit "x#127.0.0.1#8002#9002#P"), .shrinkBegin]

/-- Five seconds, after which a cache that is silent counts as dead. -/
def fiveSeconds : List Event := List.replicate 5 .tick

theorem shrink_removes_announced_second : ∃ w w',
    path step Undisturbed (start 1638316800) (shrinkSecond ++ fiveSeconds) = some w ∧
      w.step .shrinkEnd = some w' ∧ ∃ sh ∈ w.shrinking, sh.fd = 6 ∧
        w.master.fdNode = w'.master.fdNode ++ [sh.fd] := by
  have hrun : (path step Undisturbed (start 1638316800) (shrinkSecond ++ fiveSeconds)).map (fun w =>
      ((w.step .shrinkEnd).isSome, w.shrinking.map Shrink.fd)) = some (true, some 6) := by
    decide +kernel
  obtain ⟨w, hw, hf⟩ := Option.map_eq_some_iff.mp hrun
  rw [Prod.mk.injEq] at hf
  obtain ⟨w', hw'⟩ := Option.isSome_iff_exists.mp hf.1
  obtain ⟨sh, hsh, hnode⟩ :=
    (shrink_removes_announced (reach_of_path ⟨_, rfl⟩ hw)).2.2.1 w' hw'
  refine ⟨w, w', hw, hw', sh, hsh, ?_, hnode⟩
  rw [hsh] at hf
  exact Option.some.inj hf.2

/-- A primary that joins during the wait is taken off `fd_node` instead of the one announced. -/
theorem shrink_removes_newcomer : ∃ w w',
    Reach Init step (fun _ _ => True) w ∧ w.step .shrinkEnd = some w' ∧
      (∃ sh ∈ w.shrinking, sh.fd = 6 ∧ sh.cacheServerAddr = lit "127.0.0.1#9002") ∧
      w.master.fdNode = [5, 6, 7] ∧ w'.master.fdNode = [5, 6] := by
  have hrun : (path step (fun _ _ => True) (start 1638316800) (shrinkSecond ++
        [.accept 7, .receive 7 (lit "x#127.0.0.1#8003#9003#P")] ++ fiveSeconds)).bind (fun w =>
      (w.step .shrinkEnd).bind fun w' => w.shrinking.map fun sh =>
        (sh.fd, sh.cacheServerAddr, w.master.fdNode, w'.master.fdNode)) =
      some (6, lit "127.0.0.1#9002", [5, 6, 7], [5, 6]) := by
    decide +kernel
  obtain ⟨w, hw, hf⟩ := Option.bind_eq_some_iff.mp hrun
  obtain ⟨w', hw', hf⟩ := Option.bind_eq_some_iff.mp hf
  obtain ⟨sh, hsh, hf⟩ := Option.map_eq_some_iff.mp hf
  simp only [Prod.mk.injEq] at hf
  exact ⟨w, w', reach_of_path ⟨_, rfl⟩ hw, hw', ⟨sh, hsh, hf.1, hf.2.1⟩, hf.2.2.1, hf.2.2.2⟩

/-! ### Lookups stay inside `fd_node` -/

/-- **Lookups.**  When shrinks are not interrupted, `nodes` is the size of `fd_node`, every point is
of one of its entries, and a key is looked up inside it as soon as the ring has a point. -/
theorem lookupIndex_lt (h : Reach Init step Atomic w) (hidle : w.shrinking = none) :
    w.master.cacheAddrHash.nodes = w.master.fdNode.length ∧
    (∀ p v, w.master.cacheAddrHash.key2Index.lookup p = some v → v < w.master.fdNode.length) ∧
    (w.master.cacheAddrHash.key2Index.keys.Nonempty → ∀ key,
      ∃ index, w.master.lookupIndex key = some index ∧ index < w.master.fdNode.length) := by
  have hi := ringInv_of_reach (h.mono fun _ _ => Atomic.undisturbed)
  refine ⟨hi.idle hidle, fun p v => hi.lookup_lt hidle, fun hne key => ?_⟩
  obtain ⟨p, v, hp, hv, -⟩ := hi.labelled.getServer hne key
  refine ⟨v, ?_, hi.lookup_lt hidle hv⟩
  rw [Master.lookupIndex, hp]
  exact hv

theorem lookupIndex_lt_shrunk : ∃ w, path step Atomic (start 1638316800)
    (shrinkSecond ++ fiveSeconds ++ [.shrinkEnd]) = some w ∧ w.master.cacheAddrHash.nodes = 1 := by
  have hrun : (path step Atomic (start 1638316800) (shrinkSecond ++ fiveSeconds ++ [.shrinkEnd])).map
      (fun w => (w.shrinking.isNone, w.master.fdNode)) = some (true, [5]) := by
    decide +kernel
  obtain ⟨w, hw, hf⟩ := Option.map_eq_some_iff.mp hrun
  rw [Prod.mk.injEq, Option.isNone_iff_eq_none] at hf
  have hnodes := (lookupIndex_lt (reach_of_path ⟨_, rfl⟩ hw) hf.1).1
  rw [hf.2] at hnodes
  exact ⟨w, hw, hnodes⟩

end World

end DistCache
