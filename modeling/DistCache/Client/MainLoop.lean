import DistCache.Client.Fields
import DistCache.Client.LocalNodes
import DistCache.Client.RequestMap
import DistCache.Client.Retransmission

/-!
The loop of `start` in the parent process: a key of the child and the pass over `request_map_` after it,
an answer of the master, a reply of a cache server, and the ticks of the timers in between.

A log has the requests that the loop makes, and the answers to them, but not what a timer sends again.  It
tells that no request of the loop goes to an address that the master has replaced, and that a server which
does not answer keeps at most `LOST_MAX_NUM` keys (`few_wait`).
-/

namespace DistCache

open Lib

/-- What the log has. -/
inductive Mark where
  /-- A request to a cache server. -/
  | requested (addr key : Str)
  /-- The reply to it. -/
  | answered (addr key : Str)
  /-- A request to the master. -/
  | asked (key : Str)
  /-- The address that it gives. -/
  | named (key addr : Str)
  deriving DecidableEq

namespace Mark

/-- The address that the master has given for a key, the latest mark first. -/
def latest (key : Str) : List Mark → Option Str
  | [] => none
  | named key' addr :: log => if key' = key then some addr else latest key log
  | requested _ _ :: log | answered _ _ :: log | asked _ :: log => latest key log

/-- A key has been requested from an address, which has not answered, and the master has not been asked for
the key again. -/
def Waits (addr key : Str) : List Mark → Prop
  | [] => False
  | requested addr' key' :: log => (addr' = addr ∧ key' = key) ∨ Waits addr key log
  | answered addr' key' :: log => ¬ (addr' = addr ∧ key' = key) ∧ Waits addr key log
  | asked key' :: log => key' ≠ key ∧ Waits addr key log
  | named _ _ :: log => Waits addr key log

/-- Every request has gone to the address that the master had given for its key. -/
def Fresh (log : List Mark) : Prop := ∀ post addr key pre, log = post ++ requested addr key :: pre →
  latest key pre = some addr

/-- The keys that wait for an address are in its list. -/
def Listed (log : List Mark) (f : Str → List Str) : Prop := ∀ addr key, Waits addr key log → key ∈ f addr

variable {log : List Mark} {f : Str → List Str} {addr key : Str} {keys : List Str}

lemma fresh_nil : Fresh [] := fun post _ _ _ h => by simp at h

lemma Fresh.cons (h : Fresh log) {d : Mark}
    (hd : ∀ addr key, d = requested addr key → latest key log = some addr) : Fresh (d :: log) := by
  intro post addr key pre heq
  cases post with
  | nil =>
    obtain ⟨rfl, rfl⟩ := List.cons.inj heq
    exact hd addr key rfl
  | cons d' post =>
    obtain ⟨-, rfl⟩ := List.cons.inj heq
    exact h post addr key pre rfl

lemma fresh_asked (h : Fresh log) (keys : List Str) : Fresh (keys.map asked ++ log) := by
  induction keys with
  | nil => exact h
  | cons key keys ih => exact ih.cons fun _ _ heq => by cases heq

lemma latest_asked (key : Str) (keys : List Str) (log : List Mark) :
    latest key (keys.map asked ++ log) = latest key log := by
  induction keys with
  | nil => rfl
  | cons k keys ih => exact ih

lemma waits_asked : Waits addr key (keys.map asked ++ log) ↔ key ∉ keys ∧ Waits addr key log := by
  induction keys with
  | nil => simp
  | cons k keys ih =>
    show k ≠ key ∧ Waits addr key (keys.map asked ++ log) ↔ _
    rw [ih, List.mem_cons, not_or, and_assoc, ne_comm]

lemma Listed.requested (h : Listed log f) (addr key : Str) :
    Listed (requested addr key :: log) ((Deed.send addr key).apply f) := by
  intro a k hwaits
  show k ∈ Function.update f addr (if (f addr).contains key then f addr else f addr ++ [key]) a
  by_cases ha : a = addr
  · subst ha
    rw [Function.update_self]
    rcases hwaits with ⟨-, rfl⟩ | hwaits
    · split_ifs with hin
      · exact List.contains_iff_mem.mp hin
      · exact List.mem_append_right _ (List.mem_singleton_self _)
    · split_ifs
      · exact h a k hwaits
      · exact List.mem_append_left _ (h a k hwaits)
  · rw [Function.update_of_ne ha]
    exact h a k (hwaits.resolve_left fun heq => ha heq.1.symm)

lemma Listed.answered (h : Listed log f) (addr key : Str) :
    Listed (answered addr key :: log) ((Deed.reply addr key).apply f) := by
  intro a k hwaits
  obtain ⟨hne, hwaits⟩ := hwaits
  show k ∈ Function.update f addr ((f addr).erase key) a
  by_cases ha : a = addr
  · subst ha
    have hk : k ≠ key := fun heq => hne ⟨rfl, heq.symm⟩
    rw [Function.update_self, List.mem_erase_of_ne hk]
    exact h a k hwaits
  · rw [Function.update_of_ne ha]
    exact h a k hwaits

lemma Listed.asked (h : Listed log f) (keys : List Str) : Listed (keys.map asked ++ log) f :=
  fun addr key hwaits => h addr key (waits_asked.mp hwaits).2

end Mark

/-- A request in the log. -/
def Outgoing.mark (o : Outgoing) : Mark :=
  match o.peer with
  | .master => .asked o.massage
  | .cacheServer addr => .requested addr (Client.keyOf o.massage)

namespace Client

variable {c c' : Client} {addr key value message : Str} {order : List Str} {out : Option Outgoing}

/-- The address that a message of the master gives. -/
def namedBy (message : Str) : List Mark :=
  match split message sharp with
  | [state, key, addr] => if state = lit "MASTER" then [.named key addr] else []
  | _ => []

/-- The request that a message of a cache server answers. -/
def answeredBy (message : Str) : List Mark :=
  match split message sharp with
  | state :: key :: addr :: _ => if state = lit "SUCCESS" ∨ state = lit "FAILED" then [.answered addr key] else []
  | _ => []

/-! ### What the handlers do to the lists and to the local cache -/

lemma keyOf_sendRequestToCacheServer (hkey : sharp ∉ key) (value : Str) :
    keyOf (sendRequestToCacheServer key value) = key := by
  have hpos : ∀ a ∈ key, decide (a ≠ sharp) = true := fun a ha =>
    decide_eq_true (ne_of_mem_of_not_mem ha hkey)
  unfold keyOf sendRequestToCacheServer
  split_ifs
  · have hsharp : lit "#" = [sharp] := rfl
    rw [List.append_assoc, List.takeWhile_append_of_pos hpos, hsharp, List.singleton_append,
      List.takeWhile_cons_of_neg (by simp), List.append_nil]
  · exact List.takeWhile_eq_self_iff.mpr hpos

/-- A key and an address: a request to the address, or nothing. -/
lemma requestByMode_cases (hkey : sharp ∉ key) (hs : c.requestByMode addr key value = some (c', out)) :
    (out = none ∧ c'.keysAt = c.keysAt) ∨
      ∃ o, out = some o ∧ o.mark = .requested addr key ∧ c'.keysAt = (Deed.send addr key).apply c.keysAt := by
  unfold requestByMode at hs
  split_ifs at hs
  · obtain ⟨c₁, hc₁, heq⟩ := Option.map_eq_some_iff.mp hs
    cases heq
    refine .inr ⟨_, rfl, ?_, keysAt_requestToCacheServer hc₁⟩
    rw [Outgoing.mark, keyOf_sendRequestToCacheServer hkey]
  · obtain ⟨c₁, hc₁, heq⟩ := Option.map_eq_some_iff.mp hs
    cases heq
    refine .inr ⟨_, rfl, ?_, keysAt_requestToCacheServer hc₁⟩
    rw [Outgoing.mark, keyOf_sendRequestToCacheServer hkey]
  · cases hs
    exact .inl ⟨rfl, rfl⟩

lemma localLru_resendKeys (c : Client) (keys : List Str) : (c.resendKeys keys).1.localLru = c.localLru := by
  induction keys generalizing c with
  | nil => rfl
  | cons key keys ih => exact ih _

lemma localLru_checkCacheServerRequestMap (c : Client) (order : List Str) :
    (c.checkCacheServerRequestMap order).1.localLru = c.localLru := by
  induction order generalizing c with
  | nil => rfl
  | cons addr order ih =>
    have hentry : (c.checkEntry addr).1.localLru = c.localLru := by
      unfold checkEntry
      split_ifs
      · exact localLru_resendKeys c _
      · rfl
    exact (ih (c.checkEntry addr).1).trans hentry

lemma keysAt_of_lists (h : c.Lists order) (addr : Str) :
    (c.checkCacheServerRequestMap order).1.keysAt addr = cleared (c.keysAt addr) := by
  rw [keysAt_after_check h.1]
  split_ifs with hin
  · rfl
  · rw [keysAt, lookup_eq_none_of_lists h hin]
    rfl

lemma length_cleared_le (keys : List Str) : (cleared keys).length ≤ lostMaxNum := by
  unfold cleared
  split_ifs with hlong
  · exact Nat.zero_le _
  · exact Nat.le_of_not_lt hlong

/-- A list that is too long is sent to the master. -/
lemma mem_lost_of_lists (h : c.Lists order) (hkey : key ∈ c.keysAt addr)
    (hlong : (c.keysAt addr).length > lostMaxNum) : key ∈ order.flatMap fun addr => lost (c.keysAt addr) := by
  have hin : order.contains addr := by
    by_contra hnot
    rw [keysAt, lookup_eq_none_of_lists h hnot] at hkey
    exact absurd hkey List.not_mem_nil
  refine List.mem_flatMap.mpr ⟨addr, List.contains_iff_mem.mp hin, ?_⟩
  rwa [lost, if_pos hlong]

end Client

/-- A client and the log of its loop, the latest mark first. -/
structure MainLoop where
  client : Client
  log : List Mark

namespace MainLoop

open Client

inductive Event where
  /-- A key of the child, and the pass, when the map has its entries in this order. -/
  | child (message value : Str) (order : List Str)
  | master (message value : Str)
  | cacheServer (message : Str)
  | tick

/-- A turn of the loop.  What a timer sends again is not in the log. -/
def step (s : MainLoop) : Event → Option MainLoop
  | .child message value order => do
    let (c, out) ← s.client.dealwithChild message value
    if c.Lists order then
      let (c, sent) := c.checkCacheServerRequestMap order
      some ⟨c, sent.reverse.map Outgoing.mark ++ (out.toList.map Outgoing.mark ++ s.log)⟩
    else none
  | .master message value => do
    let (c, out) ← s.client.dealwithMaster message value
    some ⟨c, out.toList.map Outgoing.mark ++ (namedBy message ++ s.log)⟩
  | .cacheServer message => (s.client.dealwithCacheServer message).map fun c => ⟨c, answeredBy message ++ s.log⟩
  | .tick => some { s with client := s.client.timerHandler }

def Init (s : MainLoop) : Prop := ∃ mode cacheSizeLocal, s = ⟨.new mode cacheSizeLocal, []⟩

/-- The local cache has the addresses that the master has given, no request has gone to another one, and
the lists of `request_map_` have the keys that wait. -/
structure Inv (s : MainLoop) : Prop where
  held : s.client.localLru.Each fun key addr => Mark.latest key s.log = some addr
  fresh : Mark.Fresh s.log
  exact : ∃ deeds, Exact deeds s.client.keysAt
  listed : Mark.Listed s.log s.client.keysAt

variable {s s' : MainLoop} {c c' : Client} {addr key value message : Str} {order : List Str} {log : List Mark}
  {out : Option Outgoing} {e : Event}

lemma inv_init (h : Init s) : s.Inv := by
  obtain ⟨mode, cacheSizeLocal, rfl⟩ := h
  exact ⟨LocalLru.each_new _ _, Mark.fresh_nil, ⟨[], exact_nil⟩, fun _ _ h => h.elim⟩

/-- A request to the address that the master has given. -/
lemma Inv.requestByMode (hi : Inv ⟨c, log⟩) (hkey : sharp ∉ key) (hlatest : Mark.latest key log = some addr)
    (hs : c.requestByMode addr key value = some (c', out)) :
    Inv ⟨c', out.toList.map Outgoing.mark ++ log⟩ := by
  obtain ⟨hlru, -⟩ := requestByMode_rest hs
  obtain ⟨hheld, hfresh, ⟨deeds, hexact⟩, hlisted⟩ := hi
  dsimp only at hheld hfresh hexact hlisted
  rcases requestByMode_cases hkey hs with ⟨rfl, hkeys⟩ | ⟨o, rfl, hmark, hkeys⟩
  · refine ⟨hlru ▸ hheld, hfresh, ⟨deeds, ?_⟩, ?_⟩
    · rwa [hkeys]
    · rwa [hkeys]
  · show Inv ⟨c', o.mark :: log⟩
    rw [hmark]
    refine ⟨hlru ▸ hheld, hfresh.cons fun addr' key' heq => ?_, ⟨.send addr key :: deeds, ?_⟩, ?_⟩
    · cases heq
      exact hlatest
    · rw [hkeys]
      exact hexact.apply _
    · rw [hkeys]
      exact hlisted.requested addr key

/-- A key of the child. -/
lemma Inv.dealwithChild (hi : s.Inv) (hs : s.client.dealwithChild message value = some (c', out)) :
    Inv ⟨c', out.toList.map Outgoing.mark ++ s.log⟩ := by
  unfold Client.dealwithChild at hs
  split at hs
  next head key tail hsplit =>
    have hkey : sharp ∉ key := not_mem_of_mem_split (s := message) (by rw [hsplit]; simp)
    split_ifs at hs
    · split at hs
      next addr localLru hget =>
        have hlatest : Mark.latest key s.log = some addr := hi.held.of_get (by rw [hget])
        have hheld := hi.held.get key
        rw [hget] at hheld
        have hnew : Inv ⟨{ s.client with localLru }, s.log⟩ := ⟨hheld, hi.fresh, hi.exact, hi.listed⟩
        exact hnew.requestByMode hkey hlatest hs
      next localLru hget =>
        cases hs
        have hheld : s.client.localLru.Each fun k addr => Mark.latest k (.asked key :: s.log) = some addr :=
          hi.held
        exact ⟨hheld, Mark.fresh_asked hi.fresh [key], hi.exact, hi.listed.asked [key]⟩
    · cases hs
      exact ⟨hi.held, hi.fresh, hi.exact, hi.listed⟩
  next => cases hs

/-- The pass. -/
lemma Inv.check (hi : Inv ⟨c, log⟩) (hlists : c.Lists order) :
    Inv ⟨(c.checkCacheServerRequestMap order).1,
      (c.checkCacheServerRequestMap order).2.reverse.map Outgoing.mark ++ log⟩ := by
  obtain ⟨hheld, hfresh, ⟨deeds, hexact⟩, hlisted⟩ := hi
  dsimp only at hheld hfresh hexact hlisted
  have hasked : (c.checkCacheServerRequestMap order).2.reverse.map Outgoing.mark =
      (order.flatMap fun addr => lost (c.keysAt addr)).reverse.map .asked := by
    rw [(check_spec hlists.1).1, ← List.map_reverse, List.map_map]
    rfl
  rw [hasked]
  refine ⟨?_, Mark.fresh_asked hfresh _, ⟨c.clearDeeds order ++ deeds, ?_⟩, fun addr key hwaits => ?_⟩
  · rw [localLru_checkCacheServerRequestMap]
    refine hheld.mono fun key addr hkey => ?_
    rw [Mark.latest_asked]
    exact hkey
  · dsimp only
    rw [keysAt_check hlists]
    exact hexact.foldr _
  · -- a key of a list that is cleared is asked for
    obtain ⟨hnot, hwaits⟩ := Mark.waits_asked.mp hwaits
    have hkey := hlisted addr key hwaits
    have hshort : ¬ (c.keysAt addr).length > lostMaxNum := fun hlong =>
      hnot (List.mem_reverse.mpr (mem_lost_of_lists hlists hkey hlong))
    dsimp only
    rwa [keysAt_of_lists hlists, cleared, if_neg hshort]

/-- An answer of the master. -/
lemma Inv.dealwithMaster (hi : s.Inv) (hs : s.client.dealwithMaster message value = some (c', out)) :
    Inv ⟨c', out.toList.map Outgoing.mark ++ (namedBy message ++ s.log)⟩ := by
  unfold Client.dealwithMaster at hs
  split at hs
  next state key addr hsplit =>
    rw [namedBy, hsplit]
    dsimp only
    have hkey : sharp ∉ key := not_mem_of_mem_split (s := message) (by rw [hsplit]; simp)
    split_ifs at hs ⊢
    · have hlatest : Mark.latest key (.named key addr :: s.log) = some addr := if_pos rfl
      have hheld : (s.client.localLru.put key addr).Each fun k a =>
          Mark.latest k (.named key addr :: s.log) = some a :=
        hi.held.put (fun k a hk ha => (if_neg (Ne.symm hk)).trans ha) hlatest
      have hnew : Inv ⟨{ s.client with
          master := { s.client.master with timer := s.client.master.timer.stop }
          localLru := s.client.localLru.put key addr }, .named key addr :: s.log⟩ :=
        ⟨hheld, hi.fresh.cons (fun _ _ heq => by cases heq), hi.exact, hi.listed⟩
      exact hnew.requestByMode hkey hlatest hs
    · cases hs
      exact ⟨hi.held, hi.fresh, hi.exact, hi.listed⟩
  next hother =>
    have hnothing : namedBy message = [] := by
      unfold namedBy
      split
      next state key addr hsplit => exact absurd hsplit (hother state key addr)
      next => rfl
    cases hs
    rw [hnothing]
    exact ⟨hi.held, hi.fresh, hi.exact, hi.listed⟩

/-- A reply of a cache server. -/
lemma Inv.dealwithCacheServer (hi : s.Inv) (hs : s.client.dealwithCacheServer message = some c') :
    Inv ⟨c', answeredBy message ++ s.log⟩ := by
  obtain ⟨state, key, addr, l, hsplit⟩ := exists_fields_of_dealwith hs
  have hkeys := keysAt_dealwithCacheServer hs
  obtain ⟨hheld, hfresh, ⟨deeds, hexact⟩, hlisted⟩ := hi
  have hexact' : Exact (replyDeed message ++ deeds) c'.keysAt := by
    rw [hkeys]
    exact hexact.foldr _
  have hheld' : c'.localLru.Each fun key addr => Mark.latest key s.log = some addr := by
    rcases localLru_dealwithCacheServer hs with hlru | ⟨k, hlru⟩
    · rwa [hlru]
    · rw [hlru]
      exact hheld.erase k
  rw [replyDeed, hsplit] at hkeys
  rw [answeredBy, hsplit]
  dsimp only at hkeys ⊢
  split_ifs at hkeys ⊢
  · refine ⟨hheld', hfresh.cons (fun _ _ heq => by cases heq), ⟨_, hexact'⟩, ?_⟩
    rw [hkeys]
    exact hlisted.answered addr key
  · refine ⟨hheld', hfresh, ⟨_, hexact'⟩, ?_⟩
    rw [hkeys]
    exact hlisted

lemma Inv.step (hi : s.Inv) (hs : s.step e = some s') : s'.Inv := by
  cases e with
  | child message value order =>
    obtain ⟨⟨c, out⟩, hchild, hs⟩ := Option.bind_eq_some_iff.mp hs
    dsimp only at hs
    split_ifs at hs with hlists
    cases hs
    exact (hi.dealwithChild hchild).check hlists
  | master message value =>
    obtain ⟨⟨c, out⟩, hmaster, hs⟩ := Option.bind_eq_some_iff.mp hs
    cases hs
    exact hi.dealwithMaster hmaster
  | cacheServer message =>
    obtain ⟨c, hserver, rfl⟩ := Option.map_eq_some_iff.mp hs
    exact hi.dealwithCacheServer hserver
  | tick =>
    cases hs
    exact ⟨hi.held, hi.fresh, hi.exact, hi.listed⟩

lemma inv_of_reach (h : Reach Init step (fun _ _ => True) s) : s.Inv :=
  h.invariant (fun _ => inv_init) fun _ _ _ _ hi _ hs => hi.step hs

/-- **Servers that do not answer.**  In every run of the loop, each request that the loop makes to a cache
server goes to the address that the master has given last for its key; what a timer sends again is not in the
log.  And when a key of the child has been handled, at most `LOST_MAX_NUM` keys wait for the same address: for
all others that it has not answered the master has been asked again. -/
theorem few_wait (h : Reach Init step (fun _ _ => True) s) : Mark.Fresh s.log ∧
    ∀ message value order s', s.step (.child message value order) = some s' →
      ∀ addr (keys : Finset Str), (∀ key ∈ keys, Mark.Waits addr key s'.log) → keys.card ≤ lostMaxNum := by
  have hi := inv_of_reach h
  refine ⟨hi.fresh, fun message value order s' hs addr keys hkeys => ?_⟩
  have hi' := hi.step hs
  have hlen : (s'.client.keysAt addr).length ≤ lostMaxNum := by
    obtain ⟨⟨c, out⟩, -, hs⟩ := Option.bind_eq_some_iff.mp hs
    dsimp only at hs
    split_ifs at hs with hlists
    cases hs
    rw [keysAt_of_lists hlists]
    exact length_cleared_le _
  have hsub : keys ⊆ (s'.client.keysAt addr).toFinset := fun key hkey =>
    List.mem_toFinset.mpr (hi'.listed addr key (hkeys key hkey))
  exact (Finset.card_le_card hsub).trans ((List.toFinset_card_le _).trans hlen)

/-- A server that does not answer, and seven keys that the master sends to it. -/
def silentServer : List Event :=
  [lit "a", lit "b", lit "c", lit "d", lit "e", lit "f", lit "g"].flatMap fun key =>
    [.child (lit "CHILD#" ++ key) [] (if key = lit "a" then [] else [lit "127.0.0.1:8001"]),
      .master (lit "MASTER#" ++ key ++ lit "#127.0.0.1:8001") []]

/-- The pass after the next key asks for all of them, and for the key that has just been requested again. -/
theorem few_wait_silentServer : ∃ s s', path step (fun _ _ => True) ⟨.new 'r'.toUInt8 10, []⟩ silentServer = some s ∧
    (s.client.keysAt (lit "127.0.0.1:8001")).length = 7 ∧
    s.step (.child (lit "CHILD#a") [] [lit "127.0.0.1:8001"]) = some s' ∧
    Mark.Fresh s.log ∧ ∀ keys : Finset Str,
      (∀ key ∈ keys, Mark.Waits (lit "127.0.0.1:8001") key s'.log) → keys.card ≤ 6 := by
  have hrun : (path step (fun _ _ => True) ⟨.new 'r'.toUInt8 10, []⟩ silentServer).map (fun s =>
      ((s.client.keysAt (lit "127.0.0.1:8001")).length,
        (s.step (.child (lit "CHILD#a") [] [lit "127.0.0.1:8001"])).isSome)) = some (7, true) := by
    decide +kernel
  obtain ⟨s, hs, hf⟩ := Option.map_eq_some_iff.mp hrun
  obtain ⟨hlen, hstep⟩ := Prod.mk.inj hf
  obtain ⟨s', hs'⟩ := Option.isSome_iff_exists.mp hstep
  have hwait := few_wait (reach_of_path ⟨_, _, rfl⟩ hs)
  exact ⟨s, s', hs, hlen, hs', hwait.1, hwait.2 _ _ _ _ hs' _⟩

end MainLoop

end DistCache
