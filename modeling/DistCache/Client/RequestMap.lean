import DistCache.Client.State
import DistCache.Lib.Pending
import DistCache.Lib.Transition

/-!
The keys that no cache server has answered, `request_map_`, and the pass that gives up waiting.

A log beside the client has the requests, the replies and the lists that a pass clears.  The lists of
`request_map_` are always those of the log (`request_map_exact`).
-/

namespace DistCache

open Lib

namespace Client

/-! ### The pass -/

/-- The keys that an address has not answered. -/
def keysAt (c : Client) (addr : Str) : List Str := (c.requestMap.lookup addr).getD []

/-- The inner loop of `check_cache_server_request_map`. -/
def resendKeys (c : Client) : List Str → Client × List Outgoing
  | [] => (c, [])
  | key :: keys =>
    let (c, sent) := (c.sendRequestToMaster key).resendKeys keys
    (c, ⟨.master, key⟩ :: sent)

/-- A turn of its outer loop. -/
def checkEntry (c : Client) (addr : Str) : Client × List Outgoing :=
  if (c.keysAt addr).length > lostMaxNum then
    let (c, sent) := c.resendKeys (c.keysAt addr)
    ({ c with requestMap := c.requestMap.insert addr [] }, sent)
  else (c, [])

/-- `check_cache_server_request_map`, when the map has its entries in this order. -/
def checkCacheServerRequestMap (c : Client) : List Str → Client × List Outgoing
  | [] => (c, [])
  | addr :: order =>
    let (c, sent) := c.checkEntry addr
    let (c, rest) := c.checkCacheServerRequestMap order
    (c, sent ++ rest)

/-- An order that the entries of the map can have. -/
def Lists (c : Client) (order : List Str) : Prop := order.Nodup ∧ order.toFinset = c.requestMap.keys

instance decidableLists (c : Client) (order : List Str) : Decidable (c.Lists order) := by
  unfold Lists; infer_instance

variable {c c' : Client} {addr key value message : Str} {keys order : List Str}

lemma requestMap_resendKeys : (c.resendKeys keys).1.requestMap = c.requestMap := by
  induction keys generalizing c with
  | nil => rfl
  | cons key keys ih => exact ih

lemma sent_resendKeys : (c.resendKeys keys).2 = keys.map fun key => ⟨.master, key⟩ := by
  induction keys generalizing c with
  | nil => rfl
  | cons key keys ih =>
    rw [List.map_cons, ← ih (c := c.sendRequestToMaster key)]
    rfl

/-- The list of an address after the pass. -/
def cleared (keys : List Str) : List Str := if keys.length > lostMaxNum then [] else keys

/-- What the pass sends of the list of an address. -/
def lost (keys : List Str) : List Str := if keys.length > lostMaxNum then keys else []

lemma sent_checkEntry (c : Client) (addr : Str) :
    (c.checkEntry addr).2 = (lost (c.keysAt addr)).map fun key => ⟨.master, key⟩ := by
  unfold checkEntry lost
  split_ifs
  · exact sent_resendKeys
  · rfl

/-- A turn clears the list that it is at, if it is too long. -/
lemma lookup_checkEntry (c : Client) (addr a : Str) : (c.checkEntry addr).1.requestMap.lookup a =
    if a = addr then (c.requestMap.lookup a).map cleared else c.requestMap.lookup a := by
  unfold checkEntry keysAt
  cases h : c.requestMap.lookup addr with
  | none =>
    have hshort : ¬ ([] : List Str).length > lostMaxNum := Nat.not_lt_zero lostMaxNum
    rw [Option.getD_none, if_neg hshort]
    split_ifs with ha
    · rw [ha, h]
      rfl
    · rfl
  | some keys =>
    rw [Option.getD_some]
    by_cases hlong : keys.length > lostMaxNum
    · rw [if_pos hlong]
      show ((c.resendKeys keys).1.requestMap.insert addr []).lookup a = _
      rw [requestMap_resendKeys, lookup_insert_ite]
      split_ifs with ha
      · rw [ha, h, Option.map_some, cleared, if_pos hlong]
      · rfl
    · rw [if_neg hlong]
      split_ifs with ha
      · rw [ha, h, Option.map_some, cleared, if_neg hlong]
      · rfl

/-- **The pass.**  Over the addresses of `order` it sends the lists that are too long to the master, one
after the other, and clears them. -/
lemma check_spec (hnodup : order.Nodup) :
    (c.checkCacheServerRequestMap order).2 =
      (order.flatMap fun addr => lost (c.keysAt addr)).map (fun key => ⟨.master, key⟩) ∧
    ∀ a, (c.checkCacheServerRequestMap order).1.requestMap.lookup a =
      if order.contains a then (c.requestMap.lookup a).map cleared else c.requestMap.lookup a := by
  induction order generalizing c with
  | nil => exact ⟨rfl, fun _ => rfl⟩
  | cons addr order ih =>
    obtain ⟨hnew, hnodup⟩ := List.nodup_cons.mp hnodup
    obtain ⟨hsent, hlookup⟩ := ih (c := (c.checkEntry addr).1) hnodup
    constructor
    · -- the addresses that come later have their old lists
      have hlater : (order.flatMap fun a => lost ((c.checkEntry addr).1.keysAt a)) =
          order.flatMap fun a => lost (c.keysAt a) := by
        refine List.flatMap_congr fun a ha => ?_
        rw [keysAt, lookup_checkEntry, if_neg (ne_of_mem_of_not_mem ha hnew), keysAt]
      show (c.checkEntry addr).2 ++ ((c.checkEntry addr).1.checkCacheServerRequestMap order).2 = _
      rw [hsent, sent_checkEntry, hlater, List.flatMap_cons, List.map_append]
    · intro a
      show ((c.checkEntry addr).1.checkCacheServerRequestMap order).1.requestMap.lookup a = _
      rw [hlookup, lookup_checkEntry]
      by_cases ha : a = addr
      · subst ha
        have hin : ¬ order.contains a := by rwa [List.contains_iff_mem]
        rw [if_neg hin, if_pos rfl, if_pos (by simp)]
      · simp only [if_neg ha, List.contains_cons, beq_false_of_ne ha, Bool.false_or]

/-- An address that does not come up has no list. -/
lemma lookup_eq_none_of_lists (h : c.Lists order) (ha : ¬ order.contains addr) :
    c.requestMap.lookup addr = none := by
  rw [Finmap.lookup_eq_none, ← Finmap.mem_keys, ← h.2, List.mem_toFinset]
  rwa [List.contains_iff_mem] at ha

/-- What the sessions of the client make of the pass is what its loops do. -/
theorem check_eq (h : c.Lists order) :
    (c.checkCacheServerRequestMap order).2 = (c.lostKeys order).map (fun key => ⟨.master, key⟩) ∧
    (c.checkCacheServerRequestMap order).1.requestMap = c.clearLost.requestMap := by
  obtain ⟨hsent, hlookup⟩ := check_spec (c := c) h.1
  constructor
  · have hlost : c.lostKeys order = order.flatMap fun addr => lost (c.keysAt addr) := by
      refine List.flatMap_congr fun addr _ => ?_
      unfold lost keysAt
      cases c.requestMap.lookup addr <;> rfl
    rw [hsent, hlost]
  · refine Finmap.ext_lookup fun a => ?_
    rw [hlookup, clearLost, lookup_mapValues]
    split_ifs with ha
    · rfl
    · rw [lookup_eq_none_of_lists h ha]
      rfl

/-! ### What the handlers do to the lists -/

/-- A new list, or the old one with the key. -/
lemma lookup_addItemToRequestMap (c : Client) (addr key a : Str) :
    (c.addItemToRequestMap addr key).requestMap.lookup a =
      if a = addr then some (if (c.keysAt addr).contains key then c.keysAt addr else c.keysAt addr ++ [key])
      else c.requestMap.lookup a := by
  unfold addItemToRequestMap keysAt
  cases h : c.requestMap.lookup addr with
  | none =>
    show (insertNew c.requestMap addr [key]).lookup a = _
    rw [lookup_insertNew]
    by_cases ha : a = addr
    · rw [if_pos ha, if_pos ha, ha, h]
      rfl
    · rw [if_neg ha, if_neg ha, Option.or_none]
  | some keys =>
    rw [Option.getD_some]
    dsimp only
    by_cases hkey : keys.contains key
    · rw [if_pos hkey, if_pos hkey]
      split_ifs with ha
      · rw [ha, h]
      · rfl
    · rw [if_neg hkey, if_neg hkey]
      exact lookup_insert_ite

lemma lookup_eraseItemFromRequestMap (c : Client) (addr key a : Str) :
    (c.eraseItemFromRequestMap addr key).requestMap.lookup a =
      if a = addr then (c.requestMap.lookup a).map (List.erase · key) else c.requestMap.lookup a := by
  unfold eraseItemFromRequestMap
  cases h : c.requestMap.lookup addr with
  | none =>
    split_ifs with ha
    · rw [ha, h]
      rfl
    · rfl
  | some keys =>
    show (c.requestMap.insert addr (keys.erase key)).lookup a = _
    rw [lookup_insert_ite]
    split_ifs with ha
    · rw [ha, h]
      rfl
    · rfl

lemma keysAt_addItemToRequestMap (c : Client) (addr key : Str) :
    (c.addItemToRequestMap addr key).keysAt = (Deed.send addr key).apply c.keysAt := by
  funext a
  show _ = Function.update c.keysAt addr _ a
  rw [keysAt, lookup_addItemToRequestMap]
  by_cases ha : a = addr
  · rw [if_pos ha, ha, Function.update_self, Option.getD_some]
  · rw [if_neg ha, Function.update_of_ne ha]
    rfl

lemma keysAt_eraseItemFromRequestMap (c : Client) (addr key : Str) :
    (c.eraseItemFromRequestMap addr key).keysAt = (Deed.reply addr key).apply c.keysAt := by
  funext a
  show _ = Function.update c.keysAt addr _ a
  rw [keysAt, lookup_eraseItemFromRequestMap]
  split_ifs with ha
  · rw [ha, Function.update_self, keysAt]
    cases c.requestMap.lookup addr <;> rfl
  · rw [Function.update_of_ne ha]
    rfl

/-- The answer that a message of a cache server is. -/
def replyDeed (message : Str) : List (Deed Str Str) :=
  match split message sharp with
  | state :: key :: addr :: _ => if state = lit "SUCCESS" ∨ state = lit "FAILED" then [.reply addr key] else []
  | _ => []

/-- The lists that the pass clears. -/
def clearDeeds (c : Client) (order : List Str) : List (Deed Str Str) :=
  (order.filter fun addr => (c.keysAt addr).length > lostMaxNum).map .clear

lemma keysAt_requestToCacheServer (h : c.requestToCacheServer addr key value = some c') :
    c'.keysAt = (Deed.send addr key).apply c.keysAt := by
  unfold requestToCacheServer at h
  split at h
  next =>
    cases h
    exact keysAt_addItemToRequestMap c addr key
  next => cases h

lemma keysAt_stopTimer (h : c.stopTimer addr = some c') : c'.keysAt = c.keysAt := by
  obtain ⟨r, -, rfl⟩ := Option.map_eq_some_iff.mp h
  rfl

lemma exists_fields_of_dealwith (h : c.dealwithCacheServer message = some c') :
    ∃ state key addr l, split message sharp = state :: key :: addr :: l := by
  cases hsplit : split message sharp with
  | nil =>
    rw [dealwithCacheServer, hsplit] at h
    cases h
  | cons state l =>
    match l with
    | [] | [_] =>
      rw [dealwithCacheServer, hsplit] at h
      cases h
    | key :: addr :: l => exact ⟨state, key, addr, l, rfl⟩

lemma keysAt_dealwithCacheServer (h : c.dealwithCacheServer message = some c') :
    c'.keysAt = (replyDeed message).foldr Deed.apply c.keysAt := by
  obtain ⟨state, key, addr, l, hsplit⟩ := exists_fields_of_dealwith h
  have hdeed : replyDeed message =
      if state = lit "SUCCESS" ∨ state = lit "FAILED" then [.reply addr key] else [] := by
    rw [replyDeed, hsplit]
  rw [dealwithCacheServer, hsplit] at h
  dsimp only at h
  rw [hdeed]
  split_ifs at h with hsuccess hfailed
  · rw [if_pos (.inl hsuccess), keysAt_stopTimer h]
    exact keysAt_eraseItemFromRequestMap c addr key
  · rw [if_pos (.inr hfailed), keysAt_stopTimer h]
    exact keysAt_eraseItemFromRequestMap c addr key
  · cases h
    rw [if_neg (not_or.mpr ⟨hsuccess, hfailed⟩)]
    rfl

lemma keysAt_after_check (hnodup : order.Nodup) (a : Str) :
    (c.checkCacheServerRequestMap order).1.keysAt a =
      if order.contains a then cleared (c.keysAt a) else c.keysAt a := by
  rw [keysAt, (check_spec hnodup).2, keysAt]
  split_ifs
  · cases c.requestMap.lookup a <;> rfl
  · rfl

lemma keysAt_check (h : c.Lists order) :
    (c.checkCacheServerRequestMap order).1.keysAt = (c.clearDeeds order).foldr Deed.apply c.keysAt := by
  funext a
  obtain ⟨hclear, hkeep⟩ :=
    foldr_clear (order.filter fun addr => (c.keysAt addr).length > lostMaxNum) c.keysAt a
  rw [keysAt_after_check h.1, clearDeeds]
  by_cases ha : order.contains a ∧ (c.keysAt a).length > lostMaxNum
  · rw [hclear (List.mem_filter.mpr ⟨List.contains_iff_mem.mp ha.1, decide_eq_true ha.2⟩), if_pos ha.1,
      cleared, if_pos ha.2]
  · rw [hkeep fun hmem => ?_]
    · split_ifs with hin
      · rw [cleared, if_neg fun hlong => ha ⟨hin, hlong⟩]
      · rfl
    · obtain ⟨hin, hlong⟩ := List.mem_filter.mp hmem
      exact ha ⟨List.contains_iff_mem.mpr hin, of_decide_eq_true hlong⟩

end Client

/-- A client, and what has happened to its requests to cache servers, the latest first. -/
structure RequestLog where
  client : Client
  log : List (Deed Str Str)

namespace RequestLog

open Client

inductive Event where
  /-- `send_request_to_cache_server`. -/
  | send (addr key value : Str)
  /-- `dealwith_cache_server`. -/
  | cacheServer (message : Str)
  /-- `check_cache_server_request_map`, when the map has its entries in this order. -/
  | check (order : List Str)

def step (s : RequestLog) : Event → Option RequestLog
  | .send addr key value =>
    (s.client.requestToCacheServer addr key value).map fun c => ⟨c, .send addr key :: s.log⟩
  | .cacheServer message =>
    (s.client.dealwithCacheServer message).map fun c => ⟨c, replyDeed message ++ s.log⟩
  | .check order =>
    if s.client.Lists order then
      some ⟨(s.client.checkCacheServerRequestMap order).1, s.client.clearDeeds order ++ s.log⟩
    else none

def Init (s : RequestLog) : Prop := ∃ mode cacheSizeLocal, s = ⟨.new mode cacheSizeLocal, []⟩

variable {s s' : RequestLog} {e : Event}

lemma exact_step (h : Exact s.log s.client.keysAt) (hs : s.step e = some s') :
    Exact s'.log s'.client.keysAt := by
  cases e with
  | send addr key value =>
    obtain ⟨c, hc, rfl⟩ := Option.map_eq_some_iff.mp hs
    show Exact (_ :: _) c.keysAt
    rw [keysAt_requestToCacheServer hc]
    exact h.apply _
  | cacheServer message =>
    obtain ⟨c, hc, rfl⟩ := Option.map_eq_some_iff.mp hs
    show Exact (_ ++ _) c.keysAt
    rw [keysAt_dealwithCacheServer hc]
    exact h.foldr _
  | check order =>
    dsimp only [step] at hs
    split_ifs at hs with hlists
    cases hs
    show Exact (_ ++ _) _
    rw [keysAt_check hlists]
    exact h.foldr _

lemma exact_of_reach (h : Reach Init step (fun _ _ => True) s) : Exact s.log s.client.keysAt := by
  refine h.invariant (I := fun s => Exact s.log s.client.keysAt) ?_ fun s e s' _ hi _ hs => exact_step hi hs
  rintro _ ⟨mode, cacheSizeLocal, rfl⟩
  exact exact_nil

/-- **Pending requests.**  The list of an address holds the keys whose latest deed is a request to it, once
each.  A pass sends the lists that are too long to the master, each from its front to its end, clears
them and leaves the others alone. -/
theorem request_map_exact (h : Reach Init step (fun _ _ => True) s) :
    (∀ addr, (s.client.keysAt addr).Nodup ∧ ∀ key, key ∈ s.client.keysAt addr ↔
      s.log.find? (Deed.about addr key) = some (.send addr key)) ∧
    ∀ order, s.client.Lists order →
      (s.client.checkCacheServerRequestMap order).2 =
        (order.flatMap fun addr => lost (s.client.keysAt addr)).map (fun key => ⟨.master, key⟩) ∧
      ∀ addr, (s.client.checkCacheServerRequestMap order).1.keysAt addr = cleared (s.client.keysAt addr) := by
  refine ⟨exact_of_reach h, fun order hlists => ⟨(check_spec hlists.1).1, fun addr => ?_⟩⟩
  rw [keysAt_after_check hlists.1]
  split_ifs with hin
  · rfl
  · rw [keysAt, lookup_eq_none_of_lists hlists hin]
    rfl

/-- Seven requests, one of them answered and sent again, and a pass. -/
def sevenKeys : List Event :=
  [.send (lit "127.0.0.1:8002") (lit "a") []] ++
  ([lit "a", lit "b", lit "c", lit "d", lit "e", lit "f", lit "g"].map fun key =>
    .send (lit "127.0.0.1:8001") key []) ++
  [.cacheServer (lit "SUCCESS#a#127.0.0.1:8001#1"), .send (lit "127.0.0.1:8001") (lit "a") []]

theorem request_map_exact_seven : ∃ s, path step (fun _ _ => True) ⟨.new 'r'.toUInt8 10, []⟩ sevenKeys = some s ∧
    s.client.Lists [lit "127.0.0.1:8002", lit "127.0.0.1:8001"] ∧
    s.log.find? (Deed.about (lit "127.0.0.1:8001") (lit "a")) = some (.send (lit "127.0.0.1:8001") (lit "a")) ∧
    (s.client.checkCacheServerRequestMap [lit "127.0.0.1:8002", lit "127.0.0.1:8001"]).2 =
      [lit "b", lit "c", lit "d", lit "e", lit "f", lit "g", lit "a"].map (fun key => ⟨.master, key⟩) := by
  have hrun : (path step (fun _ _ => True) ⟨.new 'r'.toUInt8 10, []⟩ sevenKeys).map (fun s =>
      (decide (s.client.Lists [lit "127.0.0.1:8002", lit "127.0.0.1:8001"]),
        s.client.keysAt (lit "127.0.0.1:8002"), s.client.keysAt (lit "127.0.0.1:8001"))) =
      some (true, [lit "a"], [lit "b", lit "c", lit "d", lit "e", lit "f", lit "g", lit "a"]) := by
    decide +kernel
  obtain ⟨s, hs, hf⟩ := Option.map_eq_some_iff.mp hrun
  simp only [Prod.mk.injEq, decide_eq_true_iff] at hf
  obtain ⟨hlists, hone, hseven⟩ := hf
  have hexact := request_map_exact (reach_of_path ⟨_, _, rfl⟩ hs)
  have hmem : lit "a" ∈ s.client.keysAt (lit "127.0.0.1:8001") := by
    rw [hseven]
    decide
  refine ⟨s, hs, hlists, ((hexact.1 _).2 _).mp hmem, ?_⟩
  rw [(hexact.2 _ hlists).1, List.flatMap_cons, List.flatMap_cons, hone, hseven]
  rfl

end RequestLog

end DistCache
