import DistCache.Cache.Migration
import DistCache.Lib.Transition

/-!
How the requests of the clients get to the backup: `Client_chat` sets `kv_update_flag` and then replaces
`kv_to_replica`, and the loop of `primary_cache` tests the flag, copies the text, sends it and clears the
flag.

There is one flag and one text, so a request that is finished before the flag is clear again is one
message too few, and a text that is copied between the flag and its replacement is the one before.  Apart
from that the messages sent are the requests in their order (`replication_iff`).
-/

namespace DistCache

open Lib

/-- Where `Client_chat` stands with a request. -/
inductive ChatPc where
  | waiting
  /-- `LRU_handle_task` is done. -/
  | handled (message : Str)
  /-- `kv_update_flag` is set. -/
  | flagged (message : Str)
  deriving DecidableEq

/-- The request that is handled. -/
def ChatPc.served : ChatPc → Option Str
  | handled message => some message
  | _ => none

/-- The request that is about to replace the text. -/
def ChatPc.storing : ChatPc → Option Str
  | flagged message => some message
  | _ => none

/-- Where the loop of `primary_cache` stands. -/
inductive LoopPc where
  | polling
  /-- The flag was set. -/
  | seen
  /-- The text has been copied. -/
  | copied (message : Str)
  /-- It has been sent. -/
  | sent
  deriving DecidableEq

/-- The text that the loop has copied and not sent. -/
def LoopPc.inHand : LoopPc → Option Str
  | copied message => some message
  | _ => none

/-- A primary, its two threads, the requests in the order they are handled and the messages sent. -/
structure Replication where
  cache : Cache
  chat : ChatPc
  loop : LoopPc
  served : List Str
  sends : List Str

namespace Replication

inductive Event where
  /-- `Client_chat` handles a request. -/
  | handle (message : Str)
  /-- `kv_update_flag = true`. -/
  | setFlag
  /-- `kv_to_replica` is replaced under `kv_mutex`. -/
  | store
  /-- The loop tests the flag. -/
  | poll
  /-- It copies `kv_to_replica` under `kv_mutex`. -/
  | copy
  /-- It sends the message. -/
  | send
  /-- `kv_update_flag = false`. -/
  | clear

/-- The state after a piece of a thread. -/
def step (s : Replication) : Event → Option Replication
  | .handle message =>
    match s.chat with
    | .waiting => (s.cache.lruHandleTask message).map fun r => { s with
        cache := r.1
        chat := .handled message
        served := s.served ++ [message] }
    | _ => none
  | .setFlag =>
    match s.chat with
    | .handled message => some { s with
        cache := { s.cache with kvUpdateFlag := true }
        chat := .flagged message }
    | _ => none
  | .store =>
    match s.chat with
    | .flagged message => some { s with
        cache := { s.cache with kvToReplica := message }
        chat := .waiting }
    | _ => none
  | .poll =>
    match s.loop with
    | .polling => some (if s.cache.kvUpdateFlag then { s with loop := .seen } else s)
    | _ => none
  | .copy =>
    match s.loop with
    | .seen => some { s with loop := .copied s.cache.kvToReplica }
    | _ => none
  | .send =>
    match s.loop with
    | .copied message => some { s with loop := .sent, sends := s.sends ++ [message] }
    | _ => none
  | .clear =>
    match s.loop with
    | .sent => some { s with
        cache := { s.cache with kvUpdateFlag := false }
        loop := .polling }
    | _ => none

/-- Before the first request. -/
def Init (s : Replication) : Prop :=
  ∃ cache : Cache, cache.kvUpdateFlag = false ∧ s = ⟨cache, .waiting, .polling, [], []⟩

/-- Neither thread has anything to do before the next request. -/
def AtRest (s : Replication) : Prop :=
  s.chat = .waiting ∧ s.loop = .polling ∧ s.cache.kvUpdateFlag = false

instance decidableAtRest (s : Replication) : Decidable s.AtRest :=
  inferInstanceAs (Decidable (_ ∧ _ ∧ _))

/-- The flag is set only when it is clear, and the text copied only when the request that set the flag has
replaced it. -/
def InTurn (s : Replication) : Event → Prop
  | .setFlag => s.cache.kvUpdateFlag = false
  | .copy => ∀ message ∈ s.chat.storing, s.cache.kvToReplica = message
  | _ => True

instance decidableInTurn (s : Replication) : (e : Event) → Decidable (s.InTurn e)
  | .setFlag => inferInstanceAs (Decidable (s.cache.kvUpdateFlag = false))
  | .copy => inferInstanceAs (Decidable (∀ message ∈ s.chat.storing, s.cache.kvToReplica = message))
  | .handle _ | .store | .poll | .send | .clear => isTrue trivial

variable {s s' : Replication} {e : Event} {ok : Replication → Event → Prop}

/-! ### The pieces, one by one -/

/-- What a piece of a thread does. -/
inductive Did (s : Replication) : Event → Replication → Prop
  | handle {message : Str} (hchat : s.chat = .waiting) : Did s (.handle message) { s with
      cache := { s.cache with mainCache := s.cache.mainCache.serve message }
      chat := .handled message
      served := s.served ++ [message] }
  | setFlag {message : Str} (hchat : s.chat = .handled message) : Did s .setFlag { s with
      cache := { s.cache with kvUpdateFlag := true }
      chat := .flagged message }
  | store {message : Str} (hchat : s.chat = .flagged message) : Did s .store { s with
      cache := { s.cache with kvToReplica := message }
      chat := .waiting }
  | seen (hloop : s.loop = .polling) (hflag : s.cache.kvUpdateFlag = true) :
      Did s .poll { s with loop := .seen }
  | idle (hloop : s.loop = .polling) (hflag : s.cache.kvUpdateFlag = false) : Did s .poll s
  | copy (hloop : s.loop = .seen) : Did s .copy { s with loop := .copied s.cache.kvToReplica }
  | send {message : Str} (hloop : s.loop = .copied message) :
      Did s .send { s with loop := .sent, sends := s.sends ++ [message] }
  | clear (hloop : s.loop = .sent) : Did s .clear { s with
      cache := { s.cache with kvUpdateFlag := false }
      loop := .polling }

lemma did_of_step (h : s.step e = some s') : s.Did e s' := by
  cases e with
  | handle message =>
    simp only [step] at h
    split at h
    next hchat =>
      obtain ⟨buffer, heq⟩ := s.cache.lruHandleTask_eq message
      rw [heq] at h
      cases h
      exact .handle hchat
    next => cases h
  | setFlag =>
    simp only [step] at h
    split at h
    next message hchat =>
      cases h
      exact .setFlag hchat
    next => cases h
  | store =>
    simp only [step] at h
    split at h
    next message hchat =>
      cases h
      exact .store hchat
    next => cases h
  | poll =>
    simp only [step] at h
    split at h
    next hloop =>
      cases h
      split_ifs with hflag
      · exact .seen hloop hflag
      · exact .idle hloop (Bool.not_eq_true _ ▸ hflag)
    next => cases h
  | copy =>
    simp only [step] at h
    split at h
    next hloop =>
      cases h
      exact .copy hloop
    next => cases h
  | send =>
    simp only [step] at h
    split at h
    next message hloop =>
      cases h
      exact .send hloop
    next => cases h
  | clear =>
    simp only [step] at h
    split at h
    next hloop =>
      cases h
      exact .clear hloop
    next => cases h

/-! ### What is still to be sent -/

/-- The text that a copy would find once the request that has set the flag has replaced it. -/
def content (s : Replication) : Str := s.chat.storing.getD s.cache.kvToReplica

/-- The messages that the two threads send if no further request comes and they take turns. -/
def pending (s : Replication) : List Str :=
  (match s.loop with
    | .polling => if s.cache.kvUpdateFlag then [s.content] else []
    | .seen => [s.content]
    | .copied message => [message]
    | .sent => []) ++ s.chat.served.toList

/-- The loop leaves its test only with the flag set, and keeps it so until it clears it. -/
def Flagged (s : Replication) : Prop := s.loop = .polling ∨ s.cache.kvUpdateFlag = true

lemma AtRest.pending (h : s.AtRest) : s.pending = [] := by
  obtain ⟨hchat, hloop, hflag⟩ := h
  simp [Replication.pending, hchat, hloop, hflag, ChatPc.served]

lemma Did.flagged (hd : s.Did e s') (h : s.Flagged) : s'.Flagged := by
  cases hd with
  | handle | store => exact h
  | setFlag => exact .inr rfl
  | seen hloop hflag => exact .inr hflag
  | idle => exact h
  | copy hloop | send hloop =>
    refine h.imp_left fun hpolling => ?_
    rw [hloop] at hpolling
    cases hpolling
  | clear => exact .inl rfl

lemma flagged_of_reach (h : Reach Init step ok s) : s.Flagged := by
  refine h.invariant (I := Flagged) ?_ fun _ _ _ _ hi _ hs => (did_of_step hs).flagged hi
  rintro _ ⟨cache, -, rfl⟩
  exact .inl rfl

/-- The messages sent and those pending. -/
def total (s : Replication) : List Str := s.sends ++ s.pending

/-- What `setFlag` does to the messages that are pending: in turn nothing, otherwise it takes one away. -/
lemma length_total_setFlag {message : Str} (hchat : s.chat = .handled message) (hflagged : s.Flagged)
    (hs : s.step .setFlag = some s') :
    if s.cache.kvUpdateFlag then s'.total.length + 1 = s.total.length else s'.total = s.total := by
  simp only [step, hchat, Option.some.injEq] at hs
  subst hs
  split_ifs with hflag
  · cases hloop : s.loop <;>
      simp [total, pending, content, hchat, hloop, hflag, ChatPc.served, ChatPc.storing]
  · have hloop : s.loop = .polling := hflagged.resolve_right hflag
    simp [total, pending, content, hchat, hloop, hflag, ChatPc.served, ChatPc.storing]

/-- A step adds its request to both sides, or adds none; in turn it changes no message. -/
lemma Did.total_cases (hd : s.Did e s') (hflagged : s.Flagged) :
    (∃ message, s'.served = s.served ++ [message] ∧ s'.total = s.total ++ [message]) ∨
      s'.served = s.served ∧ s'.total.length ≤ s.total.length ∧
        (s.InTurn e → s'.total = s.total) := by
  cases hd with
  | handle hchat =>
    refine .inl ⟨_, rfl, ?_⟩
    simp [total, pending, content, hchat, ChatPc.served, ChatPc.storing]
  | setFlag hchat =>
    have hset := length_total_setFlag hchat hflagged (by rw [step, hchat])
    right
    refine ⟨rfl, ?_, fun hok => ?_⟩
    · split_ifs at hset
      · omega
      · rw [hset]
    · have hclear : s.cache.kvUpdateFlag = false := hok
      rw [hclear] at hset
      exact hset
  | @store message hchat =>
    have hsame : total { s with
        cache := { s.cache with kvToReplica := message }
        chat := .waiting } = s.total := by
      simp [total, pending, content, hchat, ChatPc.served, ChatPc.storing]
    exact .inr ⟨rfl, by rw [hsame], fun _ => hsame⟩
  | seen hloop hflag =>
    have hsame : total { s with loop := .seen } = s.total := by
      simp [total, pending, content, hloop, hflag]
    exact .inr ⟨rfl, by rw [hsame], fun _ => hsame⟩
  | idle => exact .inr ⟨rfl, le_rfl, fun _ => rfl⟩
  | copy hloop =>
    refine .inr ⟨rfl, by simp [total, pending, hloop], fun hok => ?_⟩
    have hcontent : s.content = s.cache.kvToReplica := by
      have hok' : ∀ message ∈ s.chat.storing, s.cache.kvToReplica = message := hok
      unfold content
      cases hstoring : s.chat.storing with
      | none => rfl
      | some message => exact (hok' message hstoring).symm
    simp [total, pending, hloop, hcontent]
  | @send message hloop =>
    have hsame : total { s with loop := .sent, sends := s.sends ++ [message] } = s.total := by
      simp [total, pending, hloop]
    exact .inr ⟨rfl, by rw [hsame], fun _ => hsame⟩
  | clear hloop =>
    have hsame : total { s with
        cache := { s.cache with kvUpdateFlag := false }
        loop := .polling } = s.total := by
      simp [total, pending, hloop]
    exact .inr ⟨rfl, by rw [hsame], fun _ => hsame⟩

/-! ### Runs in which nothing is out of turn -/

lemma total_of_reach (h : Reach Init step InTurn s) : s.total = s.served := by
  refine h.invariant (I := fun s => s.total = s.served) ?_ fun s e s' hr hi hok hs => ?_
  · rintro _ ⟨cache, hflag, rfl⟩
    simp [total, pending, hflag, ChatPc.served]
  · rcases (did_of_step hs).total_cases (flagged_of_reach hr) with ⟨message, hserved, htotal⟩ |
      ⟨hserved, -, htotal⟩
    · rw [hserved, htotal, hi]
    · rw [hserved, htotal hok, hi]

/-! ### A step out of turn -/

/-- Fewer messages will have been sent than there were requests. -/
def Short (s : Replication) : Prop := s.total.length < s.served.length

/-- A message that has been sent, or is in the hand of the loop, is not the request of its turn. -/
def Wrong (s : Replication) : Prop :=
  ∃ (i : ℕ) (x y : Str), (s.sends ++ s.loop.inHand.toList)[i]? = some x ∧ s.served[i]? = some y ∧ x ≠ y

/-- No step makes up for a message that is missing. -/
lemma Did.short (hd : s.Did e s') (hflagged : s.Flagged) (h : s.Short) : s'.Short := by
  unfold Short at h ⊢
  rcases hd.total_cases hflagged with ⟨message, hserved, htotal⟩ | ⟨hserved, hle, -⟩
  · rw [hserved, htotal, List.length_append, List.length_append]
    omega
  · rw [hserved]
    omega

lemma getElem?_of_prefix {l l' : List Str} {i : ℕ} {x : Str} (h : l <+: l') (hx : l[i]? = some x) :
    l'[i]? = some x := by
  obtain ⟨t, rfl⟩ := h
  rw [List.getElem?_append_left (List.getElem?_eq_some_iff.mp hx).1, hx]

/-- No step takes a wrong message back. -/
lemma Did.wrong (hd : s.Did e s') (h : s.Wrong) : s'.Wrong := by
  obtain ⟨i, x, y, hx, hy, hne⟩ := h
  have hsends : (s.sends ++ s.loop.inHand.toList) <+: (s'.sends ++ s'.loop.inHand.toList) := by
    cases hd with
    | handle | setFlag | store | idle => exact List.prefix_rfl
    | seen hloop | copy hloop | send hloop | clear hloop => simp [hloop, LoopPc.inHand]
  have hserved : s.served <+: s'.served := by
    cases hd with
    | handle => exact List.prefix_append _ _
    | setFlag | store | seen | idle | copy | send | clear => exact List.prefix_rfl
  exact ⟨i, x, y, getElem?_of_prefix hsends hx, getElem?_of_prefix hserved hy, hne⟩

/-- A step out of turn leaves a message too few or a wrong one. -/
lemma Did.out_of_turn (hd : s.Did e s') (hflagged : s.Flagged) (htotal : s.total = s.served)
    (hout : ¬ s.InTurn e) : s'.Short ∨ s'.Wrong := by
  cases hd with
  | setFlag hchat =>
    have hset := length_total_setFlag hchat hflagged (by rw [step, hchat])
    have hflag : s.cache.kvUpdateFlag = true := Bool.not_eq_false _ ▸ hout
    rw [if_pos hflag, htotal] at hset
    exact .inl ((Nat.lt_succ_self _).trans_eq hset)
  | copy hloop =>
    have hstoring : ∃ message ∈ s.chat.storing, s.cache.kvToReplica ≠ message := by
      by_contra hall
      push Not at hall
      exact hout hall
    obtain ⟨message, hmem, hne⟩ := hstoring
    have hserved : s.served = s.sends ++ [message] := by
      rw [← htotal, total, pending, hloop, content, hmem]
      unfold ChatPc.storing at hmem
      split at hmem
      next hchat => simp [hchat, ChatPc.served]
      next => cases hmem
    right
    refine ⟨s.sends.length, s.cache.kvToReplica, message, ?_, ?_, hne⟩
    · simp [LoopPc.inHand]
    · simp [hserved]
  | handle | store | seen | idle | send | clear => exact absurd trivial hout

/-- What is missing or wrong stays so. -/
lemma bad_of_run (hrun : Relation.ReflTransGen (Move step fun _ _ => True) s s') (hflagged : s.Flagged)
    (hbad : s.Short ∨ s.Wrong) : s'.Flagged ∧ (s'.Short ∨ s'.Wrong) := by
  induction hrun with
  | refl => exact ⟨hflagged, hbad⟩
  | tail _ hmove ih =>
    obtain ⟨e, -, hs⟩ := hmove
    have hd := did_of_step hs
    exact ⟨hd.flagged ih.1, ih.2.imp (hd.short ih.1) hd.wrong⟩

/-- At rest nothing is missing and nothing is wrong only if the messages are the requests. -/
lemma sends_ne_of_rest (hrest : s.AtRest) (h : s.Short ∨ s.Wrong) : s.sends ≠ s.served := by
  intro heq
  rcases h with hshort | ⟨i, x, y, hx, hy, hne⟩
  · unfold Short total at hshort
    rw [hrest.pending, List.append_nil, heq] at hshort
    omega
  · obtain ⟨-, hloop, -⟩ := hrest
    rw [hloop, heq] at hx
    simp only [LoopPc.inHand, Option.toList_none, List.append_nil] at hx
    exact hne (Option.some.inj (hx.symm.trans hy))

/-- **The messages are the requests in their order**, none missing and none in place of another, as long
as no step is out of turn; and after the first step that is, they are not, whenever both threads have
nothing left to do. -/
theorem replication_iff (h : Reach Init step InTurn s) :
    s.sends <+: s.served ∧ (s.AtRest → s.sends = s.served) ∧
      ∀ e s', s.step e = some s' → ¬ s.InTurn e →
        ∀ s'', Relation.ReflTransGen (Move step fun _ _ => True) s' s'' → s''.AtRest →
          s''.sends ≠ s''.served := by
  have htotal := total_of_reach h
  refine ⟨?_, fun hrest => ?_, fun e s' hs hout s'' hrun hrest => ?_⟩
  · rw [← htotal]
    exact List.prefix_append _ _
  · rw [← htotal, total, hrest.pending, List.append_nil]
  · have hflagged := flagged_of_reach h
    have hd := did_of_step hs
    have hbad := bad_of_run hrun (hd.flagged hflagged) (hd.out_of_turn hflagged htotal hout)
    exact sends_ne_of_rest hrest hbad.2

/-- A primary before its first request. -/
def newReplication : Replication :=
  ⟨Cache.new 10 (lit "P") (lit "127.0.0.1") (lit "8001") (lit "9001"), .waiting, .polling, [], []⟩

lemma init_newReplication : Init newReplication := ⟨_, rfl, rfl⟩

/-- Two requests, each of them sent before the next one is finished. -/
theorem replication_in_turn : ∃ s, path step InTurn newReplication
    [.handle (lit "a#1"), .setFlag, .store, .poll, .copy, .send, .handle (lit "a"), .clear, .setFlag,
      .poll, .store, .copy, .send, .clear] = some s ∧ s.sends = s.served := by
  have hrun : (path step InTurn newReplication
      [.handle (lit "a#1"), .setFlag, .store, .poll, .copy, .send, .handle (lit "a"), .clear, .setFlag,
        .poll, .store, .copy, .send, .clear]).map (fun s => decide s.AtRest) = some true := by
    decide +kernel
  obtain ⟨s, hs, hrest⟩ := Option.map_eq_some_iff.mp hrun
  rw [decide_eq_true_iff] at hrest
  exact ⟨s, hs, (replication_iff (reach_of_path init_newReplication hs)).2.1 hrest⟩

/-- A second request is finished before the loop has tested the flag: the first one is not sent. -/
theorem replication_loses_request : ∃ s, Reach Init step (fun _ _ => True) s ∧ s.AtRest ∧
    s.served = [lit "a#1", lit "b#2"] ∧ s.sends = [lit "b#2"] := by
  have hrun : (path step (fun _ _ => True) newReplication
      [.handle (lit "a#1"), .setFlag, .store, .handle (lit "b#2"), .setFlag, .store, .poll, .copy, .send,
        .clear]).map (fun s => (decide s.AtRest, s.served, s.sends)) =
      some (true, [lit "a#1", lit "b#2"], [lit "b#2"]) := by
    decide +kernel
  obtain ⟨s, hs, hf⟩ := Option.map_eq_some_iff.mp hrun
  rw [Prod.mk.injEq, Prod.mk.injEq, decide_eq_true_iff] at hf
  exact ⟨s, reach_of_path init_newReplication hs, hf⟩

end Replication

end DistCache
