import DistCache.Cache.CacheList
import DistCache.Cache.Migration
import DistCache.Master.Addresses
import DistCache.Master.Routing

/-!
The replies and the buffers that they are copied to.

A request of up to `BUF_SIZE - 1` bytes is answered with the request itself, a prefix, an address and, when
it reads, a stored value, in a buffer of `BUF_SIZE` bytes.  `replyLength` says how long the reply of a
cache server is, and `textLength` the text of the master.
-/

namespace DistCache

open Lib

/-! ### Cache servers -/

namespace Cache

variable {c c' : Cache} {message buffer : Str}

/-- The length of the reply: to a read of a key that is held, to one of another key, and to a write. -/
def replyLength (c : Cache) (message : Str) : ℕ :=
  match writeOf message with
  | none =>
    match c.mainCache.lookup message with
    | some v => 8 + message.length + 1 + c.address.length + 1 + v.length
    | none => 7 + message.length + 1 + c.address.length
  | some (key, _) => 8 + key.length + 1 + c.address.length

section Length

variable {key val v : Str}

lemma replyLength_of_hit (hread : writeOf message = none) (hhit : c.mainCache.lookup message = some v) :
    c.replyLength message = 8 + message.length + 1 + c.address.length + 1 + v.length := by
  unfold replyLength
  rw [hread]
  dsimp only
  rw [hhit]

lemma replyLength_of_miss (hread : writeOf message = none) (hmiss : c.mainCache.lookup message = none) :
    c.replyLength message = 7 + message.length + 1 + c.address.length := by
  unfold replyLength
  rw [hread]
  dsimp only
  rw [hmiss]

lemma replyLength_of_write (hwrite : writeOf message = some (key, val)) :
    c.replyLength message = 8 + key.length + 1 + c.address.length := by
  unfold replyLength
  rw [hwrite]

end Length

lemma length_success : (lit "SUCCESS#").length = 8 := by decide

lemma length_failed : (lit "FAILED#").length = 7 := by decide

lemma length_lruHandleTask (h : c.lruHandleTask message = some (c', buffer)) :
    buffer.length = c.replyLength message := by
  unfold lruHandleTask at h
  by_cases hspear : spear message = message.length
  · have hread : writeOf message = none := by rw [writeOf, if_pos hspear]
    rw [if_pos hspear] at h
    split_ifs at h with hcheck
    · obtain ⟨v, hv⟩ := LruCache.exists_lookup (LruCache.check_iff.mp hcheck)
      cases h
      rw [replyLength_of_hit hread hv, hv]
      simp only [List.length_append, List.length_cons, length_success]
      omega
    · have hmiss : c.mainCache.lookup message = none :=
        LruCache.not_mem_keys_iff.mp fun hmem => hcheck (LruCache.check_iff.mpr hmem)
      cases h
      rw [replyLength_of_miss hread hmiss]
      simp only [List.length_append, List.length_cons, length_failed]
      omega
  · have hwrite : writeOf message = some (message.take (spear message), message.drop (spear message + 1)) := by
      rw [writeOf, if_neg hspear]
    rw [if_neg hspear] at h
    simp only [substr, Nat.zero_le, if_true, List.drop_zero, Option.bind_eq_bind, Option.bind_some,
      Option.bind_eq_some_iff, Option.pure_def, Option.some.injEq] at h
    obtain ⟨val, -, h⟩ := h
    cases h
    rw [replyLength_of_write hwrite]
    simp only [List.length_append, List.length_cons, length_success]
    omega

/-- The reply is as long as its parts. -/
lemma length_clientChat (h : c.clientChat message = some (c', buffer)) :
    buffer.length = c.replyLength message := by
  simp only [clientChat, Option.bind_eq_bind, Option.bind_eq_some_iff, Option.pure_def,
    Option.some.injEq] at h
  obtain ⟨⟨c₁, buffer₁⟩, h₁, h⟩ := h
  cases h
  exact length_lruHandleTask h₁

end Cache

/-- A cache server, and the replies it has put in `buffer`, the latest first. -/
structure Chat where
  cache : Cache
  buffers : List Str

namespace Chat

variable {s s' : Chat} {message : Str}

/-- A new cache server. -/
def Init (s : Chat) : Prop :=
  ∃ cacheSizeLocal status localCacheIP portForClient portForCache,
    s = ⟨.new cacheSizeLocal status localCacheIP portForClient portForCache, []⟩

/-- `Client_chat` on a request: `recv` takes at most `BUF_SIZE - 1` bytes. -/
def step (s : Chat) (message : Str) : Option Chat :=
  if message.length ≤ bufSize - 1 then
    (s.cache.clientChat message).map fun r => ⟨r.1, r.2 :: s.buffers⟩
  else none

/-- Every `memcpy` stays inside `send_buff_client`. -/
def InBuffer (s : Chat) : Prop := ∀ buffer ∈ s.buffers, buffer.length ≤ bufSize

/-- The prefix, the key, the address and the value that is read are not longer than the buffer. -/
def Fits (s : Chat) (message : Str) : Prop := s.cache.replyLength message ≤ bufSize

lemma inBuffer_step (h : s.step message = some s') :
    s'.InBuffer ↔ s.InBuffer ∧ s.Fits message := by
  unfold step at h
  split_ifs at h
  obtain ⟨⟨c, buffer⟩, hchat, rfl⟩ := Option.map_eq_some_iff.mp h
  unfold InBuffer Fits
  rw [← Cache.length_clientChat hchat, and_comm]
  exact List.forall_mem_cons

lemma inBuffer_of_reach (h : Reach Init step Fits s) : s.InBuffer := by
  refine h.invariant (I := InBuffer) ?_ fun s message s' _ hi hok hs => ?_
  · rintro _ ⟨_, _, _, _, _, rfl⟩ buffer hbuffer
    exact absurd hbuffer List.not_mem_nil
  · exact (inBuffer_step hs).mpr ⟨hi, hok⟩

end Chat

/-! ### The master -/

namespace Master

variable {m : Master} {key text : Str}

/-- `start_client` on a key: the text for the client. -/
def startClient (m : Master) (key : Str) : Option Str := do
  let cacheServerAddr ← m.handleClientMessage key
  return lit "MASTER#" ++ key ++ sharp :: cacheServerAddr

/-- The length of the text when the key is answered with the address in the record `e`. -/
def textLength (key : Str) (e : FdMap) : ℕ := 7 + key.length + 1 + e.ipPort.length

/-- The record that the key is looked up at has an address with which the text and its terminator fit. -/
def TextFits (m : Master) (key : Str) : Prop :=
  ∃ fd e, m.lookupFd key = some fd ∧ m.cachesList.lookup fd = some e ∧ textLength key e + 1 ≤ bufSize

/-- An address for clients that is told has two fields. -/
def TwoFields (ipPort : Str) : Prop :=
  ipPort = noAddr ∨ ∃ ip port, IsField ip ∧ IsField port ∧ ipPort = ip ++ sharp :: port

lemma length_master : (lit "MASTER#").length = 7 := by decide

lemma length_startClient (hall : AllAddressed (fun ipPort _ => TwoFields ipPort) m.cachesList)
    (h : m.startClient key = some text) : ∃ fd e, m.lookupFd key = some fd ∧
      m.cachesList.lookup fd = some e ∧ text.length = textLength key e := by
  simp only [startClient, handleClientMessage, Option.bind_eq_bind, Option.bind_eq_some_iff,
    Option.pure_def, Option.some.injEq] at h
  obtain ⟨addr, ⟨fd, hfd, e, he, ip, hip, port, hport, rfl⟩, rfl⟩ := h
  refine ⟨fd, e, hfd, he, ?_⟩
  rcases hall fd e he with hno | ⟨ip', port', hip', hport', heq⟩
  · rw [hno, show splitSharp noAddr = [noAddr] by decide] at hport
    cases hport
  · rw [heq, splitSharp_pair hip' hport'] at hip hport
    cases hip
    cases hport
    unfold textLength
    rw [heq]
    simp only [List.length_append, List.length_cons, length_master]
    omega

end Master

lemma World.twoFields_of_reach {w : World} {ok : World → Event → Prop} (h : Reach Init step ok w) :
    AllAddressed (fun ipPort _ => Master.TwoFields ipPort) w.master.cachesList := by
  refine allAddressed_of_reach (.inl rfl) (fun _ _ _ _ _ _ hf => .inr ?_) h
  obtain ⟨ip, portClient, -, hip, hclient, -, hipPort, -⟩ := hf.told
  exact ⟨ip, portClient, hip, hclient, hipPort⟩

/-! ### Both -/

/-- **Buffers.**  While every request fits, the replies of a cache server stay inside the buffer, and the
first request that does not fit ends it; and the text of the master fits with its terminator exactly when
the key and the address that it is answered with leave room for the rest. -/
theorem replies_fit_iff {s : Chat} (h : Reach Chat.Init Chat.step Chat.Fits s) :
    (s.InBuffer ∧ ∀ message s', s.step message = some s' → (s'.InBuffer ↔ s.Fits message)) ∧
    ∀ w, Reach World.Init World.step (fun _ _ => True) w → ∀ key text, key.length ≤ bufSize - 1 →
      w.master.startClient key = some text → (text.length + 1 ≤ bufSize ↔ w.master.TextFits key) := by
  have hin := Chat.inBuffer_of_reach h
  refine ⟨⟨hin, fun message s' hs => ?_⟩, fun w hw key text _ htext => ?_⟩
  · rw [Chat.inBuffer_step hs]
    exact and_iff_right hin
  · obtain ⟨fd, e, hfd, he, hlen⟩ := Master.length_startClient (World.twoFields_of_reach hw) htext
    rw [hlen]
    constructor
    · exact fun hle => ⟨fd, e, hfd, he, hle⟩
    · rintro ⟨fd', e', hfd', he', hle⟩
      cases hfd.symm.trans hfd'
      cases he.symm.trans he'
      exact hle

/-! ### One primary and a new cache server -/

namespace World

/-- One primary joins. -/
def onePrimary : List Event := [.accept 5, .receive 5 (lit "x#127.0.0.1#8001#9001#P")]

/-- Every key goes to it. -/
lemma exists_onePrimary : ∃ w, Reach Init step (fun _ _ => True) w ∧ ∀ key,
    w.master.handleClientMessage key = some (lit "127.0.0.1:8001") ∧
    ∃ e, w.master.lookupFd key = some 5 ∧ w.master.cachesList.lookup 5 = some e ∧
      e.ipPort = lit "127.0.0.1#8001" := by
  have hrun : (path step (fun w e => Atomic w e ∧ Below 2 w e) (start 1638316800) onePrimary).map
      (fun w => (w.shrinking.isNone, w.master.fdNode, (w.master.cachesList.lookup 5).map FdMap.ipPort)) =
      some (true, [5], some (lit "127.0.0.1#8001")) := by
    decide +kernel
  obtain ⟨w, hw, hf⟩ := Option.map_eq_some_iff.mp hrun
  simp only [Prod.mk.injEq, Option.isNone_iff_eq_none] at hf
  obtain ⟨hidle, hnode, hrec⟩ := hf
  have hr : Reach Init step (fun w e => Atomic w e ∧ Below 2 w e) w := reach_of_path ⟨_, rfl⟩ hw
  have hi := ringInv_of_reach (hr.mono fun _ _ hok => hok.1.undisturbed)
  have hnodes : w.master.cacheAddrHash.nodes = 1 := by rw [hi.idle hidle, hnode]; rfl
  have hpoint := owned_of_reach (ConsistentHash.onlyLabel_two 0 (by decide) 0 (by decide)) hr (by
    rw [hnodes]
    decide)
  have hfd (key : Str) : w.master.lookupFd key = some 5 := by
    rw [Master.lookupFd, Master.lookupIndex_eq_owner, hi.labelled.owner_eq_zero hnodes hpoint,
      Option.bind_eq_bind, Option.bind_some, hnode]
    rfl
  refine ⟨w, hr.mono fun _ _ _ => trivial, fun key =>
    ⟨handleClientMessage_of_lookupFd (hfd key) hrec (by decide), ?_⟩⟩
  obtain ⟨e, he, hip⟩ := Option.map_eq_some_iff.mp hrec
  exact ⟨e, hfd key, he, hip⟩

end World

namespace Chat

/-- A new cache server. -/
def fresh : Chat := ⟨.new 10 (lit "P") (lit "127.0.0.1") (lit "8001") (lit "9001"), []⟩

lemma init_fresh : Init fresh := ⟨_, _, _, _, _, rfl⟩

/-- A write and a read, and the text for a key. -/
theorem replies_fit_two : (∃ s, path step (fun _ _ => True) fresh [lit "a#1", lit "a"] = some s ∧
    Reach Init step Fits s ∧ s.InBuffer) ∧
    ∃ (w : World) (text : Str), w.master.startClient (lit "AAD") = some text ∧
      text.length + 1 ≤ bufSize := by
  have hwrite : fresh.Fits (lit "a#1") := by
    unfold Fits
    decide
  have hrun : (fresh.step (lit "a#1")).bind (fun s₁ => (s₁.step (lit "a")).map fun s =>
      (decide (s₁.cache.replyLength (lit "a") ≤ bufSize), s.buffers.length)) = some (true, 2) := by
    decide +kernel
  obtain ⟨s₁, hs₁, hf⟩ := Option.bind_eq_some_iff.mp hrun
  obtain ⟨s, hs, hf⟩ := Option.map_eq_some_iff.mp hf
  rw [Prod.mk.injEq, decide_eq_true_iff] at hf
  have hr : Reach Init step Fits s := ((Reach.start init_fresh).next hwrite hs₁).next hf.1 hs
  obtain ⟨w, hw, hall⟩ := World.exists_onePrimary
  obtain ⟨haddr, e, hfd, he, hip⟩ := hall (lit "AAD")
  have htext : w.master.startClient (lit "AAD") = some (lit "MASTER#AAD#127.0.0.1:8001") := by
    rw [Master.startClient, haddr]
    decide
  refine ⟨⟨s, ?_, hr, (replies_fit_iff hr).1.1⟩, w, _, htext,
    ((replies_fit_iff hr).2 w hw _ _ (by decide) htext).mpr ⟨5, e, hfd, he, ?_⟩⟩
  · rw [path_cons trivial hs₁, path_cons trivial hs, path_nil]
  · rw [Master.textLength, hip]
    decide

/-- A key of `BUF_SIZE - 1` bytes. -/
def longKey : Str := List.replicate (bufSize - 1) 97

lemma length_longKey : longKey.length = bufSize - 1 := List.length_replicate

lemma sharp_not_mem_longKey : sharp ∉ longKey := fun h => by
  cases List.eq_of_mem_replicate h

/-- A new cache server answers a long key, which it does not hold, in too long a reply, and the master
does, too. -/
theorem replies_overflow : (∃ s, path step (fun _ _ => True) fresh [longKey] = some s ∧ ¬ s.InBuffer) ∧
    ∃ (w : World) (text : Str), Reach World.Init World.step (fun _ _ => True) w ∧
      w.master.startClient longKey = some text ∧ ¬ text.length + 1 ≤ bufSize := by
  constructor
  · obtain ⟨buffer, hchat⟩ := fresh.cache.clientChat_eq longKey
    obtain ⟨s, hs⟩ : ∃ s, fresh.step longKey = some s := by
      rw [step, if_pos (by rw [length_longKey]), hchat]
      exact ⟨_, rfl⟩
    refine ⟨s, by rw [path_cons trivial hs, path_nil], fun hin => ?_⟩
    have hfits : fresh.cache.replyLength longKey ≤ bufSize := ((inBuffer_step hs).mp hin).2
    have hread : writeOf longKey = none := by
      rw [writeOf, if_pos (spear_of_sharp_free sharp_not_mem_longKey)]
    have hmiss : fresh.cache.mainCache.lookup longKey = none := rfl
    rw [Cache.replyLength_of_miss hread hmiss, length_longKey] at hfits
    have hbuf : bufSize = 65535 := rfl
    omega
  · obtain ⟨w, hw, hall⟩ := World.exists_onePrimary
    refine ⟨w, lit "MASTER#" ++ longKey ++ sharp :: lit "127.0.0.1:8001", hw, ?_, ?_⟩
    · rw [Master.startClient, (hall longKey).1]
      rfl
    · rw [List.length_append, List.length_append, Master.length_master, length_longKey]
      unfold bufSize
      omega

end Chat

end DistCache
