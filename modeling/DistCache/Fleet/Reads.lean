import DistCache.Fleet.Held

/-!
What the clients of the whole system read, from where they and the cache servers are new and as long as the
membership does not change.

Every address that a client holds, and every request in flight, is the one that the master gives for the
key.  So all that is asked about a key is handled by one cache server, in one order, whatever is lost,
delayed or sent again, and what a read finds is the latest write of its key that any server has handled
(`reads_latest`).
-/

namespace DistCache

open Lib

/-- What the log tells of one request. -/
structure Answered where
  addr : Str
  client : ℕ
  request : Request
  reply : Str

namespace Answered

/-- The entry of the log. -/
def entry (d : Answered) : Handled := ⟨d.addr, d.client, d.request.text, d.reply⟩

/-- The requests that the cache server at `addr` has handled. -/
def requestsAt (addr : Str) (l : List Answered) : List Request :=
  (l.filter fun d => d.addr = addr).map request

/-- The fields of the reply to a request that is handled after `before`.  A read is answered from what the
server holds, and then with the latest write of the key among those of all servers. -/
def Current (before : List Answered) (d : Answered) : Prop :=
  match d.request with
  | .write key _ => Client.split d.reply sharp = [lit "SUCCESS", key, d.addr]
  | .read key =>
    (key.1 ∈ Request.held 10 (requestsAt d.addr before) →
      ∃ v, Request.latestWrite (before.map request) key = some v ∧
        Client.split d.reply sharp = [lit "SUCCESS", key, d.addr, v]) ∧
    (key.1 ∉ Request.held 10 (requestsAt d.addr before) →
      Client.split d.reply sharp = [lit "FAILED", key, d.addr])

variable {m : Master} {l : List Answered} {d : Answered} {addr k : Str}

lemma requestsAt_concat (addr : Str) (l : List Answered) (d : Answered) : requestsAt addr (l ++ [d]) =
    if d.addr = addr then requestsAt addr l ++ [d.request] else requestsAt addr l := by
  unfold requestsAt
  rw [List.filter_append, List.map_append]
  split_ifs with h
  · simp [h]
  · simp [h]

/-- When all that is asked about a key is asked at one address, nothing is missed there. -/
lemma latestWrite_requestsAt (hone : ∀ d ∈ l, d.request.key.1 = k → d.addr = addr) :
    Request.latestWrite (requestsAt addr l) k = Request.latestWrite (l.map request) k := by
  induction l using List.reverseRecOn with
  | nil => rfl
  | append_singleton l d ih =>
    have hrest := ih fun d' hd' => hone d' (List.mem_append_left _ hd')
    rw [requestsAt_concat, List.map_append, List.map_singleton, Request.latestWrite_concat]
    split_ifs with haddr
    · rw [Request.latestWrite_concat, hrest]
    · -- the request is about another key
      have hkey : d.request.key.1 ≠ k := fun hkey =>
        haddr (hone d (List.mem_append_right _ (List.mem_singleton_self d)) hkey)
      rw [hrest]
      cases hd : d.request with
      | read key => rfl
      | write key value =>
        rw [hd] at hkey
        exact (if_neg hkey).symm

/-- The request went where the master sends its key, and its reply is current. -/
structure Right (m : Master) (before : List Answered) (d : Answered) : Prop where
  placed : m.Places d.request.key d.addr
  current : d.Current before

lemma right_of_answers {before : List Answered} (hplaced : m.Places d.request.key d.addr)
    (hbefore : ∀ d' ∈ before, m.Places d'.request.key d'.addr)
    (hanswers : d.request.Answers d.addr (requestsAt d.addr before) (Client.split d.reply sharp)) :
    d.Right m before := by
  refine ⟨hplaced, ?_⟩
  unfold Current
  cases hd : d.request with
  | write key value =>
    rw [hd] at hanswers
    exact hanswers
  | read key =>
    rw [hd] at hanswers hplaced
    have hlatest : Request.latestWrite (requestsAt d.addr before) key =
        Request.latestWrite (before.map request) key :=
      latestWrite_requestsAt fun d' hd' hkey => (hkey ▸ hbefore d' hd').unique hplaced
    dsimp only [Request.Answers] at hanswers ⊢
    rw [← hlatest]
    constructor
    · intro hheld
      rwa [if_pos hheld] at hanswers
    · intro hheld
      rwa [if_neg hheld] at hanswers

end Answered

/-- One more deed. -/
lemma Answered.right_concat {m : Master} {l : List Answered} {d₀ : Answered}
    (h : ∀ before d after, l = before ++ d :: after → d.Right m before) (hd : d₀.Right m l) :
    ∀ before d after, l ++ [d₀] = before ++ d :: after → d.Right m before := by
  intro before d after heq
  induction after using List.reverseRecOn with
  | nil =>
    obtain ⟨rfl, hlast⟩ := List.append_inj' heq rfl
    rw [List.cons.injEq] at hlast
    exact hlast.1 ▸ hd
  | append_singleton after last _ =>
    rw [← List.cons_append, ← List.append_assoc] at heq
    exact h before d after (List.append_inj' heq rfl).1

namespace Fleet

variable {m : Master} {f f' : Fleet} {i : ℕ} {e : Event} {l : List Answered} {addr : Str} {c : Cache}

/-- The stores of the servers are what the requests to them have made of them. -/
def Stored (f : Fleet) (l : List Answered) : Prop :=
  ∀ addr c, f.servers addr = some c → c.Served addr (Answered.requestsAt addr l)

/-- A cache server handles one more request, at the address that the master gives. -/
lemma Stored.serve (h : f.Stored l) (hplaced : ∀ d ∈ l, m.Places d.request.key d.addr) {request : Request}
    (hplaces : m.Places request.key addr) (hc : f.servers addr = some c) {r : Cache × Str}
    (hr : c.clientChat request.text = some r)
    (hservers : f'.servers = Function.update f.servers addr (some r.1)) :
    f'.Stored (l ++ [⟨addr, i, request, r.2⟩]) ∧ Answered.Right m l ⟨addr, i, request, r.2⟩ := by
  obtain ⟨c', reply, hchat, hserved, hanswers⟩ := (h addr c hc).answered hplaces.isField request
  rw [hchat, Option.some.injEq] at hr
  subst hr
  refine ⟨fun addr' c₀ hc₀ => ?_, Answered.right_of_answers hplaces hplaced hanswers⟩
  rw [Answered.requestsAt_concat]
  rw [hservers] at hc₀
  dsimp only
  by_cases haddr : addr' = addr
  · subst haddr
    rw [Function.update_self, Option.some.injEq] at hc₀
    rw [if_pos rfl, ← hc₀]
    exact hserved
  · rw [Function.update_of_ne haddr] at hc₀
    rw [if_neg (Ne.symm haddr)]
    exact h addr' c₀ hc₀

/-- Servers that have served nobody. -/
lemma stored_deployed (h : Deployed f.servers) : f.Stored [] := by
  intro addr c hc
  obtain ⟨cacheSizeLocal, status, portForCache, ip, portForClient, rfl, rfl⟩ := h addr c hc
  exact Cache.served_new cacheSizeLocal status ip portForClient portForCache

/-- The log in the words of its requests, and the stores of the servers after them. -/
structure Recorded (m : Master) (f : Fleet) (l : List Answered) : Prop where
  log : f.log = l.map Answered.entry
  right : ∀ before d after, l = before ++ d :: after → d.Right m before
  served : f.Stored l

/-- Nothing that the clients hold and nothing in flight is wrong, and neither is the log. -/
structure Consistent (m : Master) (f : Fleet) : Prop extends f.Held m.Places where
  recorded : ∃ l, f.Recorded m l

lemma Recorded.placed (h : f.Recorded m l) : ∀ d ∈ l, m.Places d.request.key d.addr := by
  intro d hd
  obtain ⟨before, after, rfl⟩ := List.append_of_mem hd
  exact (h.right before d after rfl).placed

lemma consistent_init (h : Init f) : f.Consistent m := by
  refine ⟨held_init m.Places h, [], h.log, fun before d after hd => ?_, stored_deployed h.servers⟩
  exact absurd hd.symm (by simp)

lemma Consistent.lose (h : f.Consistent m) (n : ℕ) :
    ({ f with mail := f.mail.eraseIdx n } : Fleet).Consistent m := by
  obtain ⟨l, hlog, hright, hserved⟩ := h.recorded
  exact ⟨h.toHeld.lose n, l, hlog, hright, hserved⟩

/-- **Every step** keeps the clients, the mail and the log right. -/
lemma Consistent.step (h : f.Consistent m) (hs : f.step m e = some f') : f'.Consistent m := by
  refine ⟨h.toHeld.step (fun _ _ hplaces => hplaces) (fun _ _ hplaces => hplaces.isField) hs, ?_⟩
  obtain ⟨l, hrec⟩ := h.recorded
  cases serves_of_step hs with
  | nothing hservers hlog =>
    exact ⟨l, hlog ▸ hrec.log, hrec.right, fun addr c hc => hrec.served addr c (hservers ▸ hc)⟩
  | @request i addr message c r hmail hc hr hservers hlog =>
    obtain ⟨request, rfl, hplaces⟩ := h.mail _ hmail
    obtain ⟨hserved, hright⟩ := hrec.served.serve hrec.placed hplaces hc hr hservers
    refine ⟨l ++ [⟨addr, i, request, r.2⟩], ?_, Answered.right_concat hrec.right hright, hserved⟩
    rw [hlog, hrec.log, List.map_append]
    rfl

lemma consistent_of_reach (h : Reach Init (step m) (fun _ _ => True) f) : f.Consistent m :=
  h.invariant (fun _ => consistent_init) fun _ _ _ _ hi _ hs => hi.step hs

/-- **Reads are current.**  From new clients and servers that have served nobody, with a master whose tables
stay as they are: in every interleaving of the clients with their timers, of the master and of the servers,
with messages late, lost and sent again, every request that is handled is handled at the address that the
master gives for its key; a read is answered with the latest write of its key that any server has handled, or
fails when the server does not hold the key; and every reply in flight is one that was given to its client. -/
theorem reads_latest (h : Reach Init (step m) (fun _ _ => True) f) : ∃ l : List Answered,
    f.log = l.map Answered.entry ∧
    (∀ before d after, l = before ++ d :: after →
      m.handleClientMessage d.request.key = some d.addr ∧ d.Current before) ∧
    ∀ i message, Packet.reply i message ∈ f.mail → ∃ d ∈ l, d.client = i ∧ d.reply = message := by
  have hi := consistent_of_reach h
  obtain ⟨l, hrec⟩ := hi.recorded
  refine ⟨l, hrec.log, fun before d after heq => ?_, fun i message hmem => ?_⟩
  · obtain ⟨hplaced, hcurrent⟩ := hrec.right before d after heq
    exact ⟨hplaced, hcurrent⟩
  · obtain ⟨e, he, hclient, hreply⟩ := hi.mail _ hmem
    rw [hrec.log] at he
    obtain ⟨d, hd, rfl⟩ := List.mem_map.mp he
    exact ⟨d, hd, hclient, hreply⟩

/-- A word of a test. -/
def word (s : String) (h : lit s ≠ [] ∧ sharp ∉ lit s) : Word := ⟨lit s, h.1, h.2⟩

/-- A client that writes, one that reads, and one cache server. -/
def twoClients : Fleet where
  clients i := .new (if i = 0 then 'w'.toUInt8 else 'r'.toUInt8) 2
  lost _ := []
  servers addr := if addr = lit "127.0.0.1:8001" then
      some (.new 10 (lit "P") (lit "127.0.0.1") (lit "8001") (lit "9001"))
    else none
  mail := []
  log := []

lemma init_twoClients : Init twoClients := by
  refine ⟨fun i => ⟨_, _, rfl⟩, fun i => rfl, fun addr c hc => ?_, rfl, rfl⟩
  simp only [twoClients] at hc
  split_ifs at hc with haddr
  cases hc
  exact ⟨10, lit "P", lit "9001", word "127.0.0.1" (by decide), word "8001" (by decide), rfl, haddr⟩

/-- A key is written, and the other client reads it. -/
def writeThenRead : List Event :=
  [.child 0 (word "a" (by decide)) (word "1" (by decide)), .deliver 0 (word "1" (by decide)),
    .deliver 0 (word "1" (by decide)), .deliver 0 (word "1" (by decide)), .deliver 0 (word "1" (by decide)),
    .child 1 (word "a" (by decide)) (word "1" (by decide)), .deliver 0 (word "1" (by decide)),
    .deliver 0 (word "1" (by decide)), .deliver 0 (word "1" (by decide))]

theorem reads_latest_twoClients : ∃ w f, ∃ l : List Answered,
    path World.step (fun _ _ => True) (World.start 1638316800) World.onePrimary = some w ∧
    path (step w.master) (fun _ _ => True) twoClients writeThenRead = some f ∧
    f.log.map Handled.reply =
      [lit "SUCCESS#a#127.0.0.1:8001", lit "SUCCESS#a#127.0.0.1:8001#1"] ∧
    f.log = l.map Answered.entry ∧
    (∀ before d after, l = before ++ d :: after →
      w.master.handleClientMessage d.request.key = some d.addr ∧ d.Current before) ∧
    ∀ i message, Packet.reply i message ∈ f.mail → ∃ d ∈ l, d.client = i ∧ d.reply = message := by
  have hrun : ((path World.step (fun _ _ => True) (World.start 1638316800) World.onePrimary).bind fun w =>
      (path (step w.master) (fun _ _ => True) twoClients writeThenRead).map fun f =>
        f.log.map Handled.reply) =
      some [lit "SUCCESS#a#127.0.0.1:8001", lit "SUCCESS#a#127.0.0.1:8001#1"] := by
    decide +kernel
  obtain ⟨w, hw, hf⟩ := Option.bind_eq_some_iff.mp hrun
  obtain ⟨f, hf, hlog⟩ := Option.map_eq_some_iff.mp hf
  obtain ⟨l, hl⟩ := reads_latest (reach_of_path init_twoClients hf)
  exact ⟨w, f, l, hw, hf, hlog, hl⟩

end Fleet

end DistCache
