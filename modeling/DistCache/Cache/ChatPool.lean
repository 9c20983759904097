import DistCache.Cache.ThreadPool
import DistCache.Cache.CacheList
import DistCache.Cache.Migration
import DistCache.Client.Requests

/-!
`Client_chat` with the pool that runs its tasks.

The loop of the thread hands every request to the pool and waits in `future.get()`.  The task takes its
message out of `recv_buff_client` when it runs, writes the reply to the shared `buffer`, and has no lock; it
gives back the index of the event that it answers.  That the replies are those of one thread rests on the
wait: `Phase` says that there is one task at most that has not been run, and that none has while the loop
reads or writes what the tasks use.

`memcpy` copies the reply without a terminator, and the buffer is cleared after an event.  So a reply ends
where its text ends, but for the first one of all, behind which the buffer has never been written.
-/

namespace DistCache

open Lib

/-- A message as the C string that a buffer holds. -/
def cString (bytes : Str) : Str := bytes.takeWhile (· ≠ 0)

/-- A buffer after `bzero`. -/
def zeros : Str := List.replicate bufSize 0

/-- `memcpy` of a text to the front of a buffer. -/
def overlay (buff text : Str) : Str := text ++ buff.drop text.length

/-- The locals of `Client_chat`, the pool and the cache. -/
structure ChatPool where
  servClientSock : ℕ
  /-- A task is the index of an event; the message is where `recv_buff_client` points to. -/
  run : PoolRun ℕ
  cache : Cache
  buffer : Str
  recvBuff : Str
  sendBuff : Str
  clientEvents : List ℕ
  i : ℕ
  /-- The numbers of the tasks.  The loop waits for the first one. -/
  futureQueue : List ℕ
  /-- Who has sent what. -/
  requests : List (ℕ × Str)
  /-- The blocks of `BUF_SIZE` bytes that have been sent, and to whom. -/
  sent : List (ℕ × Str)

namespace ChatPool

inductive Event where
  | epollWait (fds : List ℕ)
  | accept
  /-- What `recv` has read, or that it has failed; and the thread that `notify_one` wakes. -/
  | recv (received : Option Str) (woken : Option ℕ)
  | turn (thread : ℕ)
  | wake (thread : ℕ)
  /-- `future.get()` returns, and the reply is sent. -/
  | reply

/-- The message that a task takes. -/
def message (s : ChatPool) : Str := cString s.recvBuff

/-- What the task has returned, once it has been run. -/
def result (s : ChatPool) (number : ℕ) : Option ℕ :=
  (s.run.done.find? fun payload => payload.number = number).map Payload.task

/-- A turn of a thread of the pool. -/
def turn (s : ChatPool) (k : ℕ) : Option ChatPool := do
  let run ← s.run.turn k
  match s.run.pool.threads[k]? with
  | some (.taken _) =>
    let (cache, buffer) ← s.cache.lruHandleTask s.message
    return { s with run := run, cache := cache, buffer := buffer }
  | _ => return { s with run := run }

/-- `recv` from the client `fd`: it has gone, or its request goes to the pool.  A failed `recv` leaves the
buffer empty, and that is a request, too. -/
def recv (s : ChatPool) (fd : ℕ) (received : Option Str) (woken : Option ℕ) : Option ChatPool :=
  if received = some [] then some { s with recvBuff := [], sendBuff := zeros, i := s.i + 1 }
  else if s.run.pool.isPoolStoped = false ∧ (received.getD []).length ≤ bufSize - 1 then
    (s.run.step (.enqueue s.i woken)).map fun run => { s with
      run := run
      recvBuff := received.getD []
      futureQueue := s.futureQueue ++ [s.run.accepted.length]
      requests := s.requests ++ [(fd, cString (received.getD []))] }
  else none

/-- The reply to the event that the task `number` has returned. -/
def reply (s : ChatPool) (number : ℕ) (rest : List ℕ) : Option ChatPool := do
  let targetPort ← s.result number
  let fd ← s.clientEvents[targetPort]?
  if s.buffer.length ≤ bufSize then
    return { s with
      sendBuff := zeros
      sent := s.sent ++ [(fd, overlay s.sendBuff s.buffer)]
      cache := { s.cache with kvUpdateFlag := true, kvToReplica := s.message }
      futureQueue := rest
      i := s.i + 1 }
  else none

/-- A step of the loop or of a thread of the pool.  The loop does nothing else while it waits. -/
def step (s : ChatPool) : Event → Option ChatPool
  | .turn k => s.turn k
  | .wake k => (s.run.step (.wake k)).map fun run => { s with run := run }
  | .reply =>
    match s.futureQueue with
    | [] => none
    | number :: rest => s.reply number rest
  | .epollWait fds =>
    if s.futureQueue = [] ∧ s.i = s.clientEvents.length then some { s with clientEvents := fds, i := 0 }
    else none
  | .accept =>
    if s.futureQueue = [] ∧ s.clientEvents[s.i]? = some s.servClientSock then some { s with i := s.i + 1 }
    else none
  | .recv received woken =>
    match s.futureQueue, s.clientEvents[s.i]? with
    | [], some fd => if fd = s.servClientSock then none else s.recv fd received woken
    | _, _ => none

/-- At the head of the loop: the buffer for the replies holds what the stack has there. -/
def Init (capacity_ : UInt64) (cache : Cache) (stale : Str) (s : ChatPool) : Prop :=
  ∃ servClientSock run, PoolRun.Init capacity_ run ∧
    s = ⟨servClientSock, run, cache, [], [], stale, [], 0, [], [], []⟩

/-- What is sent for the replies, when the first one is copied over `stale`. -/
def blocks : Str → List Str → List Str
  | _, [] => []
  | stale, text :: rest => overlay stale text :: blocks zeros rest

/-- What the buffer for the replies holds after the replies. -/
def left (stale : Str) (texts : List Str) : Str := if texts = [] then stale else zeros

lemma blocks_concat (stale : Str) (texts : List Str) (text : Str) :
    blocks stale (texts ++ [text]) = blocks stale texts ++ [overlay (left stale texts) text] := by
  induction texts generalizing stale with
  | nil => rfl
  | cons first rest ih =>
    rw [List.cons_append, blocks, ih, blocks, left, left, if_neg (List.cons_ne_nil _ _), ite_self]
    rfl

variable {s s' : ChatPool} {e : Event} {capacity_ : UInt64} {cache c : Cache} {stale : Str}
  {old : List (ℕ × Str)}

/-! ### One after the other -/

lemma chat_concat {texts : List Str} {message text : Str} {c₁ c₂ : Cache} {messages : List Str}
    (h : c.chat messages = some (c₁, texts)) (hm : c₁.clientChat message = some (c₂, text)) :
    c.chat (messages ++ [message]) = some (c₂, texts ++ [text]) := by
  induction messages generalizing c texts with
  | nil =>
    cases h
    simp only [List.nil_append, Cache.chat, Option.bind_eq_bind, Option.pure_def, hm, Option.bind_some]
  | cons first rest ih =>
    simp only [Cache.chat, Option.bind_eq_bind, Option.bind_eq_some_iff, Option.pure_def,
      Option.some.injEq] at h
    obtain ⟨⟨c₀, text₀⟩, hfirst, ⟨c', texts'⟩, hrest, h⟩ := h
    cases h
    rw [List.cons_append, Cache.chat, hfirst]
    simp only [Option.bind_eq_bind, Option.bind_some, ih hrest, Option.pure_def, List.cons_append]

/-- The requests `old` have been answered one after the other, which leaves the cache `c`. -/
def Served (cache : Cache) (stale : Str) (s : ChatPool) (old : List (ℕ × Str)) (c : Cache) : Prop :=
  ∃ texts g, cache.chat (old.map Prod.snd) = some (c, texts) ∧ (g = stale ∨ g = zeros) ∧
    s.sent.map Prod.fst = old.map Prod.fst ∧ s.sent.map Prod.snd = blocks g texts ∧
    s.sendBuff = left g texts

/-- The buffer for the replies is cleared. -/
lemma Served.clear (h : Served cache stale s old c) (hsent : s'.sent = s.sent)
    (hbuff : s'.sendBuff = zeros) : Served cache stale s' old c := by
  obtain ⟨texts, g, hchat, hg, hfst, hsnd, -⟩ := h
  rw [← hsent] at hfst hsnd
  by_cases htexts : texts = []
  · subst htexts
    exact ⟨[], zeros, hchat, .inr rfl, hfst, hsnd, hbuff⟩
  · exact ⟨texts, g, hchat, hg, hfst, hsnd, by rw [hbuff, left, if_neg htexts]⟩

lemma Served.same (h : Served cache stale s old c) (hsent : s'.sent = s.sent)
    (hbuff : s'.sendBuff = s.sendBuff) : Served cache stale s' old c := by
  obtain ⟨texts, g, hserved⟩ := h
  rw [← hsent, ← hbuff] at hserved
  exact ⟨texts, g, hserved⟩

/-- The reply to one more request is sent. -/
lemma Served.concat {fd : ℕ} {message text : Str} {c' : Cache} (h : Served cache stale s old c)
    (hchat : c.clientChat message = some (c', text))
    (hsent : s'.sent = s.sent ++ [(fd, overlay s.sendBuff text)]) (hbuff : s'.sendBuff = zeros) :
    Served cache stale s' (old ++ [(fd, message)]) c' := by
  obtain ⟨texts, g, hold, hg, hfst, hsnd, hleft⟩ := h
  refine ⟨texts ++ [text], g, ?_, hg, ?_, ?_, ?_⟩
  · rw [List.map_append]
    exact chat_concat hold hchat
  · rw [hsent, List.map_append, List.map_append, hfst]
    rfl
  · rw [hsent, List.map_append, hsnd, blocks_concat, hleft]
    rfl
  · rw [hbuff, left, if_neg (by simp)]

/-! ### Where the task is that the loop waits for -/

/-- No task is left to run, the one that the loop waits for has not been run, or it has. -/
inductive Phase (cache : Cache) (stale : Str) (s : ChatPool) : Prop
  | idle (hqueue : s.futureQueue = []) (hdone : s.run.done = s.run.accepted)
      (hserved : Served cache stale s s.requests s.cache)
  | pending {old : List (ℕ × Str)} {fd : ℕ} (hqueue : s.futureQueue = [old.length])
      (hdone : s.run.accepted = s.run.done ++ [⟨old.length, s.i⟩])
      (hrequests : s.requests = old ++ [(fd, s.message)]) (hfd : s.clientEvents[s.i]? = some fd)
      (hserved : Served cache stale s old s.cache)
  | ready {old : List (ℕ × Str)} {fd : ℕ} {acc : List (Payload ℕ)} {c : Cache}
      (hqueue : s.futureQueue = [old.length]) (hdone : s.run.done = s.run.accepted)
      (hlast : s.run.accepted = acc ++ [⟨old.length, s.i⟩])
      (hrequests : s.requests = old ++ [(fd, s.message)]) (hfd : s.clientEvents[s.i]? = some fd)
      (hserved : Served cache stale s old c)
      (htask : c.lruHandleTask s.message = some (s.cache, s.buffer))

/-- What holds of the loop and the pool after any steps. -/
structure Inv (capacity_ : UInt64) (cache : Cache) (stale : Str) (s : ChatPool) : Prop where
  pool : Reach (PoolRun.Init capacity_) PoolRun.step (fun _ _ => True) s.run
  running : s.run.pool.isPoolStoped = false
  count : s.run.accepted.length = s.requests.length
  phase : Phase cache stale s

lemma Init.inv (h : Init capacity_ cache stale s) : s.Inv capacity_ cache stale := by
  obtain ⟨servClientSock, run, hrun, rfl⟩ := h
  have hpool : Reach (PoolRun.Init capacity_) PoolRun.step (fun _ _ => True) run := .start hrun
  cases hrun
  exact ⟨hpool, rfl, rfl, .idle rfl rfl ⟨[], stale, rfl, .inl rfl, rfl, rfl, rfl⟩⟩

/-- With everything run no thread has a task in its hands. -/
lemma hands_of_done (h : s.run.Inv) (hdone : s.run.done = s.run.accepted) :
    s.run.inHands ++ s.run.pool.tasks = [] := by
  have hlen := h.perm_accepted.length_eq
  rw [← hdone, List.append_assoc, List.length_append] at hlen
  apply List.eq_nil_of_length_eq_zero
  omega

/-- With one task left to run there is no other in the pool. -/
lemma hands_of_pending {payload : Payload ℕ} (h : s.run.Inv)
    (hdone : s.run.accepted = s.run.done ++ [payload]) :
    s.run.inHands ++ s.run.pool.tasks = [payload] := by
  have hperm := h.perm_accepted
  rw [hdone, List.append_assoc] at hperm
  exact List.perm_singleton.mp ((List.perm_append_left_iff _).mp hperm)

lemma mem_hands {k : ℕ} {payload : Payload ℕ} (hat : s.run.pool.threads[k]? = some (.taken payload)) :
    payload ∈ s.run.inHands ++ s.run.pool.tasks :=
  List.mem_append_left _ (List.mem_filterMap.mpr ⟨_, List.mem_of_getElem? hat, rfl⟩)

/-! ### What the loop gets from the pool -/

section Result

variable {acc l : List (Payload ℕ)} {number : ℕ}

/-- The tasks that were accepted first have the first numbers. -/
lemma number_lt (h : s.run.Inv) (hacc : s.run.accepted = acc ++ l) {payload : Payload ℕ}
    (hmem : payload ∈ acc) : payload.number < acc.length := by
  have hnumbers : (acc.map Payload.number) = List.range acc.length := by
    have htake := congrArg (List.take acc.length) h.numbers
    rw [hacc, List.map_append, List.take_left' (List.length_map _), List.take_range, List.length_append,
      Nat.min_eq_left (Nat.le_add_right _ _)] at htake
    exact htake
  have hrange : payload.number ∈ acc.map Payload.number := List.mem_map_of_mem hmem
  rw [hnumbers] at hrange
  exact List.mem_range.mp hrange

lemma find?_number_eq_none (h : s.run.Inv) (hacc : s.run.accepted = acc ++ l)
    (hle : acc.length ≤ number) : (acc.find? fun payload => payload.number = number) = none := by
  apply List.find?_eq_none.mpr
  intro payload hmem
  have hlt := number_lt h hacc hmem
  simp only [decide_eq_true_eq]
  omega

/-- A task that has not been run has not returned. -/
lemma result_of_pending (h : s.run.Inv) (hdone : s.run.accepted = s.run.done ++ l)
    (hle : s.run.done.length ≤ number) : s.result number = none := by
  rw [result, find?_number_eq_none h hdone hle]
  rfl

/-- The one run last has returned the index of its event. -/
lemma result_of_last (h : s.run.Inv) {task : ℕ} (hdone : s.run.done = s.run.accepted)
    (hacc : s.run.accepted = acc ++ [⟨number, task⟩]) (hle : acc.length ≤ number) :
    s.result number = some task := by
  rw [result, hdone, hacc, List.find?_append, find?_number_eq_none h hacc hle]
  simp

end Result

/-! ### The steps -/

/-- The pool runs a task or it does not. -/
lemma turn_cases {k : ℕ} (h : s.turn k = some s') :
    ∃ run, s.run.turn k = some run ∧ run.accepted = s.run.accepted ∧
      ((run.done = s.run.done ∧ s' = { s with run := run }) ∨
        ∃ payload cache buffer, s.run.pool.threads[k]? = some (.taken payload) ∧
          run.done = s.run.done ++ [payload] ∧
          s.cache.lruHandleTask s.message = some (cache, buffer) ∧
          s' = { s with run := run, cache := cache, buffer := buffer }) := by
  simp only [turn, Option.bind_eq_bind, Option.bind_eq_some_iff, Option.pure_def] at h
  obtain ⟨run, hrun, h⟩ := h
  refine ⟨run, hrun, ?_⟩
  cases PoolRun.did_of_turn hrun with
  | ran hat =>
    rw [hat] at h
    simp only [Option.bind_eq_some_iff, Option.some.injEq] at h
    obtain ⟨⟨cache, buffer⟩, htask, rfl⟩ := h
    exact ⟨rfl, .inr ⟨_, cache, buffer, hat, rfl, htask, rfl⟩⟩
  | slept hat | returned hat | took hat | after hat =>
    rw [hat] at h
    cases h
    exact ⟨rfl, .inl ⟨rfl, rfl⟩⟩

lemma isPoolStoped_of_did {run run' : PoolRun ℕ} {e : PoolRun.Event ℕ} (hd : run.Did e run')
    (he : e ≠ .stop) : run'.pool.isPoolStoped = run.pool.isPoolStoped := by
  cases hd with
  | stop => exact absurd rfl he
  | refused | accepted | notified | slept | returned | took | ran | after | woke | notifyAll | join => rfl

/-- The pool goes on, and runs no task. -/
lemma Phase.same (h : Phase cache stale s) {run : PoolRun ℕ} (hdone : run.done = s.run.done)
    (hacc : run.accepted = s.run.accepted) : Phase cache stale { s with run := run } := by
  cases h with
  | idle hqueue hdone' hserved =>
    exact .idle hqueue (by rw [hdone, hacc]; exact hdone') (hserved.same rfl rfl)
  | pending hqueue hdone' hrequests hfd hserved =>
    exact .pending hqueue (by rw [hdone, hacc]; exact hdone') hrequests hfd (hserved.same rfl rfl)
  | ready hqueue hdone' hlast hrequests hfd hserved htask =>
    exact .ready hqueue (by rw [hdone, hacc]; exact hdone') (by rw [hacc]; exact hlast) hrequests hfd
      (hserved.same rfl rfl) htask

/-- The task that a thread has in its hands is the one that the loop waits for. -/
lemma Inv.turn {k : ℕ} (hi : s.Inv capacity_ cache stale) (h : s.turn k = some s') :
    s'.Inv capacity_ cache stale := by
  obtain ⟨run, hrun, hacc, hcases⟩ := turn_cases h
  have hpool : Reach (PoolRun.Init capacity_) PoolRun.step (fun _ _ => True) run :=
    hi.pool.next trivial (e := .turn k) hrun
  have hstop := (isPoolStoped_of_did (PoolRun.did_of_turn hrun) nofun).trans hi.running
  have hcount : run.accepted.length = s.requests.length := by rw [hacc, hi.count]
  rcases hcases with ⟨hdone, rfl⟩ | ⟨payload, cache', buffer, hat, hdone, htask, rfl⟩
  · exact ⟨hpool, hstop, hcount, hi.phase.same hdone hacc⟩
  · refine ⟨hpool, hstop, hcount, ?_⟩
    have hhands := mem_hands hat
    have hinv := PoolRun.inv_of_reach hi.pool
    cases hi.phase with
    | idle hqueue hdone' hserved =>
      rw [hands_of_done hinv hdone'] at hhands
      exact absurd hhands List.not_mem_nil
    | pending hqueue hdone' hrequests hfd hserved =>
      rw [hands_of_pending hinv hdone', List.mem_singleton] at hhands
      subst hhands
      refine .ready hqueue ?_ (by rw [hacc]; exact hdone') hrequests hfd (hserved.same rfl rfl) htask
      rw [hdone, hacc, hdone']
    | ready hqueue hdone' =>
      rw [hands_of_done hinv hdone'] at hhands
      exact absurd hhands List.not_mem_nil

lemma Inv.wake {k : ℕ} (hi : s.Inv capacity_ cache stale) {run : PoolRun ℕ}
    (hrun : s.run.step (.wake k) = some run) : Inv capacity_ cache stale { s with run := run } := by
  have hd := PoolRun.did_of_step hrun
  have hstop := (isPoolStoped_of_did hd nofun).trans hi.running
  cases hd with
  | woke => exact ⟨hi.pool.next trivial hrun, hstop, hi.count, hi.phase.same rfl rfl⟩

lemma enqueue_cases {run run' : PoolRun ℕ} {task : ℕ} {woken : Option ℕ}
    (hd : run.Did (.enqueue task woken) run') (hstop : run.pool.isPoolStoped = false) :
    run'.done = run.done ∧ run'.accepted = run.accepted ++ [⟨run.accepted.length, task⟩] := by
  cases hd with
  | refused hstop' =>
    rw [hstop] at hstop'
    cases hstop'
  | accepted | notified => exact ⟨rfl, rfl⟩

lemma Phase.idle_of_queue (h : Phase cache stale s) (hqueue : s.futureQueue = []) :
    s.run.done = s.run.accepted ∧ Served cache stale s s.requests s.cache := by
  cases h with
  | idle _ hdone hserved => exact ⟨hdone, hserved⟩
  | pending hqueue' => exact absurd (hqueue'.symm.trans hqueue) (List.cons_ne_nil _ _)
  | ready hqueue' => exact absurd (hqueue'.symm.trans hqueue) (List.cons_ne_nil _ _)

/-- A request goes to the pool when nothing else is there. -/
lemma Inv.recv {fd : ℕ} {received : Option Str} {woken : Option ℕ} (hi : s.Inv capacity_ cache stale)
    (hqueue : s.futureQueue = []) (hfd : s.clientEvents[s.i]? = some fd)
    (h : s.recv fd received woken = some s') : s'.Inv capacity_ cache stale := by
  obtain ⟨hdone, hserved⟩ := hi.phase.idle_of_queue hqueue
  unfold ChatPool.recv at h
  split_ifs at h with hgone hfits
  · cases h
    exact ⟨hi.pool, hi.running, hi.count, .idle hqueue hdone (hserved.clear rfl rfl)⟩
  · obtain ⟨run, hrun, rfl⟩ := Option.map_eq_some_iff.mp h
    have hd := PoolRun.did_of_step hrun
    obtain ⟨hdone', hacc⟩ := enqueue_cases hd hfits.1
    refine ⟨hi.pool.next trivial hrun, (isPoolStoped_of_did hd nofun).trans hi.running, ?_, ?_⟩
    · show run.accepted.length = (s.requests ++ [_]).length
      rw [hacc, List.length_append, List.length_append, hi.count]
      rfl
    · refine @Phase.pending cache stale _ s.requests fd ?_ ?_ rfl hfd (hserved.same rfl rfl)
      · show s.futureQueue ++ [s.run.accepted.length] = [s.requests.length]
        rw [hqueue, hi.count, List.nil_append]
      · rw [hacc, hdone', hdone, hi.count]

/-- The reply goes to the one whose request the loop has waited for. -/
lemma Inv.reply {number : ℕ} {rest : List ℕ} (hi : s.Inv capacity_ cache stale)
    (hqueue : s.futureQueue = number :: rest) (h : s.reply number rest = some s') :
    s'.Inv capacity_ cache stale := by
  simp only [ChatPool.reply, Option.bind_eq_bind, Option.bind_eq_some_iff, Option.pure_def] at h
  obtain ⟨targetPort, hresult, fd, hfd, h⟩ := h
  split_ifs at h
  cases h
  have hinv := PoolRun.inv_of_reach hi.pool
  have hcount := hi.count
  cases hi.phase with
  | idle hqueue' => exact absurd (hqueue.symm.trans hqueue') (List.cons_ne_nil _ _)
  | @pending old _ hqueue' hdone hrequests =>
    cases hqueue.symm.trans hqueue'
    rw [hdone, hrequests, List.length_append, List.length_append] at hcount
    rw [result_of_pending hinv hdone (by simpa using hcount.le)] at hresult
    cases hresult
  | @ready old fd' acc c hqueue' hdone hlast hrequests hfd' hserved htask =>
    cases hqueue.symm.trans hqueue'
    rw [hlast, hrequests, List.length_append, List.length_append] at hcount
    rw [result_of_last hinv hdone hlast (by simpa using hcount.le), Option.some.injEq] at hresult
    subst hresult
    cases hfd'.symm.trans hfd
    refine ⟨hi.pool, hi.running, hi.count, .idle rfl hdone ?_⟩
    have hchat : c.clientChat s.message = some ({ s.cache with
        kvUpdateFlag := true
        kvToReplica := s.message }, s.buffer) := by
      rw [Cache.clientChat, htask]
      rfl
    rw [hrequests]
    exact hserved.concat hchat rfl rfl

lemma Inv.step (hi : s.Inv capacity_ cache stale) (h : s.step e = some s') :
    s'.Inv capacity_ cache stale := by
  cases e with
  | turn k => exact hi.turn h
  | wake k =>
    obtain ⟨run, hrun, rfl⟩ := Option.map_eq_some_iff.mp h
    exact hi.wake hrun
  | reply =>
    simp only [ChatPool.step] at h
    split at h
    next => cases h
    next hqueue => exact hi.reply hqueue h
  | epollWait fds =>
    simp only [ChatPool.step] at h
    split_ifs at h with hidle
    cases h
    obtain ⟨hdone, hserved⟩ := hi.phase.idle_of_queue hidle.1
    exact ⟨hi.pool, hi.running, hi.count, .idle hidle.1 hdone (hserved.same rfl rfl)⟩
  | accept =>
    simp only [ChatPool.step] at h
    split_ifs at h with hidle
    cases h
    obtain ⟨hdone, hserved⟩ := hi.phase.idle_of_queue hidle.1
    exact ⟨hi.pool, hi.running, hi.count, .idle hidle.1 hdone (hserved.same rfl rfl)⟩
  | recv received woken =>
    simp only [ChatPool.step] at h
    split at h
    next hqueue hfd =>
      split_ifs at h
      exact hi.recv hqueue hfd h
    next => cases h

lemma inv_of_reach (h : Reach (Init capacity_ cache stale) step (fun _ _ => True) s) :
    s.Inv capacity_ cache stale :=
  h.invariant (fun _ h₀ => h₀.inv) fun _ _ _ _ hi _ hs => hi.step hs

/-! ### The pool gets there -/

lemma turn_eq_none {k : ℕ} (h : s.turn k = none) : s.run.turn k = none := by
  cases hrun : s.run.turn k with
  | none => rfl
  | some run =>
    exfalso
    rw [turn, hrun] at h
    obtain ⟨buffer, htask⟩ := s.cache.lruHandleTask_eq s.message
    rw [htask] at h
    simp only [Option.bind_eq_bind, Option.bind_some, Option.pure_def] at h
    split at h <;> cases h

/-- The threads turn as those of the pool do. -/
lemma run_of_turns {turns : List ℕ} (h : turns.foldlM turn s = some s') :
    turns.foldlM PoolRun.turn s.run = some s'.run := by
  induction turns generalizing s with
  | nil =>
    cases h
    rfl
  | cons k turns ih =>
    rw [List.foldlM_cons] at h
    obtain ⟨s₁, hturn, hrest⟩ := Option.bind_eq_some_iff.mp h
    obtain ⟨run, hrun, -, hcases⟩ := turn_cases hturn
    have hrun₁ : s₁.run = run := by
      rcases hcases with ⟨-, rfl⟩ | ⟨_, _, _, -, -, -, rfl⟩ <;> rfl
    rw [List.foldlM_cons, hrun, ← hrun₁]
    exact ih hrest

/-- When no thread of the pool has anything to do, `future.get()` returns. -/
lemma Inv.result_isSome {number : ℕ} (hi : s.Inv capacity_ cache stale) (hcap : 1 ≤ capacity_.toUInt32)
    (hqueue : s.futureQueue = [number]) (hrest : ∀ k, s.turn k = none) :
    (s.result number).isSome = true := by
  have hinv := PoolRun.inv_of_reach hi.pool
  have hcount := hi.count
  cases hi.phase with
  | idle hqueue' => exact absurd (hqueue.symm.trans hqueue') (List.cons_ne_nil _ _)
  | @pending old _ hqueue' hdone hrequests =>
    have hcap' : 1 ≤ s.run.pool.capacity := by rwa [PoolRun.capacity_of_reach hi.pool]
    have hmem : (⟨old.length, s.i⟩ : Payload ℕ) ∈ s.run.accepted := by
      rw [hdone]
      exact List.mem_concat_self
    have hruns := hinv.runs_of_rest hcap' (fun k => turn_eq_none (hrest k)) hmem
    obtain ⟨payload, hpayload, hnumber⟩ := List.countP_pos_iff.mp (Nat.lt_of_lt_of_eq Nat.one_pos hruns.symm)
    have hlt := number_lt hinv hdone hpayload
    rw [beq_iff_eq] at hnumber
    rw [hdone, hrequests, List.length_append, List.length_append] at hcount
    simp only [List.length_singleton] at hcount
    have hlast : payload.number = old.length := hnumber
    omega
  | @ready old _ acc c hqueue' hdone hlast hrequests =>
    cases hqueue.symm.trans hqueue'
    rw [hlast, hrequests, List.length_append, List.length_append] at hcount
    rw [result_of_last hinv hdone hlast (by simpa using hcount.le)]
    rfl

/-! ### Every run -/

/-- The requests that have been answered are all, or all but the last one. -/
lemma Phase.served (h : Phase cache stale s) : ∃ old c, Served cache stale s old c ∧
    old <+: s.requests ∧ s.requests.length ≤ old.length + 1 ∧
    (s.futureQueue = [] → s.requests = old ∧ s.cache = c) := by
  cases h with
  | idle _ _ hserved => exact ⟨_, _, hserved, List.prefix_rfl, Nat.le_succ _, fun _ => ⟨rfl, rfl⟩⟩
  | pending hqueue _ hrequests _ hserved =>
    refine ⟨_, _, hserved, ⟨_, hrequests.symm⟩, ?_, fun hnil => ?_⟩
    · rw [hrequests, List.length_append, List.length_singleton]
    · exact absurd (hqueue.symm.trans hnil) (List.cons_ne_nil _ _)
  | ready hqueue _ _ hrequests _ hserved =>
    refine ⟨_, _, hserved, ⟨_, hrequests.symm⟩, ?_, fun hnil => ?_⟩
    · rw [hrequests, List.length_append, List.length_singleton]
    · exact absurd (hqueue.symm.trans hnil) (List.cons_ne_nil _ _)

/-- **The pool of a cache server**, after any steps of its threads and of the loop of `Client_chat`.

* The requests that have been answered are all, or all but the last one; they have been answered in order,
  each to the client that had sent it, and the texts and the cache are those of one thread that answers one
  after the other.
* What is sent is the text and the rest of a cleared buffer, but for the first reply, which may be followed
  by what the stack held.
* A thread has a task in its hands only while the loop waits, and then no other thread has one.
* The loop does not wait for ever: the threads can make only so many turns, and when they have made them
  `future.get()` returns. -/
theorem serves_in_order (hcap : 1 ≤ capacity_.toUInt32)
    (h : Reach (Init capacity_ cache stale) step (fun _ _ => True) s) :
    (∃ old c texts g, s.requests.take s.sent.length = old ∧ s.requests.length ≤ s.sent.length + 1 ∧
      cache.chat (old.map Prod.snd) = some (c, texts) ∧ s.sent.map Prod.fst = old.map Prod.fst ∧
      s.sent.map Prod.snd = blocks g texts ∧ (g = stale ∨ g = zeros) ∧
      (s.futureQueue = [] → s.requests = old ∧ s.cache = c)) ∧
    s.run.inHands.length ≤ 1 ∧ (s.futureQueue = [] → s.run.inHands = []) ∧
    (∀ number ∈ s.futureQueue, (∀ k, s.turn k = none) → (s.result number).isSome = true) ∧
    ∃ n, ∀ (turns : List ℕ) s', turns.foldlM turn s = some s' → turns.length ≤ n := by
  have hi := inv_of_reach h
  have hinv := PoolRun.inv_of_reach hi.pool
  refine ⟨?_, ?_, fun hqueue => ?_, fun number hmem hrest => ?_, s.run.work, fun turns s' hturns => ?_⟩
  · obtain ⟨old, c, hserved, hprefix, hle, hidle⟩ := hi.phase.served
    obtain ⟨texts, g, hchat, hg, hfst, hsnd, -⟩ := hserved
    have hlen : s.sent.length = old.length := by
      have hlen := congrArg List.length hfst
      rwa [List.length_map, List.length_map] at hlen
    rw [hlen]
    exact ⟨old, c, texts, g, (List.prefix_iff_eq_take.mp hprefix).symm, hle, hchat, hfst, hsnd, hg, hidle⟩
  · have hlen : (s.run.inHands ++ s.run.pool.tasks).length ≤ 1 := by
      cases hi.phase with
      | idle _ hdone => simp [hands_of_done hinv hdone]
      | pending _ hdone => simp [hands_of_pending hinv hdone]
      | ready _ hdone => simp [hands_of_done hinv hdone]
    rw [List.length_append] at hlen
    omega
  · have hnil := hands_of_done hinv (hi.phase.idle_of_queue hqueue).1
    exact (List.append_eq_nil_iff.mp hnil).1
  · have hqueue : s.futureQueue = [number] := by
      cases hi.phase with
      | idle hqueue =>
        rw [hqueue] at hmem
        exact absurd hmem List.not_mem_nil
      | pending hqueue | ready hqueue =>
        rw [hqueue, List.mem_singleton] at hmem
        rw [hqueue, hmem]
    exact hi.result_isSome hcap hqueue hrest
  · have hle := PoolRun.length_le_work (run_of_turns hturns)
    omega

/-- A new cache server with a pool of two threads, and a stack that is not clear. -/
def twoThreads : ChatPool :=
  ⟨4, ⟨.new 2, .idle, [], [], []⟩, .new 10 (lit "P") (lit "127.0.0.1") (lit "8001") (lit "9001"), [], [],
    List.replicate bufSize 97, [], 0, [], [], []⟩

lemma init_twoThreads :
    Init 2 (.new 10 (lit "P") (lit "127.0.0.1") (lit "8001") (lit "9001")) (List.replicate bufSize 97)
      twoThreads :=
  ⟨4, _, rfl, rfl⟩

/-- A client connects; it writes and reads, and the second thread has run both tasks. -/
theorem serves_in_order_twoThreads : ∃ s : ChatPool,
    path step (fun _ _ => True) twoThreads
      [.turn 0, .turn 1, .epollWait [4], .accept, .epollWait [5, 5], .recv (some (lit "a#1")) (some 1),
        .turn 1, .turn 1, .reply, .turn 1, .recv (some (lit "a")) (some 0), .turn 1, .turn 1, .reply] =
      some s ∧
    s.sent.map Prod.fst = [5, 5] ∧ s.run.inHands = [] := by
  have hrun : (path step (fun _ _ => True) twoThreads
      [.turn 0, .turn 1, .epollWait [4], .accept, .epollWait [5, 5], .recv (some (lit "a#1")) (some 1),
        .turn 1, .turn 1, .reply, .turn 1, .recv (some (lit "a")) (some 0), .turn 1, .turn 1, .reply]).map
      (fun s => decide (s.futureQueue = [] ∧ s.requests.map Prod.fst = [5, 5] ∧ s.sent.length = 2)) =
      some true := by
    decide +kernel
  obtain ⟨s, hs, hf⟩ := Option.map_eq_some_iff.mp hrun
  rw [decide_eq_true_eq] at hf
  obtain ⟨hqueue, hrequests, hlen⟩ := hf
  have hcap : (1 : UInt32) ≤ (2 : UInt64).toUInt32 := by decide
  obtain ⟨⟨old, c, texts, g, htake, -, -, hfst, -, -, hidle⟩, -, hhands, -⟩ :=
    serves_in_order hcap (reach_of_path init_twoThreads hs)
  refine ⟨s, hs, ?_, hhands hqueue⟩
  rw [hfst, ← (hidle hqueue).1, hrequests]

end ChatPool

end DistCache
