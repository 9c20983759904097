import DistCache.Cache.State

/-!
The clients of one cache server: the requests that they build, the replies, and the fields that they
read from a reply.

A reply is put together with the separator, and `split` takes it apart by `getline`, which gives no field
for an empty text at the end.  No field is empty here, so nothing is lost.  What is answered is what a
least recently used map of ten keys and the history of the writes say (`requests_answered`).
-/

namespace DistCache

/-- A text that a request is made of. -/
abbrev Word := { f : Str // IsField f }

/-! ### The client -/

namespace Client

/-- `getline`: the text up to the delimiter, and what comes after it.  At the end of the stream there is
nothing to read. -/
def getline (flag : UInt8) (s : Str) : Option (Str × Str) :=
  if s = [] then none else some (s.takeWhile (· ≠ flag), (s.dropWhile (· ≠ flag)).drop 1)

/-- The texts that `n` turns of the loop of `split` push. -/
def splitFrom (flag : UInt8) : ℕ → Str → List Str
  | 0, _ => []
  | n + 1, s =>
    match getline flag s with
    | none => []
    | some (temp, rest) => temp :: splitFrom flag n rest

/-- `split` of `tools.cpp`. -/
def split (s : Str) (flag : UInt8) : List Str := splitFrom flag s.length s

/-- The text that `send_request_to_cache_server` sends: a read has no value. -/
def sendRequestToCacheServer (key value : Str) : Str :=
  if value ≠ [] then key ++ lit "#" ++ value else key

section Split

variable {flag : UInt8} {f s : Str}

lemma getline_append (hf : flag ∉ f) (s : Str) : getline flag (f ++ flag :: s) = some (f, s) := by
  have hall : ∀ c ∈ f, decide (c ≠ flag) = true := fun c hc => by
    simpa using ne_of_mem_of_not_mem hc hf
  rw [getline, if_neg (by simp), List.takeWhile_append_of_pos hall, List.dropWhile_append_of_pos hall,
    List.takeWhile_cons_of_neg (by simp), List.dropWhile_cons_of_neg (by simp), List.append_nil]
  rfl

lemma getline_last (hne : f ≠ []) (hf : flag ∉ f) : getline flag f = some (f, []) := by
  have hall : ∀ c ∈ f, decide (c ≠ flag) = true := fun c hc => by
    simpa using ne_of_mem_of_not_mem hc hf
  rw [getline, if_neg hne, List.takeWhile_eq_self_iff.mpr hall, List.dropWhile_eq_nil_iff.mpr hall]
  rfl

lemma getline_length {rest : Str} (h : getline flag s = some (f, rest)) : rest.length < s.length := by
  unfold getline at h
  split_ifs at h with hs
  rw [Option.some.injEq, Prod.mk.injEq] at h
  have hle := (List.dropWhile_sublist (fun c => decide (c ≠ flag)) (l := s)).length_le
  have hpos := List.length_pos_iff.mpr hs
  rw [← h.2, List.length_drop]
  omega

/-- Every turn of the loop shortens the rest, so `s.length` turns are enough. -/
lemma splitFrom_eq {n m : ℕ} (hn : s.length ≤ n) (hm : s.length ≤ m) :
    splitFrom flag n s = splitFrom flag m s := by
  induction n generalizing m s with
  | zero =>
    have hs : s = [] := List.length_eq_zero_iff.mp (by omega)
    subst hs
    cases m <;> rfl
  | succ n ih =>
    cases m with
    | zero =>
      have hs : s = [] := List.length_eq_zero_iff.mp (by omega)
      subst hs
      rfl
    | succ m =>
      unfold splitFrom
      cases h : getline flag s with
      | none => rfl
      | some r =>
        have hlt := getline_length h
        dsimp only
        rw [ih (m := m) (by omega) (by omega)]

lemma split_cons (hf : flag ∉ f) (s : Str) : split (f ++ flag :: s) flag = f :: split s flag := by
  have hlen : (f ++ flag :: s).length = (f.length + s.length) + 1 := by simp; omega
  rw [split, hlen, splitFrom, getline_append hf]
  dsimp only
  rw [split, splitFrom_eq (m := s.length) (by omega) le_rfl]

lemma split_last (hne : f ≠ []) (hf : flag ∉ f) : split f flag = [f] := by
  obtain ⟨n, hn⟩ : ∃ n, f.length = n + 1 :=
    Nat.exists_eq_succ_of_ne_zero (List.length_pos_iff.mpr hne).ne'
  rw [split, hn, splitFrom, getline_last hne hf]
  cases n <;> rfl

/-- The fields of a reply come out as they were put in. -/
lemma split_three {f g h : Str} (hf : IsField f) (hg : IsField g) (hh : IsField h) :
    split (f ++ sharp :: (g ++ sharp :: h)) sharp = [f, g, h] := by
  rw [split_cons hf.sharp_free, split_cons hg.sharp_free, split_last hh.ne_nil hh.sharp_free]

lemma split_four {f g h i : Str} (hf : IsField f) (hg : IsField g) (hh : IsField h) (hi : IsField i) :
    split (f ++ sharp :: (g ++ sharp :: (h ++ sharp :: i))) sharp = [f, g, h, i] := by
  rw [split_cons hf.sharp_free, split_three hg hh hi]

end Split

end Client

/-! ### Requests, and what they should be answered -/

/-- What a client asks of a cache server. -/
inductive Request where
  | read (key : Word)
  | write (key value : Word)

namespace Request

/-- The text of a request. -/
def text : Request → Str
  | .read key => Client.sendRequestToCacheServer key []
  | .write key value => Client.sendRequestToCacheServer key value

/-- The key of a request. -/
def key : Request → Word
  | .read key => key
  | .write key _ => key

/-- A key is used: it comes first. -/
def bringFirst (key : Str) (l : List Str) : List Str := key :: l.filter (· ≠ key)

/-- The keys that a least recently used map with room for `n` holds after one more request, the most
recently used one first. -/
def hold (n : ℕ) (l : List Str) : Request → List Str
  | .read key => if key.1 ∈ l then bringFirst key l else l
  | .write key _ => (bringFirst key l).take n

/-- The keys that the map holds after the requests of `history`, the oldest request first. -/
def held (n : ℕ) (history : List Request) : List Str := history.foldl (hold n) []

/-- What a request makes of the value last written for `k`. -/
def note (k : Str) (v : Option Str) : Request → Option Str
  | .read _ => v
  | .write key value => if key.1 = k then some value else v

/-- The value of the latest write of `k`. -/
def latestWrite (history : List Request) (k : Str) : Option Str := history.foldl (note k) none

/-- The fields of the reply to a request after `history`: a write is answered with three fields, a read of
a key that is held with the value of its latest write as a fourth one. -/
def Answers (addr : Str) (history : List Request) (fields : List Str) : Request → Prop
  | .write key _ => fields = [lit "SUCCESS", key, addr]
  | .read key =>
    if key.1 ∈ held 10 history then
      ∃ v, latestWrite history key = some v ∧ fields = [lit "SUCCESS", key, addr, v]
    else fields = [lit "FAILED", key, addr]

variable {history : List Request} {k : Str}

lemma held_concat (n : ℕ) (history : List Request) (request : Request) :
    held n (history ++ [request]) = hold n (held n history) request := by
  rw [held, List.foldl_append]
  rfl

lemma latestWrite_concat (history : List Request) (request : Request) (k : Str) :
    latestWrite (history ++ [request]) k = note k (latestWrite history k) request := by
  rw [latestWrite, List.foldl_append]
  rfl

lemma length_hold_le {n : ℕ} {l : List Str} (hl : l.length ≤ n) (request : Request) :
    (hold n l request).length ≤ n := by
  cases request with
  | read key =>
    rw [hold, bringFirst]
    split_ifs with hmem
    · have hlt : (l.filter (· ≠ key.1)).length < l.length :=
        List.length_filter_lt_length_iff_exists.mpr ⟨key, hmem, by simp⟩
      rw [List.length_cons]
      omega
    · exact hl
  | write key value => exact List.length_take_le _ _

lemma length_held_le (n : ℕ) (history : List Request) : (held n history).length ≤ n := by
  induction history using List.reverseRecOn with
  | nil => exact Nat.zero_le n
  | append_singleton history request ih =>
    rw [held_concat]
    exact length_hold_le ih request

/-- What is written is a field. -/
lemma isField_latestWrite {v : Str} (h : latestWrite history k = some v) : IsField v := by
  induction history using List.reverseRecOn generalizing v with
  | nil => cases h
  | append_singleton history request ih =>
    rw [latestWrite_concat] at h
    cases request with
    | read key => exact ih h
    | write key value =>
      rw [note] at h
      split_ifs at h
      · cases h
        exact value.2
      · exact ih h

end Request

/-! ### The server -/

namespace Cache

/-- The loop of `Client_chat` over the messages that come: the replies, in order. -/
def chat (c : Cache) : List Str → Option (Cache × List Str)
  | [] => some (c, [])
  | message :: rest => do
    let (c, buffer) ← c.clientChat message
    let (c, buffers) ← c.chat rest
    return (c, buffer :: buffers)

/-- After the requests of `history`, a cache with the address `addr` holds the keys of the reference map,
in its order, and with each of them the value of its latest write. -/
structure Served (addr : Str) (history : List Request) (c : Cache) : Prop where
  address : c.address = addr
  capacity : c.mainCache.capacity = 10
  keys : c.mainCache.keys = Request.held 10 history
  values : ∀ k v, c.mainCache.lookup k = some v → Request.latestWrite history k = some v

variable {c : Cache} {addr : Str} {history : List Request}

lemma served_new (cacheSizeLocal : ℤ) (status ip portForClient portForCache : Str) :
    Served (ip ++ colon :: portForClient) []
      (new cacheSizeLocal status ip portForClient portForCache) where
  address := rfl
  capacity := rfl
  keys := rfl
  values k v h := by cases h

lemma Served.isField {k v : Str} (hc : Served addr history c) (hv : c.mainCache.lookup k = some v) :
    IsField v :=
  Request.isField_latestWrite (hc.values k v hv)

/-- A read of a key that is held is answered with its value, and moves it to the front. -/
lemma Served.read_held {key : Word} {v : Str} (hc : Served addr history c)
    (hv : c.mainCache.lookup key = some v) : ∃ c',
      c.clientChat (Request.read key).text =
        some (c', lit "SUCCESS" ++ sharp :: (key.1 ++ sharp :: (addr ++ sharp :: v))) ∧
      Served addr (history ++ [.read key]) c' := by
  have hmem : key.1 ∈ c.mainCache.keys := LruCache.mem_keys_of_lookup hv
  have hcheck : c.mainCache.check key = true := LruCache.check_iff.mpr hmem
  have hget : (c.mainCache.get key).1 = v := by rw [LruCache.get_fst, hv, Option.getD_some]
  refine ⟨{ c with
    mainCache := (c.mainCache.get key).2
    kvUpdateFlag := true
    kvToReplica := key }, ?_, hc.address, ?_, ?_, fun k w hw => ?_⟩
  · have htext : (Request.read key).text = key := rfl
    have hlit : lit "SUCCESS#" = lit "SUCCESS" ++ [sharp] := rfl
    rw [htext, clientChat, lruHandleTask, if_pos (spear_of_sharp_free key.2.sharp_free), if_pos hcheck,
      hc.address, hlit, ← hget]
    simp
  · rw [LruCache.capacity_get, hc.capacity]
  · rw [LruCache.keys_get, if_pos hmem, Request.held_concat, Request.hold, ← hc.keys, if_pos hmem]
    rfl
  · rw [LruCache.lookup_get] at hw
    rw [Request.latestWrite_concat]
    exact hc.values k w hw

/-- A read of a key that is not held fails, and changes nothing that is held. -/
lemma Served.read_missing {key : Word} (hc : Served addr history c)
    (hmem : key.1 ∉ c.mainCache.keys) : ∃ c',
      c.clientChat (Request.read key).text =
        some (c', lit "FAILED" ++ sharp :: (key.1 ++ sharp :: addr)) ∧
      Served addr (history ++ [.read key]) c' := by
  have hcheck : ¬ c.mainCache.check key = true := fun h => hmem (LruCache.check_iff.mp h)
  refine ⟨{ c with
    kvUpdateFlag := true
    kvToReplica := key }, ?_, hc.address, hc.capacity, ?_, fun k w hw => ?_⟩
  · have htext : (Request.read key).text = key := rfl
    have hlit : lit "FAILED#" = lit "FAILED" ++ [sharp] := rfl
    rw [htext, clientChat, lruHandleTask, if_pos (spear_of_sharp_free key.2.sharp_free), if_neg hcheck,
      hc.address, hlit]
    simp
  · rw [Request.held_concat, Request.hold, ← hc.keys, if_neg hmem]
  · rw [Request.latestWrite_concat]
    exact hc.values k w hw

/-- A write moves its key to the front, and the last of eleven keys goes. -/
lemma Served.write (hc : Served addr history c) (key value : Word) : ∃ c',
      c.clientChat (Request.write key value).text =
        some (c', lit "SUCCESS" ++ sharp :: (key.1 ++ sharp :: addr)) ∧
      Served addr (history ++ [.write key value]) c' := by
  have htext : (Request.write key value).text = key.1 ++ sharp :: value := by
    have hsharp : lit "#" = [sharp] := rfl
    rw [Request.text, Client.sendRequestToCacheServer, if_pos value.2.ne_nil, hsharp]
    simp
  refine ⟨{ c with
    mainCache := (c.mainCache.put key value).2
    kvUpdateFlag := true
    kvToReplica := key.1 ++ sharp :: value }, ?_, hc.address, ?_, ?_, fun k w hw => ?_⟩
  · have hlit : lit "SUCCESS#" = lit "SUCCESS" ++ [sharp] := rfl
    have hne : spear (key.1 ++ sharp :: value.1) ≠ (key.1 ++ sharp :: value.1).length := by
      rw [spear_append key.2.sharp_free]
      simp
    have hval := substr_right key.1 value.1 sharp (n := (key.1 ++ sharp :: value.1).length) (by simp; omega)
    rw [htext, clientChat, lruHandleTask, if_neg hne, spear_append key.2.sharp_free, substr_left, hval,
      hc.address, hlit]
    simp
  · rw [LruCache.capacity_put, hc.capacity]
  · have hlen : c.mainCache.keys.length ≤ 10 := by
      rw [hc.keys]
      exact Request.length_held_le 10 history
    rw [LruCache.keys_put hc.capacity hlen, Request.held_concat, hc.keys]
    rfl
  · rw [Request.latestWrite_concat, Request.note]
    rcases LruCache.lookup_put hw with ⟨rfl, rfl⟩ | ⟨hne, hold⟩
    · rw [if_pos rfl]
    · rw [if_neg (Ne.symm hne)]
      exact hc.values k w hold

/-- **One request.**  The fields that the client reads from the reply are those of the reference. -/
theorem Served.answered (hc : Served addr history c) (haddr : IsField addr) (request : Request) :
    ∃ c' reply, c.clientChat request.text = some (c', reply) ∧
      Served addr (history ++ [request]) c' ∧
      request.Answers addr history (Client.split reply sharp) := by
  have hsuccess : IsField (lit "SUCCESS") := ⟨by decide, by decide⟩
  have hfailed : IsField (lit "FAILED") := ⟨by decide, by decide⟩
  cases request with
  | read key =>
    simp only [Request.Answers, ← hc.keys]
    by_cases hmem : key.1 ∈ c.mainCache.keys
    · obtain ⟨v, hv⟩ := LruCache.exists_lookup hmem
      obtain ⟨c', hchat, hc'⟩ := hc.read_held hv
      refine ⟨c', _, hchat, hc', ?_⟩
      rw [if_pos hmem, Client.split_four hsuccess key.2 haddr (hc.isField hv)]
      exact ⟨v, hc.values _ v hv, rfl⟩
    · obtain ⟨c', hchat, hc'⟩ := hc.read_missing hmem
      refine ⟨c', _, hchat, hc', ?_⟩
      rw [if_neg hmem, Client.split_three hfailed key.2 haddr]
  | write key value =>
    obtain ⟨c', hchat, hc'⟩ := hc.write key value
    exact ⟨c', _, hchat, hc', Client.split_three hsuccess key.2 haddr⟩

/-- A run of requests from where those of `history` have been answered. -/
lemma Served.chat (hc : Served addr history c) (haddr : IsField addr) (requests : List Request) :
    ∃ c' replies, c.chat (requests.map Request.text) = some (c', replies) ∧
      replies.length = requests.length ∧
      ∀ (i : ℕ) request reply, requests[i]? = some request → replies[i]? = some reply →
        request.Answers addr (history ++ requests.take i) (Client.split reply sharp) := by
  induction requests generalizing c history with
  | nil => exact ⟨c, [], rfl, rfl, fun i request reply h => by simp at h⟩
  | cons request requests ih =>
    obtain ⟨c₁, reply, hchat, hc₁, hanswers⟩ := hc.answered haddr request
    obtain ⟨c₂, replies, hrest, hlen, hall⟩ := ih hc₁
    refine ⟨c₂, reply :: replies, ?_, by rw [List.length_cons, List.length_cons, hlen], ?_⟩
    · rw [List.map_cons, Cache.chat, hchat, Option.bind_eq_bind, Option.bind_some]
      dsimp only
      rw [hrest]
      rfl
    · intro i r s hr hs
      cases i with
      | zero =>
        cases hr
        cases hs
        rw [List.take_zero, List.append_nil]
        exact hanswers
      | succ i =>
        have happ : history ++ (request :: requests).take (i + 1) =
            (history ++ [request]) ++ requests.take i := by simp
        rw [happ]
        exact hall i r s hr hs

end Cache

/-- **Clients and a cache server.**  Every request that the client code builds is answered, and the fields
that it reads from the reply are the key, the address of the server, and what the reference map holds
after the requests before it. -/
theorem requests_answered (cacheSizeLocal : ℤ) (status : Str) (ip portForClient : Word)
    (portForCache : Str) (requests : List Request) : ∃ c replies,
      (Cache.new cacheSizeLocal status ip portForClient portForCache).chat
        (requests.map Request.text) = some (c, replies) ∧
      replies.length = requests.length ∧
      ∀ (i : ℕ) request reply, requests[i]? = some request → replies[i]? = some reply →
        request.Answers (ip.1 ++ colon :: portForClient) (requests.take i) (Client.split reply sharp) := by
  have haddr : IsField (ip.1 ++ colon :: portForClient.1) := by
    have hne : sharp ≠ colon := by decide
    exact ⟨by simp, by simp [ip.2.sharp_free, portForClient.2.sharp_free, hne]⟩
  exact (Cache.served_new cacheSizeLocal status ip portForClient portForCache).chat haddr requests

end DistCache
