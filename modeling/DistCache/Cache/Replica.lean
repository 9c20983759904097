import DistCache.Cache.CacheList
import DistCache.Cache.Migration

/-!
What a primary sends to its backup, and what the backup makes of it: `primary_cache` and `replica_cache`.

A message that begins with `'#'` carries the `cache_list`, any other one is a request of a client, which the
backup handles as the primary has.  So a write to the empty key is lost on the backup, and every other
request is followed.  The entries of a `cache_list` are sent with no separator between them, and what is
received is appended to what is there.  So the list arrives when it has one entry and comes to an empty
list, and is garbled or refused otherwise.

A message fits into the buffer that it is copied to.
-/

namespace DistCache

namespace Cache

/-- The message that `primary_cache` makes of `cache_list`. -/
def cacheListMessage (c : Cache) : Str :=
  sharp :: c.cacheList.flatMap fun it => it.1 ++ sharp :: it.2

/-- The entries that `replica_cache` reads in such a message, `none` after `wrong message.`  The loop is
that of `initial`, from the second character on. -/
def decodeCacheList (recvMessage : Str) : Option (List (Str × Str)) :=
  let (ip, port) := unpack (recvMessage.drop 1) [] 0 [] []
  if ip.length ≠ port.length then none else some (ip.zip port)

/-- The part of `replica_cache` under `end_mutex`: the entries are appended. -/
def updateFromPrimary (c : Cache) (recvMessage : Str) : Cache :=
  { c with cacheList := c.cacheList ++ (decodeCacheList recvMessage).getD [] }

/-- The branch of `replica_cache` for `key` and `key#value`. -/
def handleFromPrimary (c : Cache) (recvMessage : Str) : Option Cache :=
  if spear recvMessage = recvMessage.length then
    if c.mainCache.check recvMessage then
      some { c with mainCache := (c.mainCache.get recvMessage).2 }
    else some c
  else do
    let key ← substr recvMessage 0 (spear recvMessage)
    let val ← substr recvMessage (spear recvMessage + 1) recvMessage.length
    return { c with mainCache := (c.mainCache.put key val).2 }

/-- A turn of `replica_cache` on the message that it receives.  When its primary is not in the list any
more it calls `exit(0)`. -/
def replicaCache (c : Cache) (recvMessage : Str) : Option Cache :=
  if recvMessage.head? = some sharp then
    let c := c.updateFromPrimary recvMessage
    if c.cacheList.contains (c.targetIP, c.targetPort) then some c else none
  else c.handleFromPrimary recvMessage

/-! ### Requests -/

variable {c p r : Cache} {message : Str} {messages : List Str}

/-- The two routines differ in the reply only. -/
lemma handleFromPrimary_eq_map (c : Cache) (message : Str) :
    c.handleFromPrimary message = (c.lruHandleTask message).map Prod.fst := by
  unfold handleFromPrimary lruHandleTask
  split_ifs
  · rfl
  · rfl
  · cases substr message 0 (spear message) with
    | none => rfl
    | some key => cases substr message (spear message + 1) message.length <;> rfl

lemma handleFromPrimary_eq (c : Cache) (message : Str) :
    c.handleFromPrimary message = some { c with mainCache := c.mainCache.serve message } := by
  obtain ⟨buffer, heq⟩ := c.lruHandleTask_eq message
  rw [handleFromPrimary_eq_map, heq, Option.map_some]

/-- The primary after the requests. -/
def serveAll (c : Cache) (messages : List Str) : Option Cache :=
  messages.foldlM (fun c message => (c.lruHandleTask message).map Prod.fst) c

/-- The backup after the messages. -/
def replicaAll (c : Cache) (messages : List Str) : Option Cache := messages.foldlM replicaCache c

lemma serveAll_eq (c : Cache) (messages : List Str) : c.serveAll messages =
    some { c with mainCache := messages.foldl LruCache.serve c.mainCache } := by
  induction messages generalizing c with
  | nil => rfl
  | cons message messages ih =>
    obtain ⟨buffer, heq⟩ := c.lruHandleTask_eq message
    rw [serveAll, List.foldlM_cons, heq, Option.map_some, Option.bind_eq_bind, Option.bind_some]
    exact ih _

lemma replicaAll_eq (c : Cache) (hfree : ∀ message ∈ messages, message.head? ≠ some sharp) :
    c.replicaAll messages = some { c with mainCache := messages.foldl LruCache.serve c.mainCache } := by
  induction messages generalizing c with
  | nil => rfl
  | cons message messages ih =>
    rw [List.forall_mem_cons] at hfree
    rw [replicaAll, List.foldlM_cons, replicaCache, if_neg hfree.1, handleFromPrimary_eq,
      Option.bind_eq_bind, Option.bind_some]
    exact ih _ hfree.2

/-- **The backup follows the primary.**  From equal stores, after each of the requests the two stores hold
the same keys and values in the same order, as long as no request begins with `'#'`. -/
theorem replica_follows_primary (hstore : r.mainCache = p.mainCache)
    (hfree : ∀ message ∈ messages, message.head? ≠ some sharp) (i : ℕ) :
    ∃ p' r', p.serveAll (messages.take i) = some p' ∧ r.replicaAll (messages.take i) = some r' ∧
      r'.mainCache = p'.mainCache := by
  have hfree' : ∀ message ∈ messages.take i, message.head? ≠ some sharp := fun message hmem =>
    hfree message (List.mem_of_mem_take hmem)
  refine ⟨_, _, p.serveAll_eq _, r.replicaAll_eq hfree', ?_⟩
  dsimp only
  rw [hstore]

/-- A new primary, and a backup of it that has received its list. -/
def newPrimary : Cache :=
  { Cache.new 10 (lit "P") (lit "127.0.0.1") (lit "8001") (lit "9001") with
    cacheList := [(lit "127.0.0.1", lit "9001")] }

/-- A backup of `newPrimary`. -/
def newReplica : Cache :=
  { Cache.new 10 (lit "R") (lit "127.0.0.1") (lit "8002") (lit "9002") with
    cacheList := [(lit "127.0.0.1", lit "9001")]
    targetIP := lit "127.0.0.1"
    targetPort := lit "9001" }

/-- A write, a read of it, and a read of a key that is not there. -/
theorem replica_follows_primary_read : ∃ p' r',
    newPrimary.serveAll [lit "a#1", lit "a", lit "b"] = some p' ∧
    newReplica.replicaAll [lit "a#1", lit "a", lit "b"] = some r' ∧ r'.mainCache = p'.mainCache := by
  have hfree : ∀ message ∈ [lit "a#1", lit "a", lit "b"], message.head? ≠ some sharp := by decide
  exact replica_follows_primary (p := newPrimary) (r := newReplica) rfl hfree 3

/-- A write to the empty key is a `cache_list` for the backup, and a wrong one. -/
theorem replica_misses_emptyKey : newReplica.mainCache = newPrimary.mainCache ∧
    ∃ p' r', newPrimary.serveAll [lit "#v"] = some p' ∧ newReplica.replicaAll [lit "#v"] = some r' ∧
      r'.mainCache ≠ p'.mainCache := by
  have hp : (newPrimary.serveAll [lit "#v"]).map (fun c => c.mainCache.check []) = some true := by
    decide +kernel
  have hr : (newReplica.replicaAll [lit "#v"]).map (fun c => c.mainCache.check []) = some false := by
    decide +kernel
  obtain ⟨p', hp', htrue⟩ := Option.map_eq_some_iff.mp hp
  obtain ⟨r', hr', hfalse⟩ := Option.map_eq_some_iff.mp hr
  refine ⟨rfl, p', r', hp', hr', fun heq => ?_⟩
  rw [heq, htrue] at hfalse
  cases hfalse

/-! ### The list of caches -/

/-- What is read of the entries of `l` behind the text `tmp`: a port and the address behind it are taken
for one field. -/
def garbled : Str → List (Str × Str) → Option (List (Str × Str))
  | _, [] => none
  | tmp, [x] => some [(tmp ++ x.1, x.2)]
  | tmp, x :: y :: l => (garbled y.2 l).map fun d => (tmp ++ x.1, x.2 ++ y.1) :: d

/-- Both parts of every entry are fields. -/
def FieldList (l : List (Str × Str)) : Prop := ∀ x ∈ l, IsField x.1 ∧ IsField x.2

lemma FieldList.tail {x : Str × Str} {l : List (Str × Str)} (hl : FieldList (x :: l)) : FieldList l :=
  fun y hy => hl y (List.mem_cons_of_mem x hy)

/-- The text of the entries. -/
def entriesText (l : List (Str × Str)) : Str := l.flatMap fun it => it.1 ++ sharp :: it.2

lemma unpack_entry {x : Str × Str} (hx : IsField x.1) (l : List (Str × Str)) (tmp : Str) (count : ℕ)
    (ip port : List Str) : unpack (entriesText (x :: l)) tmp count ip port =
      if count % 2 = 0 then unpack (x.2 ++ entriesText l) [] (count + 1) (ip ++ [tmp ++ x.1]) port
      else unpack (x.2 ++ entriesText l) [] (count + 1) ip (port ++ [tmp ++ x.1]) := by
  have htext : entriesText (x :: l) = x.1 ++ sharp :: (x.2 ++ entriesText l) := by
    simp [entriesText]
  rw [htext, unpack_append hx.sharp_free, unpack, if_neg (by simp)]

/-- The loop on the entries, from where addresses and ports have been read in turn. -/
lemma unpack_garbled (tmp : Str) {l : List (Str × Str)} (hl : FieldList l) {count : ℕ}
    (hcount : count % 2 = 0) (ip port : List Str) (hlen : ip.length = port.length) :
    (if (unpack (entriesText l) tmp count ip port).1.length ≠
        (unpack (entriesText l) tmp count ip port).2.length then none
      else some ((unpack (entriesText l) tmp count ip port).1.zip
        (unpack (entriesText l) tmp count ip port).2)) =
      (garbled tmp l).map fun d => ip.zip port ++ d := by
  induction tmp, l using garbled.induct generalizing count ip port with
  | case1 tmp =>
    have hend : unpack (entriesText []) tmp count ip port = (ip, port ++ [tmp]) := rfl
    rw [hend, if_pos (by simp [hlen])]
    rfl
  | case2 tmp x =>
    have hx := hl x List.mem_cons_self
    have hend : unpack (entriesText [x]) tmp count ip port = (ip ++ [tmp ++ x.1], port ++ [x.2]) := by
      rw [unpack_entry hx.1, if_pos hcount, unpack_append hx.2.sharp_free]
      rfl
    rw [hend, if_neg (by simp [hlen]), List.zip_append hlen]
    rfl
  | case3 tmp x y l ih =>
    have hx := hl x List.mem_cons_self
    have hy := hl.tail y List.mem_cons_self
    have hodd : ¬ (count + 1) % 2 = 0 := by omega
    have htwo : unpack (entriesText (x :: y :: l)) tmp count ip port =
        unpack (entriesText l) y.2 (count + 2) (ip ++ [tmp ++ x.1]) (port ++ [x.2 ++ y.1]) := by
      rw [unpack_entry hx.1, if_pos hcount, unpack_append hx.2.sharp_free, unpack_entry hy.1, if_neg hodd,
        unpack_append hy.2.sharp_free]
      rfl
    have hnext := ih hl.tail.tail (show (count + 2) % 2 = 0 by omega) (ip ++ [tmp ++ x.1])
      (port ++ [x.2 ++ y.1]) (by simp [hlen])
    rw [htwo, hnext, garbled, Option.map_map]
    congr 1
    funext d
    rw [List.zip_append hlen]
    simp

/-- What the backup reads of the list that is sent. -/
lemma decode_eq_garbled (hl : FieldList c.cacheList) :
    decodeCacheList c.cacheListMessage = garbled [] c.cacheList := by
  have h := unpack_garbled [] hl (Nat.zero_mod 2) [] [] rfl
  rw [Option.map_congr (g := id) fun d _ => by simp, Option.map_id_fun] at h
  exact h

/-- Of an even number of entries nothing is read. -/
lemma garbled_eq_none_iff (tmp : Str) (l : List (Str × Str)) : garbled tmp l = none ↔ Even l.length := by
  induction tmp, l using garbled.induct with
  | case1 tmp => simp [garbled]
  | case2 tmp x => simp [garbled]
  | case3 tmp x y l ih =>
    rw [garbled, Option.map_eq_none_iff, ih, List.length_cons, List.length_cons, Nat.even_add_one,
      Nat.even_add_one, not_not]

lemma ne_nil_of_garbled {tmp : Str} {l d : List (Str × Str)} (hd : garbled tmp l = some d) :
    d ≠ [] ∧ l ≠ [] := by
  match l with
  | [] => cases hd
  | [x] =>
    cases hd
    simp
  | x :: y :: l =>
    rw [garbled, Option.map_eq_some_iff] at hd
    obtain ⟨d, -, rfl⟩ := hd
    simp

/-- Behind a text the last address is read with something in front of it. -/
lemma getLast_garbled {tmp : Str} {l d : List (Str × Str)} (hl : FieldList l) (htmp : tmp ≠ [])
    (hd : garbled tmp l = some d) : d.getLast? ≠ l.getLast? := by
  induction tmp, l using garbled.induct generalizing d with
  | case1 tmp => cases hd
  | case2 tmp x =>
    cases hd
    simp [Prod.ext_iff, htmp]
  | case3 tmp x y l ih =>
    rw [garbled, Option.map_eq_some_iff] at hd
    obtain ⟨d, hd, rfl⟩ := hd
    have hy := hl.tail y List.mem_cons_self
    obtain ⟨hne, hne'⟩ := ne_nil_of_garbled hd
    rw [List.getLast?_cons_of_ne_nil hne, List.getLast?_cons_of_ne_nil (by simp),
      List.getLast?_cons_of_ne_nil hne']
    exact ih hl.tail.tail hy.2.ne_nil hd

/-- Only a list of one entry ends with what is read of it. -/
lemma append_garbled_iff (prev : List (Str × Str)) {l d : List (Str × Str)} (hl : FieldList l)
    (hd : garbled [] l = some d) : prev ++ d = l ↔ l.length = 1 ∧ prev = [] := by
  match l with
  | [] => cases hd
  | [x] =>
    cases hd
    simp
  | x :: y :: l =>
    rw [garbled, Option.map_eq_some_iff] at hd
    obtain ⟨d, hd, rfl⟩ := hd
    have hy := hl.tail y List.mem_cons_self
    have hlast := getLast_garbled hl.tail.tail hy.2.ne_nil hd
    obtain ⟨hne, hne'⟩ := ne_nil_of_garbled hd
    refine iff_of_false (fun heq => hlast ?_) (by simp)
    have hends := congrArg List.getLast? heq
    rw [List.getLast?_append_of_ne_nil _ (by simp), List.getLast?_cons_of_ne_nil hne,
      List.getLast?_cons_of_ne_nil (by simp), List.getLast?_cons_of_ne_nil hne'] at hends
    exact hends

/-- **The list arrives** exactly when it has one entry and comes to an empty list.  In one other case the
backup has the list afterwards: nothing is read of it, and it had the list before. -/
theorem cacheList_arrives_iff (hl : FieldList p.cacheList) (r : Cache) :
    (decodeCacheList p.cacheListMessage = some p.cacheList ∧
        (r.updateFromPrimary p.cacheListMessage).cacheList = p.cacheList ↔
      p.cacheList.length = 1 ∧ r.cacheList = []) ∧
    ((r.updateFromPrimary p.cacheListMessage).cacheList = p.cacheList ↔
      (p.cacheList.length = 1 ∧ r.cacheList = []) ∨
        Even p.cacheList.length ∧ r.cacheList = p.cacheList) := by
  have hupdate : (r.updateFromPrimary p.cacheListMessage).cacheList =
      r.cacheList ++ (garbled [] p.cacheList).getD [] := by
    rw [updateFromPrimary, decode_eq_garbled hl]
  rw [hupdate, decode_eq_garbled hl, ← garbled_eq_none_iff []]
  cases hd : garbled [] p.cacheList with
  | none =>
    have hone : p.cacheList.length ≠ 1 := by
      intro hone
      have heven := (garbled_eq_none_iff [] p.cacheList).mp hd
      rw [hone] at heven
      exact absurd heven (by decide)
    simp [hone]
  | some d =>
    rw [Option.getD_some, append_garbled_iff r.cacheList hl hd, Option.some.injEq]
    refine ⟨⟨fun h => h.2, fun h => ⟨?_, h⟩⟩, by simp⟩
    have hself := (append_garbled_iff [] hl hd).mpr ⟨h.1, rfl⟩
    rwa [List.nil_append] at hself

/-- The list of one entry comes to a new backup. -/
theorem cacheList_arrives_one :
    ((Cache.new 10 (lit "R") (lit "127.0.0.1") (lit "8002") (lit "9002")).updateFromPrimary
      newPrimary.cacheListMessage).cacheList = newPrimary.cacheList := by
  have hl : FieldList newPrimary.cacheList := by
    intro x hx
    rw [List.mem_singleton.mp hx]
    exact ⟨⟨by decide, by decide⟩, by decide, by decide⟩
  exact ((cacheList_arrives_iff hl _).1.mpr ⟨rfl, rfl⟩).2

/-- The list of two primaries. -/
def twoCaches : List (Str × Str) :=
  [(lit "127.0.0.1", lit "9001"), (lit "127.0.0.1", lit "9002")]

/-- It is sent as `#127.0.0.1#9001127.0.0.1#9002`, and refused. -/
theorem cacheList_of_two_refused : FieldList twoCaches ∧
    decodeCacheList { newPrimary with cacheList := twoCaches }.cacheListMessage = none ∧
    (({ newReplica with cacheList := [] } : Cache).updateFromPrimary
      { newPrimary with cacheList := twoCaches }.cacheListMessage).cacheList ≠ twoCaches := by
  refine ⟨?_, by decide +kernel, by decide +kernel⟩
  intro x hx
  simp only [twoCaches, List.mem_cons, List.not_mem_nil, or_false] at hx
  rcases hx with rfl | rfl
  · exact ⟨⟨by decide, by decide⟩, by decide, by decide⟩
  · exact ⟨⟨by decide, by decide⟩, by decide, by decide⟩

end Cache

end DistCache
