import DistCache.Buffers
import DistCache.Client.LocalNodes
import DistCache.Client.State

/-!
The whole system while its membership does not change: clients with their local caches and their timers, a
master, the cache servers that listen at their addresses, and the messages in flight.

The messages are delivered in any order, and each of them may be lost.  A timer sends its request again, so
a request may also arrive twice.  A log tells what the cache servers have handled, in order.
-/

namespace DistCache

open Lib

/-- A message in flight, with the client that sent it or that it is for.  It is the text alone: what comes
behind it in a buffer that is sent whole, such as the stack bytes behind the first reply of a server, is
left out. -/
inductive Packet where
  /-- A key, to the master. -/
  | lookup (client : ℕ) (key : Str)
  /-- The answer of the master. -/
  | location (client : ℕ) (message : Str)
  /-- A request, to the cache server at `addr`. -/
  | request (client : ℕ) (addr message : Str)
  /-- The reply of a cache server. -/
  | reply (client : ℕ) (message : Str)

/-- What a client sends, on its way. -/
def Outgoing.packet (i : ℕ) (o : Outgoing) : Packet :=
  match o.peer with
  | .master => .lookup i o.massage
  | .cacheServer addr => .request i addr o.massage

/-- A request that a cache server has handled. -/
structure Handled where
  addr : Str
  client : ℕ
  message : Str
  reply : Str
  deriving DecidableEq

/-- What the callbacks of one `timer_handler` send, when the timers of the addresses were made in this
order.  The timer of the master is the first one. -/
def Client.resent (c : Client) (order : List Str) : List Outgoing :=
  (if c.master.timer.fires then [⟨.master, c.master.massage⟩] else []) ++
    order.filterMap fun addr => (c.cacheServerTimers.lookup addr).bind fun r =>
      if r.timer.fires then some ⟨.cacheServer addr, r.massage⟩ else none

structure Fleet where
  clients : ℕ → Client
  /-- the keys that a pass of `check_cache_server_request_map` has still to send -/
  lost : ℕ → List Str
  /-- the process that listens at an address -/
  servers : Str → Option Cache
  mail : List Packet
  log : List Handled

namespace Fleet

inductive Event where
  /-- The child of a client writes a key into the pipe. -/
  | child (i : ℕ) (key value : Word)
  /-- A message arrives.  A client that writes sends the value that `strRand` gives. -/
  | deliver (n : ℕ) (value : Word)
  /-- A message is lost. -/
  | lose (n : ℕ)
  /-- A pass of `check_cache_server_request_map` begins. -/
  | check (i : ℕ) (order : List Str)
  /-- It sends the next key. -/
  | resend (i : ℕ)
  /-- `timer_handler`. -/
  | tick (i : ℕ) (order : List Str)

/-- A handler of client `i` has left the client `c` and sends `out`. -/
def post (f : Fleet) (i : ℕ) (c : Client) (out : List Outgoing) : Fleet :=
  { f with clients := Function.update f.clients i c, mail := f.mail ++ out.map (Outgoing.packet i) }

/-- A message arrives.  The client is in its loop: no pass is in one of its pauses. -/
def receive (m : Master) (f : Fleet) (value : Str) : Packet → Option Fleet
  | .lookup i key => (m.startClient key).map fun text =>
      { f with mail := f.mail ++ [.location i text] }
  | .location i message =>
    if f.lost i = [] then
      ((f.clients i).dealwithMaster message value).map fun r => f.post i r.1 r.2.toList
    else none
  | .request i addr message =>
    match f.servers addr with
    | none => some f
    | some c => (c.clientChat message).map fun r => { f with
        servers := Function.update f.servers addr (some r.1)
        mail := f.mail ++ [.reply i r.2]
        log := f.log ++ [⟨addr, i, message, r.2⟩] }
  | .reply i message =>
    if f.lost i = [] then
      ((f.clients i).dealwithCacheServer message).map fun c => f.post i c []
    else none

/-- One step, with the master `m`. -/
def step (m : Master) (f : Fleet) : Event → Option Fleet
  | .child i key value =>
    if f.lost i = [] then
      ((f.clients i).dealwithChild (lit "CHILD#" ++ key) value).map fun r => f.post i r.1 r.2.toList
    else none
  | .deliver n value => f.mail[n]?.bind fun x => { f with mail := f.mail.eraseIdx n }.receive m value x
  | .lose n => some { f with mail := f.mail.eraseIdx n }
  | .check i order =>
    if f.lost i = [] ∧ order.Nodup ∧ order.toFinset = (f.clients i).requestMap.keys then
      some { f.post i (f.clients i).clearLost [] with
        lost := Function.update f.lost i ((f.clients i).lostKeys order) }
    else none
  | .resend i =>
    match f.lost i with
    | key :: lost => some { f.post i ((f.clients i).sendRequestToMaster key) [⟨.master, key⟩] with
        lost := Function.update f.lost i lost }
    | [] => none
  | .tick i order =>
    if order.Nodup ∧ order.toFinset = (f.clients i).cacheServerTimers.keys then
      some (f.post i (f.clients i).timerHandler ((f.clients i).resent order))
    else none

/-- A cache server listens at the address that it was started with, and has served nobody. -/
def Deployed (servers : Str → Option Cache) : Prop :=
  ∀ addr c, servers addr = some c → ∃ cacheSizeLocal status portForCache, ∃ ip portForClient : Word,
    c = .new cacheSizeLocal status ip portForClient portForCache ∧ addr = ip.1 ++ colon :: portForClient

/-- Nothing has been sent. -/
structure Init (f : Fleet) : Prop where
  clients : ∀ i, ∃ mode cacheSizeLocal, f.clients i = .new mode cacheSizeLocal
  lost : ∀ i, f.lost i = []
  servers : Deployed f.servers
  mail : f.mail = []
  log : f.log = []

end Fleet

/-! ### Requests that go to the right address -/

/-- The master gives the address for the key. -/
def Master.Places (m : Master) (key addr : Str) : Prop := m.handleClientMessage key = some addr

/-- A key for the master, or a request for a place of its key. -/
def Outgoing.Proper (places : Str → Str → Prop) (o : Outgoing) : Prop :=
  match o.peer with
  | .master => IsField o.massage
  | .cacheServer addr => ∃ request : Request, o.massage = request.text ∧ places request.key addr

lemma Master.Places.isField {m : Master} {key addr : Str} (h : m.Places key addr) : IsField addr := by
  simp only [Places, handleClientMessage, Option.bind_eq_bind, Option.bind_eq_some_iff, Option.pure_def,
    Option.some.injEq] at h
  obtain ⟨fd, -, e, -, ip, hip, port, hport, rfl⟩ := h
  have hip := mem_splitSharp (List.mem_of_getElem? hip)
  have hport := mem_splitSharp (List.mem_of_getElem? hport)
  have hne : sharp ≠ colon := by decide
  exact ⟨by simp, by simp [hip.sharp_free, hport.sharp_free, hne]⟩

lemma Master.Places.unique {m : Master} {key addr addr' : Str} (h : m.Places key addr)
    (h' : m.Places key addr') : addr = addr' :=
  Option.some.inj (h.symm.trans h')

namespace Client

/-- What a client holds is right, when the addresses for the keys are to be among `places`: the addresses in
its local cache, the requests that its running timers would send again, and the keys that wait for an
answer. -/
structure Proper (places : Str → Str → Prop) (c : Client) : Prop where
  sound : c.Sound
  placed : c.localLru.Each places
  slots : ∀ peer r, c.slot peer = some r → r.timer.running = true →
    Outgoing.Proper places ⟨peer, r.massage⟩
  listed : Every (fun _ keys => ∀ key ∈ keys, IsField key) c.requestMap

variable {places places' : Str → Str → Prop} {c c' : Client} {key value : Word} {addr : Str}
  {out : Option Outgoing}

lemma proper_new (places : Str → Str → Prop) (mode : UInt8) (cacheSizeLocal : ℕ) :
    (new mode cacheSizeLocal).Proper places where
  sound := sound_new mode cacheSizeLocal
  placed := LocalLru.each_new _ _
  slots peer r hr hrunning := by
    cases peer with
    | master =>
      cases hr
      cases hrunning
    | cacheServer addr => cases hr
  listed addr keys h := by cases h

/-! ### What the handlers leave of the local cache and the lists -/

lemma listed_add (h : Every (fun _ keys => ∀ key ∈ keys, IsField key) c.requestMap) (addr : Str)
    (key : Word) :
    Every (fun _ keys => ∀ key ∈ keys, IsField key) (c.addItemToRequestMap addr key).requestMap := by
  unfold addItemToRequestMap
  split
  next keys hkeys =>
    split_ifs
    · exact h
    · refine h.insert fun k hk => ?_
      rcases List.mem_append.mp hk with hk | hk
      · exact h addr keys hkeys k hk
      · rw [List.mem_singleton.mp hk]
        exact key.2
  next hnone =>
    rw [insertNew, if_neg (Finmap.lookup_eq_none.mp hnone)]
    refine h.insert fun k hk => ?_
    rw [List.mem_singleton.mp hk]
    exact key.2

lemma listed_erase (h : Every (fun _ keys => ∀ key ∈ keys, IsField key) c.requestMap) (addr key : Str) :
    Every (fun _ keys => ∀ key ∈ keys, IsField key) (c.eraseItemFromRequestMap addr key).requestMap := by
  unfold eraseItemFromRequestMap
  split
  next keys hkeys => exact h.insert fun k hk => h addr keys hkeys k (List.mem_of_mem_erase hk)
  next => exact h

lemma listed_clear (h : Every (fun _ keys => ∀ key ∈ keys, IsField key) c.requestMap) :
    Every (fun _ keys => ∀ key ∈ keys, IsField key) c.clearLost.requestMap := by
  intro addr keys hkeys
  simp only [clearLost, lookup_mapValues, Option.map_eq_some_iff] at hkeys
  obtain ⟨keys, hkeys, rfl⟩ := hkeys
  split_ifs
  · exact fun k hk => absurd hk List.not_mem_nil
  · exact h addr keys hkeys

lemma isField_lostKeys (h : Every (fun _ keys => ∀ key ∈ keys, IsField key) c.requestMap) {order : List Str}
    {k : Str} (hk : k ∈ c.lostKeys order) : IsField k := by
  obtain ⟨addr, -, hk⟩ := List.mem_flatMap.mp hk
  cases hkeys : c.requestMap.lookup addr with
  | none => simp [hkeys] at hk
  | some keys =>
    simp only [hkeys] at hk
    split_ifs at hk
    · exact h addr keys hkeys k hk
    · exact absurd hk List.not_mem_nil

/-- The text that a reader or a writer sends is a request for the key. -/
lemma proper_modeRequest (hplaces : places key addr) (value : Word) :
    ∀ o ∈ c.modeRequest addr key value, o.Proper places := by
  unfold modeRequest
  split_ifs
  · rintro o ⟨⟩
    exact ⟨.read key, rfl, hplaces⟩
  · rintro o ⟨⟩
    exact ⟨.write key value, rfl, hplaces⟩
  · nofun

/-- A handler that sends proper requests leaves proper timers. -/
lemma Sends.slots (hs : Sends c c' out) (hout : ∀ o ∈ out, o.Proper places)
    (h : ∀ peer r, c.slot peer = some r → r.timer.running = true → Outgoing.Proper places ⟨peer, r.massage⟩) :
    ∀ peer r, c'.slot peer = some r → r.timer.running = true → Outgoing.Proper places ⟨peer, r.massage⟩ := by
  intro peer r hr hrunning
  cases hs with
  | nothing hslot => exact h peer r (hslot peer ▸ hr) hrunning
  | @request o t hother hslot _ _ =>
    by_cases hpeer : peer = o.peer
    · subst hpeer
      rw [hslot] at hr
      cases hr
      exact hout o rfl
    · exact h peer r (hother peer hpeer ▸ hr) hrunning

/-- And so does one that stops a timer. -/
lemma Stops.slots {peer : Peer} (hs : Stops c c' peer)
    (h : ∀ peer r, c.slot peer = some r → r.timer.running = true → Outgoing.Proper places ⟨peer, r.massage⟩) :
    ∀ peer r, c'.slot peer = some r → r.timer.running = true → Outgoing.Proper places ⟨peer, r.massage⟩ := by
  intro peer' r hr hrunning
  by_cases hpeer : peer' = peer
  · obtain ⟨r₀, -, hnew⟩ := hs.stopped
    rw [hpeer, hnew, Option.some.injEq] at hr
    subst hr
    cases hrunning
  · exact h peer' r (hs.other peer' hpeer ▸ hr) hrunning

/-- A request to the address that the master gives for the key. -/
lemma Proper.requestByMode (h : c.Proper places) (hplaces : places key addr) (value : Word)
    (hs : c.requestByMode addr key value = some (c', out)) :
    c'.Proper places ∧ ∀ o ∈ out, o.Proper places := by
  obtain ⟨hlru, hmap⟩ := requestByMode_rest hs
  obtain ⟨rfl, hsends⟩ := sends_requestByMode h.sound hs
  have hout := proper_modeRequest (c := c) hplaces value
  refine ⟨⟨hsends.sound h.sound, hlru ▸ h.placed, hsends.slots hout h.slots, ?_⟩, hout⟩
  rcases hmap with hmap | hmap <;> rw [hmap]
  · exact h.listed
  · exact listed_add h.listed addr key

/-! ### The handlers -/

lemma split_child (key : Word) : split (lit "CHILD#" ++ key) sharp = [lit "CHILD", key.1] := by
  have hlit : lit "CHILD#" ++ key.1 = lit "CHILD" ++ sharp :: key.1 := rfl
  rw [hlit, split_cons (by decide), split_last key.2.ne_nil key.2.sharp_free]

lemma split_master (key : Word) (haddr : IsField addr) :
    split (lit "MASTER#" ++ key ++ sharp :: addr) sharp = [lit "MASTER", key.1, addr] := by
  have hlit : lit "MASTER#" ++ key.1 ++ sharp :: addr = lit "MASTER" ++ sharp :: (key.1 ++ sharp :: addr) := by
    have hmaster : lit "MASTER#" = lit "MASTER" ++ [sharp] := rfl
    rw [hmaster]
    simp
  rw [hlit, split_three ⟨by decide, by decide⟩ key.2 haddr]

/-- The same client with another local cache. -/
lemma Proper.localLru (h : c.Proper places) {localLru : LocalLru Str Str} (hplaces : localLru.Each places) :
    ({ c with localLru } : Client).Proper places := by
  have hslot : ∀ peer, ({ c with localLru } : Client).slot peer = c.slot peer := fun peer => by
    cases peer <;> rfl
  exact ⟨fun peer r hr => h.sound peer r (hslot peer ▸ hr), hplaces,
    fun peer r hr => h.slots peer r (hslot peer ▸ hr), h.listed⟩

lemma Proper.sendRequestToMaster (h : c.Proper places) {k : Str} (hk : IsField k) :
    (c.sendRequestToMaster k).Proper places := by
  have hsends := sends_sendRequestToMaster h.sound k
  refine ⟨hsends.sound h.sound, h.placed, hsends.slots ?_ h.slots, h.listed⟩
  rintro o ⟨⟩
  exact hk

/-- A key of the child. -/
lemma Proper.dealwithChild (h : c.Proper places)
    (hs : c.dealwithChild (lit "CHILD#" ++ key) value = some (c', out)) :
    c'.Proper places ∧ ∀ o ∈ out, o.Proper places := by
  unfold Client.dealwithChild at hs
  rw [split_child] at hs
  dsimp only at hs
  rw [if_pos rfl] at hs
  split at hs
  next addr localLru hget =>
    have hplaces : places key addr := h.placed.of_get (by rw [hget])
    have hnew : ({ c with localLru } : Client).Proper places := by
      have hget' := h.placed.get key.1
      rw [hget] at hget'
      exact h.localLru hget'
    exact hnew.requestByMode hplaces value hs
  next localLru hget =>
    cases hs
    refine ⟨h.sendRequestToMaster key.2, ?_⟩
    rintro o ⟨⟩
    exact key.2

/-- The master's answer for a key. -/
lemma Proper.dealwithMaster (h : c.Proper places) (hplaces : places key addr) (haddr : IsField addr)
    (hs : c.dealwithMaster (lit "MASTER#" ++ key ++ sharp :: addr) value = some (c', out)) :
    c'.Proper places ∧ ∀ o ∈ out, o.Proper places := by
  let c₁ : Client := { c with master := { c.master with timer := c.master.timer.stop } }
  have hstops : Stops c c₁ .master := by
    refine ⟨fun peer hpeer => ?_, c.master, rfl, rfl⟩
    cases peer with
    | master => exact absurd rfl hpeer
    | cacheServer addr => rfl
  have h₁ : c₁.Proper places := ⟨hstops.sound h.sound, h.placed, hstops.slots h.slots, h.listed⟩
  unfold Client.dealwithMaster at hs
  rw [split_master key haddr] at hs
  dsimp only at hs
  rw [if_pos rfl] at hs
  exact (h₁.localLru (h.placed.put (fun _ _ _ hk => hk) hplaces)).requestByMode hplaces value hs

/-- Any message of a cache server. -/
lemma Proper.dealwithCacheServer (h : c.Proper places) {message : Str}
    (hs : c.dealwithCacheServer message = some c') : c'.Proper places := by
  have hplaces : c'.localLru.Each places := by
    rcases localLru_dealwithCacheServer hs with hlru | ⟨k, hlru⟩
    · exact hlru ▸ h.placed
    · exact hlru ▸ h.placed.erase k
  have hlisted : Every (fun _ keys => ∀ key ∈ keys, IsField key) c'.requestMap := by
    unfold Client.dealwithCacheServer at hs
    split at hs
    next state k addr tail hsplit =>
      split_ifs at hs
      · obtain ⟨r, -, rfl⟩ := Option.map_eq_some_iff.mp hs
        exact listed_erase h.listed addr k
      · obtain ⟨r, -, rfl⟩ := Option.map_eq_some_iff.mp hs
        exact listed_erase h.listed addr k
      · cases hs
        exact h.listed
    next => cases hs
  rcases dealwithCacheServer_cases hs with ⟨addr, -, hstops⟩ | ⟨-, rfl⟩
  · exact ⟨hstops.sound h.sound, hplaces, hstops.slots h.slots, hlisted⟩
  · exact h

/-! ### The timers -/

lemma Proper.timerHandler (h : c.Proper places) : c.timerHandler.Proper places := by
  refine ⟨fun peer r hr => ?_, h.placed, fun peer r hr hrunning => ?_, h.listed⟩
  · rw [timerHandler_slot] at hr
    obtain ⟨r₀, hr₀, rfl⟩ := Option.map_eq_some_iff.mp hr
    exact (h.sound peer r₀ hr₀).tick
  · rw [timerHandler_slot] at hr
    obtain ⟨r₀, hr₀, rfl⟩ := Option.map_eq_some_iff.mp hr
    refine h.slots peer r₀ hr₀ ?_
    by_contra hstopped
    rw [Bool.not_eq_true] at hstopped
    dsimp only at hrunning
    simp [Timer.tick, Timer.count, Timer.settle, hstopped] at hrunning

/-- What the callbacks send is what they were started for. -/
lemma Proper.resent (h : c.Proper places) {order : List Str} : ∀ o ∈ c.resent order, o.Proper places := by
  intro o ho
  rcases List.mem_append.mp ho with ho | ho
  · split_ifs at ho with hfires
    · rw [List.mem_singleton.mp ho]
      exact h.slots .master c.master rfl (Timer.fires_iff.mp hfires).1
    · exact absurd ho List.not_mem_nil
  · obtain ⟨addr, -, ho⟩ := List.mem_filterMap.mp ho
    obtain ⟨r, hr, ho⟩ := Option.bind_eq_some_iff.mp ho
    split_ifs at ho with hfires
    cases ho
    exact h.slots (.cacheServer addr) r hr (Timer.fires_iff.mp hfires).1

lemma Proper.clearLost (h : c.Proper places) : c.clearLost.Proper places := by
  have hslot : ∀ peer, c.clearLost.slot peer = c.slot peer := fun peer => by
    cases peer <;> rfl
  exact ⟨fun peer r hr => h.sound peer r (hslot peer ▸ hr), h.placed,
    fun peer r hr => h.slots peer r (hslot peer ▸ hr), listed_clear h.listed⟩

end Client

end DistCache
