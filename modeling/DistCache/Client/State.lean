import DistCache.Client.LocalLru
import DistCache.Client.Requests

/-!
The client: its timers, the members of `Client` that its handlers read, and the handlers.

`none` is what a handler does not survive: an index out of range, `stop` through a null pointer.
-/

namespace DistCache

open Lib

/-! ### Timers -/

structure Timer where
  timeout : ℤ
  periodic : Bool
  running : Bool
  current : ℤ

namespace Timer

/-- `createTimer`.  Only the first call sets `running`; afterwards it is what the memory holds. -/
def createTimer (timeout : ℤ) (periodic memory : Bool) : Timer := ⟨timeout, periodic, memory, timeout⟩

def start (t : Timer) : Timer := { t with running := true }

def stop (t : Timer) : Timer := { t with running := false, current := t.timeout }

def reset (t : Timer) : Timer := { t with current := t.timeout }

/-- The first loop of `timer_handler`. -/
def count (t : Timer) : Timer := if t.running then { t with current := t.current - 1 } else t

/-- The callback is executed. -/
def fires (t : Timer) : Bool := t.running && t.count.current == 0

/-- The last loop of `timer_handler`. -/
def settle (t : Timer) : Timer :=
  if t.running && t.current == 0 then
    if t.periodic then { t with current := t.timeout } else { t with running := false }
  else t

/-- `timer_handler`.  The callbacks of the client leave the timers alone. -/
def tick (t : Timer) : Timer := t.count.settle

/-- The timer runs, and comes to its callback. -/
structure Armed (t : Timer) : Prop where
  running : t.running = true
  current : 0 < t.current

/-- A timer that runs out once, and does not run when it is past its time. -/
structure Sound (t : Timer) : Prop where
  once : t.periodic = false
  timeout : 0 < t.timeout
  current : t.running = true → 0 < t.current

variable {t : Timer}

lemma Sound.armed (h : t.Sound) (hrunning : t.running = true) : t.Armed :=
  ⟨hrunning, h.current hrunning⟩

lemma Sound.stop (h : t.Sound) : t.stop.Sound := ⟨h.once, h.timeout, nofun⟩

lemma Sound.restart (h : t.Sound) : t.reset.start.Sound := ⟨h.once, h.timeout, fun _ => h.timeout⟩

lemma fires_iff : t.fires = true ↔ t.running = true ∧ t.current = 1 := by
  unfold fires count
  cases t.running
  · simp
  · simp only [Bool.true_and, if_true, beq_iff_eq, true_and]
    omega

/-- A tick on which the timer fires stops it. -/
lemma Sound.tick_of_fires (h : t.Sound) (hfires : t.fires = true) : t.tick.running = false := by
  obtain ⟨hrunning, hcurrent⟩ := fires_iff.mp hfires
  simp [tick, count, settle, hrunning, hcurrent, h.once]

/-- Another tick makes it count. -/
lemma tick_of_not_fires (hfires : t.fires = false) : t.tick = t.count := by
  unfold fires count at hfires
  unfold tick settle
  rw [if_neg]
  cases hrunning : t.running
  · simp [count, hrunning]
  · simpa [count, hrunning] using hfires

lemma Armed.tick (h : t.Armed) (hfires : t.fires = false) : t.tick.Armed := by
  have hne : t.current ≠ 1 := fun hcurrent => by
    rw [fires_iff.mpr ⟨h.running, hcurrent⟩] at hfires
    cases hfires
  have hpos := h.current
  rw [tick_of_not_fires hfires, count, if_pos h.running]
  refine ⟨h.running, ?_⟩
  show 0 < t.current - 1
  omega

lemma tick_periodic : t.tick.periodic = t.periodic := by
  unfold tick settle count
  split_ifs <;> rfl

lemma tick_timeout : t.tick.timeout = t.timeout := by
  unfold tick settle count
  split_ifs <;> rfl

lemma Sound.tick (h : t.Sound) : t.tick.Sound := by
  refine ⟨by rw [tick_periodic, h.once], by rw [tick_timeout]; exact h.timeout, fun hrunning => ?_⟩
  cases hfires : t.fires with
  | true =>
    rw [h.tick_of_fires hfires] at hrunning
    cases hrunning
  | false =>
    have hold : t.running = true := by
      rw [tick_of_not_fires hfires, count] at hrunning
      split_ifs at hrunning with hold
      · exact hold
      · exact hrunning
    exact ((h.armed hold).tick hfires).current

end Timer

/-! ### The client -/

/-- `ReSendMassage`, what the callback of a timer sends.  It sends it to the master or to the address that
the timer belongs to. -/
structure ReSendMassage where
  massage : Str
  timer : Timer

/-- The members of `Client` that its handlers read. -/
structure Client where
  mode : UInt8
  localLru : LocalLru Str Str
  requestMap : Map Str (List Str)
  master : ReSendMassage
  cacheServerTimers : Map Str ReSendMassage

/-- Whom a request is sent to. -/
inductive Peer where
  | master
  | cacheServer (addr : Str)
  deriving DecidableEq

/-- A request that the client sends. -/
structure Outgoing where
  peer : Peer
  massage : Str
  deriving DecidableEq

namespace Client

/-- `WAITING_TIME`. -/
def waitingTime : ℤ := 5
/-- `LOST_MAX_NUM`. -/
def lostMaxNum : ℕ := 6

/-- The constructor and `init`.  The timer of the master is the first one that is created. -/
def new (mode : UInt8) (cacheSizeLocal : ℕ) : Client where
  mode := mode
  localLru := .new cacheSizeLocal
  requestMap := ∅
  master := ⟨[], .createTimer waitingTime false false⟩
  cacheServerTimers := ∅

def addItemToRequestMap (c : Client) (addr key : Str) : Client :=
  match c.requestMap.lookup addr with
  | some keys =>
    if keys.contains key then c else { c with requestMap := c.requestMap.insert addr (keys ++ [key]) }
  | none => { c with requestMap := insertNew c.requestMap addr [key] }

def eraseItemFromRequestMap (c : Client) (addr key : Str) : Client :=
  match c.requestMap.lookup addr with
  | some keys => { c with requestMap := c.requestMap.insert addr (keys.erase key) }
  | none => c

def sendRequestToMaster (c : Client) (key : Str) : Client :=
  { c with master := ⟨key, c.master.timer.reset.start⟩ }

/-- The timer of an address after a request to it.  A new timer has whatever `running` the memory holds,
until it is started. -/
def startedTimer (c : Client) (addr : Str) : Timer :=
  match c.cacheServerTimers.lookup addr with
  | some r => r.timer.reset.start
  | none => (Timer.createTimer waitingTime false false).start

/-- `send_request_to_cache_server`, apart from the text that it sends.  It starts the timer whether or not
it can connect; `parse_str_addr` reads two fields of the address. -/
def requestToCacheServer (c : Client) (addr key value : Str) : Option Client :=
  match split addr colon with
  | _ :: _ :: _ => some { c.addItemToRequestMap addr key with
      cacheServerTimers := c.cacheServerTimers.insert addr
        ⟨sendRequestToCacheServer key value, c.startedTimer addr⟩ }
  | _ => none

/-- What `dealwith_child` and `dealwith_master` do with an address: a read, a write or nothing. -/
def requestByMode (c : Client) (addr key value : Str) : Option (Client × Option Outgoing) :=
  if c.mode = 'r'.toUInt8 then
    (c.requestToCacheServer addr key []).map fun c =>
      (c, some ⟨.cacheServer addr, sendRequestToCacheServer key []⟩)
  else if c.mode = 'w'.toUInt8 then
    (c.requestToCacheServer addr key value).map fun c =>
      (c, some ⟨.cacheServer addr, sendRequestToCacheServer key value⟩)
  else some (c, none)

/-- `dealwith_child`, with what `strRand` gives, and the request that it sends. -/
def dealwithChild (c : Client) (message value : Str) : Option (Client × Option Outgoing) :=
  match split message sharp with
  | head :: key :: _ =>
    if head = lit "CHILD" then
      match c.localLru.get key with
      | (some addr, localLru) => { c with localLru }.requestByMode addr key value
      | (none, _) => some (c.sendRequestToMaster key, some ⟨.master, key⟩)
    else some (c, none)
  | _ => none

/-- `dealwith_master`. -/
def dealwithMaster (c : Client) (message value : Str) : Option (Client × Option Outgoing) :=
  let c := { c with master := { c.master with timer := c.master.timer.stop } }
  match split message sharp with
  | [state, key, addr] =>
    if state = lit "MASTER" then
      { c with localLru := c.localLru.put key addr }.requestByMode addr key value
    else some (c, none)
  | _ => some (c, none)

/-- `cache_server_timers_[addr].timer->stop()`. -/
def stopTimer (c : Client) (addr : Str) : Option Client :=
  (c.cacheServerTimers.lookup addr).map fun r =>
    { c with cacheServerTimers := c.cacheServerTimers.insert addr { r with timer := r.timer.stop } }

/-- `dealwith_cache_server`. -/
def dealwithCacheServer (c : Client) (message : Str) : Option Client :=
  match split message sharp with
  | state :: key :: addr :: _ =>
    if state = lit "SUCCESS" then (c.eraseItemFromRequestMap addr key).stopTimer addr
    else if state = lit "FAILED" then
      let c := c.eraseItemFromRequestMap addr key
      { c with localLru := c.localLru.erase key }.stopTimer addr
    else some c
  | _ => none

/-- The keys that `check_cache_server_request_map` sends to the master, when it comes to the addresses in
this order. -/
def lostKeys (c : Client) (order : List Str) : List Str :=
  order.flatMap fun addr =>
    match c.requestMap.lookup addr with
    | some keys => if keys.length > lostMaxNum then keys else []
    | none => []

/-- The lists after the pass. -/
def clearLost (c : Client) : Client :=
  { c with requestMap := mapValues (fun keys => if keys.length > lostMaxNum then [] else keys) c.requestMap }

/-- `timer_handler`. -/
def timerHandler (c : Client) : Client :=
  { c with
    master := { c.master with timer := c.master.timer.tick }
    cacheServerTimers := mapValues (fun r => { r with timer := r.timer.tick }) c.cacheServerTimers }

/-! ### What the handlers do to the timers -/

/-- The timer for the requests to a peer, and what it sends. -/
def slot (c : Client) : Peer → Option ReSendMassage
  | .master => some c.master
  | .cacheServer addr => c.cacheServerTimers.lookup addr

/-- The timers of the client are sound. -/
def Sound (c : Client) : Prop := ∀ peer, ∀ r ∈ c.slot peer, r.timer.Sound

/-- A handler sends at most one request, and starts the timer of its peer for it. -/
inductive Sends (c c' : Client) : Option Outgoing → Prop
  | nothing (hslot : ∀ peer, c'.slot peer = c.slot peer) : Sends c c' none
  | request {o : Outgoing} {t : Timer} (hother : ∀ peer, peer ≠ o.peer → c'.slot peer = c.slot peer)
      (hslot : c'.slot o.peer = some ⟨o.massage, t⟩) (harmed : t.Armed) (hsound : t.Sound) :
      Sends c c' (some o)

/-- A handler stops the timer of one peer. -/
structure Stops (c c' : Client) (peer : Peer) : Prop where
  other : ∀ peer', peer' ≠ peer → c'.slot peer' = c.slot peer'
  stopped : ∃ r, c.slot peer = some r ∧ c'.slot peer = some { r with timer := r.timer.stop }

variable {c c' : Client} {message addr key value : Str} {out : Option Outgoing}

lemma Sends.sound (hs : Sends c c' out) (h : c.Sound) : c'.Sound := by
  intro peer r hr
  cases hs with
  | nothing hslot => exact h peer r (hslot peer ▸ hr)
  | @request o t hother hslot _ hsound =>
    by_cases hpeer : peer = o.peer
    · rw [hpeer, hslot] at hr
      cases hr
      exact hsound
    · exact h peer r (hother peer hpeer ▸ hr)

lemma Stops.sound {peer : Peer} (hs : Stops c c' peer) (h : c.Sound) : c'.Sound := by
  obtain ⟨r, hold, hnew⟩ := hs.stopped
  intro peer' r' hr'
  by_cases hpeer : peer' = peer
  · rw [hpeer, hnew] at hr'
    cases hr'
    exact (h peer r hold).stop
  · exact h peer' r' (hs.other peer' hpeer ▸ hr')

lemma sound_new (mode : UInt8) (cacheSizeLocal : ℕ) : (new mode cacheSizeLocal).Sound := by
  intro peer r hr
  cases peer with
  | master =>
    cases hr
    have hpos : 0 < waitingTime := by decide
    exact ⟨rfl, hpos, nofun⟩
  | cacheServer addr => cases hr

lemma sends_sendRequestToMaster (h : c.Sound) (key : Str) :
    Sends c (c.sendRequestToMaster key) (some ⟨.master, key⟩) := by
  have hsound : c.master.timer.reset.start.Sound := (h .master _ rfl).restart
  refine .request (fun peer hpeer => ?_) rfl (hsound.armed rfl) hsound
  cases peer with
  | master => exact absurd rfl hpeer
  | cacheServer addr => rfl

lemma sound_startedTimer (h : c.Sound) (addr : Str) : (c.startedTimer addr).Sound := by
  unfold startedTimer
  split
  next r hr => exact (h (.cacheServer addr) r hr).restart
  next =>
    have hpos : 0 < waitingTime := by decide
    exact ⟨rfl, hpos, fun _ => hpos⟩

lemma running_startedTimer (addr : Str) : (c.startedTimer addr).running = true := by
  unfold startedTimer
  split <;> rfl

lemma addItemToRequestMap_slot (c : Client) (addr key : Str) (peer : Peer) :
    (c.addItemToRequestMap addr key).slot peer = c.slot peer := by
  unfold addItemToRequestMap
  split
  next => split_ifs <;> cases peer <;> rfl
  next => cases peer <;> rfl

lemma sends_requestToCacheServer (h : c.Sound) (hs : c.requestToCacheServer addr key value = some c') :
    Sends c c' (some ⟨.cacheServer addr, sendRequestToCacheServer key value⟩) := by
  have hsound := sound_startedTimer h addr
  unfold requestToCacheServer at hs
  split at hs
  next =>
    cases hs
    refine .request (fun peer hpeer => ?_) (Finmap.lookup_insert _)
      (hsound.armed (running_startedTimer addr)) hsound
    cases peer with
    | master => exact addItemToRequestMap_slot c addr key .master
    | cacheServer addr' =>
      have hne : addr' ≠ addr := fun heq => hpeer (by rw [heq])
      exact Finmap.lookup_insert_of_ne _ hne
  next => cases hs

/-- The request for a key whose cache server is known. -/
def modeRequest (c : Client) (addr key value : Str) : Option Outgoing :=
  if c.mode = 'r'.toUInt8 then some ⟨.cacheServer addr, sendRequestToCacheServer key []⟩
  else if c.mode = 'w'.toUInt8 then some ⟨.cacheServer addr, sendRequestToCacheServer key value⟩
  else none

lemma sends_requestByMode (h : c.Sound) (hs : c.requestByMode addr key value = some (c', out)) :
    out = c.modeRequest addr key value ∧ Sends c c' out := by
  unfold requestByMode at hs
  unfold modeRequest
  split_ifs at hs ⊢ with hr hw
  · obtain ⟨c₁, hc₁, heq⟩ := Option.map_eq_some_iff.mp hs
    cases heq
    exact ⟨rfl, sends_requestToCacheServer h hc₁⟩
  · obtain ⟨c₁, hc₁, heq⟩ := Option.map_eq_some_iff.mp hs
    cases heq
    exact ⟨rfl, sends_requestToCacheServer h hc₁⟩
  · cases hs
    exact ⟨rfl, .nothing fun _ => rfl⟩

/-- The request for a key of the child: to the master when the local cache does not have it. -/
def childRequest (c : Client) (message value : Str) : Option Outgoing :=
  match split message sharp with
  | head :: key :: _ =>
    if head = lit "CHILD" then
      match (c.localLru.get key).1 with
      | some addr => c.modeRequest addr key value
      | none => some ⟨.master, key⟩
    else none
  | _ => none

lemma Sends.congr {c₁ : Client} (hs : Sends c₁ c' out) (hslot : ∀ peer, c₁.slot peer = c.slot peer) :
    Sends c c' out := by
  cases hs with
  | nothing h => exact .nothing fun peer => (h peer).trans (hslot peer)
  | request hother hnew harmed hsound =>
    exact .request (fun peer hpeer => (hother peer hpeer).trans (hslot peer)) hnew harmed hsound

lemma sends_dealwithChild (h : c.Sound) (hs : c.dealwithChild message value = some (c', out)) :
    out = c.childRequest message value ∧ Sends c c' out := by
  unfold dealwithChild at hs
  unfold childRequest
  split at hs
  next head key tail hsplit =>
    split_ifs at hs ⊢ with hhead
    · split at hs
      next addr localLru hget =>
        rw [hget]
        have hslot : ∀ peer, ({ c with localLru } : Client).slot peer = c.slot peer := fun peer => by
          cases peer <;> rfl
        have hsound : ({ c with localLru } : Client).Sound := fun peer r hr => h peer r (hslot peer ▸ hr)
        obtain ⟨hout, hsends⟩ := sends_requestByMode hsound hs
        exact ⟨hout, hsends.congr hslot⟩
      next localLru hget =>
        rw [hget]
        cases hs
        exact ⟨rfl, sends_sendRequestToMaster h key⟩
    · cases hs
      exact ⟨rfl, .nothing fun _ => rfl⟩
  next => cases hs

/-- The request for a key that the master has answered. -/
def masterRequest (c : Client) (message value : Str) : Option Outgoing :=
  match split message sharp with
  | [state, key, addr] => if state = lit "MASTER" then c.modeRequest addr key value else none
  | _ => none

lemma sends_dealwithMaster (h : c.Sound) (hs : c.dealwithMaster message value = some (c', out)) :
    out = c.masterRequest message value ∧ ∃ c₁, Stops c c₁ .master ∧ Sends c₁ c' out := by
  let c₁ : Client := { c with master := { c.master with timer := c.master.timer.stop } }
  have hstops : Stops c c₁ .master := by
    refine ⟨fun peer hpeer => ?_, c.master, rfl, rfl⟩
    cases peer with
    | master => exact absurd rfl hpeer
    | cacheServer addr => rfl
  have hsound := hstops.sound h
  unfold dealwithMaster at hs
  unfold masterRequest
  split at hs
  next state key addr hsplit =>
    split_ifs at hs ⊢ with hstate
    · have hslot : ∀ peer, ({ c₁ with localLru := c.localLru.put key addr } : Client).slot peer
          = c₁.slot peer := fun peer => by
        cases peer <;> rfl
      have hput : ({ c₁ with localLru := c.localLru.put key addr } : Client).Sound :=
        fun peer r hr => hsound peer r (hslot peer ▸ hr)
      obtain ⟨hout, hsends⟩ := sends_requestByMode hput hs
      exact ⟨hout, c₁, hstops, hsends.congr hslot⟩
    · cases hs
      exact ⟨rfl, c₁, hstops, .nothing fun _ => rfl⟩
  next =>
    cases hs
    exact ⟨rfl, c₁, hstops, .nothing fun _ => rfl⟩

/-- The address whose timer a message of a cache server stops. -/
def serverStops (message : Str) : Option Str :=
  match split message sharp with
  | state :: _ :: addr :: _ => if state = lit "SUCCESS" ∨ state = lit "FAILED" then some addr else none
  | _ => none

lemma eraseItemFromRequestMap_slot (c : Client) (addr key : Str) (peer : Peer) :
    (c.eraseItemFromRequestMap addr key).slot peer = c.slot peer := by
  unfold eraseItemFromRequestMap
  split <;> cases peer <;> rfl

lemma stops_stopTimer {c₁ : Client} (hslot : ∀ peer, c₁.slot peer = c.slot peer)
    (hs : c₁.stopTimer addr = some c') : Stops c c' (.cacheServer addr) := by
  obtain ⟨r, hr, rfl⟩ := Option.map_eq_some_iff.mp hs
  refine ⟨fun peer hpeer => ?_, r, (hslot (.cacheServer addr)).symm.trans hr, Finmap.lookup_insert _⟩
  rw [← hslot]
  cases peer with
  | master => rfl
  | cacheServer addr' =>
    have hne : addr' ≠ addr := fun heq => hpeer (by rw [heq])
    exact Finmap.lookup_insert_of_ne _ hne

lemma dealwithCacheServer_cases (hs : c.dealwithCacheServer message = some c') :
    (∃ addr, serverStops message = some addr ∧ Stops c c' (.cacheServer addr)) ∨
      serverStops message = none ∧ c' = c := by
  unfold dealwithCacheServer at hs
  unfold serverStops
  split at hs
  next state key addr tail hsplit =>
    have herase := eraseItemFromRequestMap_slot c addr key
    by_cases hsuccess : state = lit "SUCCESS"
    · rw [if_pos hsuccess] at hs
      rw [if_pos (.inl hsuccess)]
      exact .inl ⟨addr, rfl, stops_stopTimer herase hs⟩
    · rw [if_neg hsuccess] at hs
      by_cases hfailed : state = lit "FAILED"
      · rw [if_pos hfailed] at hs
        rw [if_pos (.inr hfailed)]
        refine .inl ⟨addr, rfl, stops_stopTimer (fun peer => ?_) hs⟩
        rw [← herase]
        cases peer <;> rfl
      · rw [if_neg hfailed] at hs
        cases hs
        rw [if_neg (not_or.mpr ⟨hsuccess, hfailed⟩)]
        exact .inr ⟨rfl, rfl⟩
  next => cases hs

lemma timerHandler_slot (c : Client) (peer : Peer) :
    c.timerHandler.slot peer = (c.slot peer).map fun r => { r with timer := r.timer.tick } := by
  cases peer with
  | master => rfl
  | cacheServer addr => exact lookup_mapValues _

/-- What a request leaves beside the timers. -/
lemma requestByMode_rest (hs : c.requestByMode addr key value = some (c', out)) :
    c'.localLru = c.localLru ∧
      (c'.requestMap = c.requestMap ∨ c'.requestMap = (c.addItemToRequestMap addr key).requestMap) := by
  have hrequest {w : Str} (h : c.requestToCacheServer addr key w = some c') : c'.localLru = c.localLru ∧
      c'.requestMap = (c.addItemToRequestMap addr key).requestMap := by
    unfold requestToCacheServer at h
    split at h
    · cases h
      refine ⟨?_, rfl⟩
      unfold addItemToRequestMap
      split
      · split_ifs <;> rfl
      · rfl
    · cases h
  unfold requestByMode at hs
  split_ifs at hs
  · obtain ⟨c₁, hc₁, heq⟩ := Option.map_eq_some_iff.mp hs
    cases heq
    exact ⟨(hrequest hc₁).1, .inr (hrequest hc₁).2⟩
  · obtain ⟨c₁, hc₁, heq⟩ := Option.map_eq_some_iff.mp hs
    cases heq
    exact ⟨(hrequest hc₁).1, .inr (hrequest hc₁).2⟩
  · cases hs
    exact ⟨rfl, .inl rfl⟩

lemma localLru_eraseItemFromRequestMap (c : Client) (addr key : Str) :
    (c.eraseItemFromRequestMap addr key).localLru = c.localLru := by
  unfold eraseItemFromRequestMap
  split <;> rfl

/-- A message of a cache server takes at most one key out of the local cache. -/
lemma localLru_dealwithCacheServer (hs : c.dealwithCacheServer message = some c') :
    c'.localLru = c.localLru ∨ ∃ key, c'.localLru = c.localLru.erase key := by
  unfold dealwithCacheServer at hs
  split at hs
  next state key addr tail hsplit =>
    have herase := localLru_eraseItemFromRequestMap c addr key
    split_ifs at hs
    · obtain ⟨r, -, rfl⟩ := Option.map_eq_some_iff.mp hs
      exact .inl herase
    · obtain ⟨r, -, rfl⟩ := Option.map_eq_some_iff.mp hs
      refine .inr ⟨key, ?_⟩
      dsimp only
      rw [herase]
    · cases hs
      exact .inl rfl
  next => cases hs

end Client

end DistCache
