import DistCache.Cache.Lru
import DistCache.ConsistentHash

/-!
The cache server: the members of `Cache`, and what its threads do to them.

`none` is what a thread does not survive: an exception of `substr`, an index out of range, the
`end` iterator given to `erase`, `exit(EXIT_FAILURE)`.
-/

namespace DistCache

/-- The members of `Cache` that its functions read. -/
structure Cache where
  mainCache : LruCache Str Str
  cacheSizeLocal : ℤ
  status : Str
  prStatus : Str
  localCacheIP : Str
  portForClient : Str
  portForCache : Str
  targetIP : Str
  targetPort : Str
  cacheList : List (Str × Str)
  cacheListUpdateFlag : Bool
  kvUpdateFlag : Bool
  kvToReplica : Str
  dyingCacheIP : Str
  dyingCachePort : Str
  otherIP : List Str
  otherPort : List Str
  outKey : List Str
  isInitialed : ℕ
  initialFlag : Bool

namespace Cache

/-- `NO_INIT`. -/
def noInit : ℕ := 0
/-- `SUCCESS_INIT`. -/
def successInit : ℕ := 1
/-- `ERROR_INIT`. -/
def errorInit : ℕ := 2

/-- The constructor. -/
def new (cacheSizeLocal : ℤ) (status localCacheIP portForClient portForCache : Str) : Cache where
  mainCache := .new LruCache.defaultCapacity
  cacheSizeLocal := cacheSizeLocal
  status := status
  prStatus := status
  localCacheIP := localCacheIP
  portForClient := portForClient
  portForCache := portForCache
  targetIP := lit "None"
  targetPort := lit "None"
  cacheList := []
  cacheListUpdateFlag := false
  kvUpdateFlag := false
  kvToReplica := []
  dyingCacheIP := []
  dyingCachePort := []
  otherIP := []
  otherPort := []
  outKey := []
  isInitialed := noInit
  initialFlag := decide (status = lit "R")

/-! ### Messages from the master -/

/-- The heartbeat that a cache sends. -/
def heartMessage (c : Cache) : Str :=
  lit "x#" ++ c.localCacheIP ++ sharp :: c.portForClient ++ sharp :: c.portForCache ++
    sharp :: c.prStatus

/-- The loop of `initial` that takes the message apart: the texts between the separators are
addresses and ports in turn, and the last one is a port. -/
def unpack : Str → Str → ℕ → List Str → List Str → List Str × List Str
  | [], tmp, _, ip, port => (ip, port ++ [tmp])
  | single :: rest, tmp, count, ip, port =>
    if single ≠ sharp then unpack rest (tmp ++ [single]) count ip port
    else if count % 2 = 0 then unpack rest [] (count + 1) (ip ++ [tmp]) port
    else unpack rest [] (count + 1) ip (port ++ [tmp])

/-- `initial`.  Its first loop never runs: `is_not_init` is true of no message. -/
def initial (c : Cache) (recvBuffInitial : Str) : Cache :=
  if recvBuffInitial = [] then { c with isInitialed := errorInit }
  else
    let (ip, port) := unpack recvBuffInitial [] 0 [] []
    if ip.length ≠ port.length then { c with isInitialed := errorInit }
    else { c with cacheList := c.cacheList ++ ip.zip port, isInitialed := successInit }

/-- `cache_list.erase(it)`, where `it` is the first entry equal to `pair`. -/
def eraseCache (c : Cache) (pair : Str × Str) : Option Cache :=
  if pair ∈ c.cacheList then some { c with cacheList := c.cacheList.erase pair } else none

/-- `update_cache`. -/
def updateCache (c : Cache) (ip port status : Str) : Option Cache := do
  let c ← (if status = lit "N" then
      if ip ≠ c.localCacheIP ∨ port ≠ c.portForCache then
        some { c with cacheList := c.cacheList ++ [(ip, port)] }
      else some c
    else if status = lit "K" then
      eraseCache { c with dyingCacheIP := ip, dyingCachePort := port } (ip, port)
    else some c)
  return { c with cacheListUpdateFlag := true }

/-- The index where the loop of `ReadFromMaster` stops, which starts at 2.  A message of one
character is read past its end. -/
def spearFrom2 (message : Str) : Option ℕ :=
  if message = [] then some 2
  else if message.length < 2 then none
  else some (2 + spear (message.drop 2))

/-- An `int` as the `size_t` it is converted to. -/
def toSize (i : ℤ) : ℕ := (i % 2 ^ 64).toNat

/-- `part`. -/
def part (str : Str) (spear : ℤ) (partNum : ℕ) : Option Str :=
  if partNum = 1 then substr str 2 (toSize (spear - 2))
  else substr str (toSize (spear + 1)) (toSize (str.length - spear - 1))

/-- The two branches `P` and `R` on the partner: `None`, or an address. -/
def setTarget (c : Cache) (message : Str) (spear : ℤ) : Option Cache := do
  let rest ← substr message 2 (toSize (message.length - 2))
  if rest = lit "None" then
    return { c with targetIP := lit "None", targetPort := lit "None" }
  else
    let targetIP ← part message spear 1
    let targetPort ← part message spear 2
    return { c with targetIP := targetIP, targetPort := targetPort }

/-- The branch `C`.  The inner `slice` flows off its end, so what its caller gets is not determined:
`flowOff` is any function.  The search for the entry changes copies. -/
def failover (flowOff : Str → ℤ) (c : Cache) (message : Str) (spear : ℤ) : Option Cache := do
  let origin ← part message spear 1
  let backup ← part message spear 2
  let ptr1 := flowOff origin
  let ptr2 := flowOff backup
  let _originIP ← part origin ptr1 1
  let _originPort ← part origin ptr1 2
  let _backupIP ← substr backup 0 (toSize ptr2)
  let _backupPort ← substr backup (toSize (ptr2 + 1)) (toSize (backup.length - ptr2 - 1))
  return c

/-- The branch `K`: a cache is shrunk.  The one that is concerned changes its status. -/
def dying (c : Cache) (message : Str) (spear : ℤ) : Option Cache := do
  let ip ← part message spear 1
  let port ← part message spear 2
  let c := { c with dyingCacheIP := ip, dyingCachePort := port }
  let c ← c.updateCache ip port (lit "K")
  if c.dyingCacheIP = c.localCacheIP ∧ c.dyingCachePort = c.portForCache then
    return { c with status := lit "K" }
  else return c

/-- `ReadFromMaster`. -/
def readFromMaster (flowOff : Str → ℤ) (c : Cache) (message : Str) : Option Cache := do
  let spear ← spearFrom2 message
  let head := message.take 1
  if c.status = lit "K" then return c
  else if head = lit "K" then c.dying message spear
  else if head = lit "N" then
    let ip ← part message spear 1
    let port ← part message spear 2
    c.updateCache ip port (lit "N")
  else if head = lit "P" then
    setTarget { c with status := head, prStatus := lit "P" } message spear
  else if head = lit "R" then setTarget { c with status := head } message spear
  else if head = lit "C" then c.failover flowOff message spear
  else if head = lit "D" then
    let ip ← part message spear 1
    let port ← part message spear 2
    c.eraseCache (ip, port)
  else return c

/-- The callback of `Heartbeat` on the message it has received: the first one of a primary is the
list of all caches. -/
def receive (flowOff : Str → ℤ) (c : Cache) (message : Str) : Option Cache :=
  if c.initialFlag then c.readFromMaster flowOff message
  else
    let c := c.initial message
    if c.isInitialed = successInit then some { c with initialFlag := true } else none

/-! ### Clients -/

/-- The address of the cache in its replies. -/
def address (c : Cache) : Str := c.localCacheIP ++ colon :: c.portForClient

/-- `LRU_handle_task`: the new state and the reply. -/
def lruHandleTask (c : Cache) (message : Str) : Option (Cache × Str) :=
  if spear message = message.length then
    if c.mainCache.check message then
      let (res, mainCache) := c.mainCache.get message
      some ({ c with mainCache := mainCache },
        lit "SUCCESS#" ++ message ++ sharp :: c.address ++ sharp :: res)
    else some (c, lit "FAILED#" ++ message ++ sharp :: c.address)
  else do
    let key ← substr message 0 (spear message)
    let val ← substr message (spear message + 1) message.length
    return ({ c with mainCache := (c.mainCache.put key val).2 },
      lit "SUCCESS#" ++ key ++ sharp :: c.address)

/-- `Client_chat` on a request: it is handled, and put where the replica is written to from. -/
def clientChat (c : Cache) (message : Str) : Option (Cache × Str) := do
  let (c, buffer) ← c.lruHandleTask message
  return ({ c with kvUpdateFlag := true, kvToReplica := message }, buffer)

/-! ### Migration -/

/-- The loop of `cal_hash_key`: the cache that each key goes to. -/
def targets (cacheHash : ConsistentHash) (caches : List Str) (keys : List Str) :
    Option (List (Str × Str)) :=
  keys.mapM fun key => do
    let point ← cacheHash.getServer key
    let idx ← cacheHash.key2Index.lookup point
    let targetCache ← caches[idx]?
    slice targetCache

/-- `cal_hash_key`, where `all_key` gives `keys`. -/
def calHashKey (c : Cache) (keys : List Str) : Option Cache := do
  let caches := c.cacheList.map fun it => it.1 ++ sharp :: it.2
  let cacheHash := ConsistentHash.initializeRing caches.length 100
  let others ← targets cacheHash caches keys
  return { c with
    otherIP := others.map Prod.fst
    otherPort := others.map Prod.snd
    outKey := keys }

/-- `to_single_cache`: the message that is sent. -/
def toSingleCache (c : Cache) (key : Str) : Str × Cache :=
  let (val, mainCache) := c.mainCache.get key
  (key ++ sharp :: val, { c with mainCache := mainCache })

/-- `from_single_cache` from the message on that it receives. -/
def fromSingleCache (c : Cache) (message : Str) : Option Cache := do
  let (key, val) ← slice message
  return { c with mainCache := (c.mainCache.put key val).2 }

end Cache

end DistCache
