import Mathlib.Data.Finset.Basic
import DistCache.ConsistentHash

/-!
The master: its tables, and what its threads do to them.

Every function of the source that reads `caches_list[fd]->…` dereferences a null pointer when
`fd` is no key (`operator[]` has just inserted the null).  No entry is null otherwise, so the map
holds the records themselves, and `none` is the null dereference, as it is for an index or an
iterator out of range and for an exception.  The messages that a function sends and the
descriptors that it closes are returned beside the new tables, in the order of the source.
-/

namespace DistCache

open Lib

/-- The status `'P'` of a primary. -/
def statusP : UInt8 := 80
/-- The status `'R'` of a backup. -/
def statusR : UInt8 := 82

/-- `fdmap`, what the master knows of a connection. -/
structure FdMap where
  status : UInt8
  fd : ℤ
  pairFd : ℤ
  /-- `IP#PORT` for clients. -/
  ipPort : Str
  /-- `IP#PORT` for caches. -/
  ipCache : Str
  deriving DecidableEq

/-- The address of a connection from which no heartbeat has come. -/
def noAddr : Str := lit "0"

/-- `fdmap(fd)`, the record made when a connection is accepted. -/
def FdMap.new (fd : ℤ) : FdMap := ⟨110, fd, -1, noAddr, noAddr⟩

/-- The record once the first heartbeat has told the addresses and the role. -/
def FdMap.register (it : FdMap) (ip portClient portCache : Str) (status : UInt8) : FdMap :=
  { it with
    status := status
    ipPort := ip ++ sharp :: portClient
    ipCache := ip ++ sharp :: portCache }

/-- The tables of `Master`.  The top of a stack is the head of its list. -/
structure Master where
  cacheAddrHash : ConsistentHash
  cacheAddrMap : Map Str ℤ
  cachesList : Map ℤ FdMap
  fdNode : List ℤ
  pcache : List ℤ
  rcache : List ℤ

/-- What a piece of a thread leaves: the tables, the messages sent, the descriptors closed. -/
structure Out where
  master : Master
  sends : List (ℤ × Str) := []
  closed : List ℤ := []

/-- The locals of `shrinkageCapacity` that live across its wait. -/
structure Shrink where
  fd : ℤ
  cacheServerAddr : Str

namespace Master

/-- `Master::Start`. -/
def start : Master := ⟨ConsistentHash.initializeRing 0 100, ∅, ∅, [], [], []⟩

/-- `heartBeatInterval`. -/
def heartBeatInterval : ℤ := 5

/-- `caches_list[fd]->pair_fd = pair`. -/
def setPairFd (m : Master) (fd pair : ℤ) : Option Master := do
  let e ← m.cachesList.lookup fd
  return { m with cachesList := m.cachesList.insert fd { e with pairFd := pair } }

/-- `caches_list[fd]->status = status`. -/
def setStatus (m : Master) (fd : ℤ) (status : UInt8) : Option Master := do
  let e ← m.cachesList.lookup fd
  return { m with cachesList := m.cachesList.insert fd { e with status := status } }

/-- `heartBeatDetect`. -/
def heartBeatDetect (m : Master) (timeNow fd : ℤ) : Option Bool := do
  let e ← m.cachesList.lookup fd
  return decide (timeNow - (m.cacheAddrMap.lookup e.ipPort).getD 0 < heartBeatInterval)

/-! ### Clients -/

/-- The index into `fd_node` that the ring gives for a key.  The point that `GetServer` returns is
in `key2Index`, so the `operator[]` of the source inserts nothing. -/
def lookupIndex (m : Master) (key : Str) : Option ℕ := do
  let virNode ← m.cacheAddrHash.getServer key
  m.cacheAddrHash.key2Index.lookup virNode

/-- The descriptor that `handleClientMessage` routes a key to. -/
def lookupFd (m : Master) (key : Str) : Option ℤ := do
  let index ← m.lookupIndex key
  m.fdNode[index]?

/-- `handleClientMessage`: the address `ip:port` sent to the client. -/
def handleClientMessage (m : Master) (msg : Str) : Option Str := do
  let fd ← m.lookupFd msg
  let e ← m.cachesList.lookup fd
  let vtstr := splitSharp e.ipPort
  let ip ← vtstr[0]?
  let port ← vtstr[1]?
  return ip ++ colon :: port

/-! ### Connections and heartbeats: `start_cache` -/

/-- A connection is accepted. -/
def accept (m : Master) (fd : ℤ) : Master :=
  { m with cachesList := m.cachesList.insert fd (FdMap.new fd) }

/-- The two assignments that pair `fd` with the cache that waits on top of a stack. -/
def pairUp (m : Master) (fd top : ℤ) : Option Master := do
  let m ← m.setPairFd fd top
  m.setPairFd top fd

/-- A primary takes the backup that waits on top of `rcache`, or waits itself. -/
def pairPrimary (m : Master) (fd : ℤ) : Option Master :=
  match m.rcache with
  | top :: rest => (m.pairUp fd top).map fun m => { m with rcache := rest }
  | [] => some { m with pcache := fd :: m.pcache }

/-- A backup takes the primary that waits on top of `pcache`, or waits itself. -/
def pairReplica (m : Master) (fd : ℤ) : Option Master :=
  match m.pcache with
  | top :: rest => (m.pairUp fd top).map fun m => { m with pcache := rest }
  | [] => some { m with rcache := fd :: m.rcache }

/-- The branch of a primary: it enters `fd_node` and the ring, is paired or waits, is told all
addresses, and is announced to all primaries. -/
def joinPrimary (m : Master) (fd : ℤ) : Option Out := do
  let m := { m with fdNode := m.fdNode ++ [fd] }
  let m ← m.pairPrimary fd
  let index := m.fdNode.length - 1
  let m := { m with cacheAddrHash := m.cacheAddrHash.addNode index }
  let fd ← m.fdNode[index]?
  let e ← m.cachesList.lookup fd
  let addrs ← m.fdNode.mapM fun fdi => (m.cachesList.lookup fdi).map FdMap.ipCache
  let allcache := (addrs.flatMap fun a => sharp :: a).drop 1
  let extendmsg := lit "N#" ++ e.ipCache
  return { master := m, sends := (fd, allcache) :: m.fdNode.map fun fdi => (fdi, extendmsg) }

/-- The branch of a backup. -/
def joinReplica (m : Master) (fd : ℤ) : Option Out := do
  let m ← m.pairReplica fd
  return { master := m }

/-- The first heartbeat of a connection. -/
def firstHeartbeat (m : Master) (fd : ℤ) (vtmsg : List Str) : Option Out := do
  let it ← m.cachesList.lookup fd
  let ip ← vtmsg[1]?
  let portClient ← vtmsg[2]?
  let portCache ← vtmsg[3]?
  let role ← vtmsg[4]?
  let status ← role.head?
  let e := it.register ip portClient portCache status
  let m := { m with cachesList := m.cachesList.insert fd e }
  if role = lit "P" then m.joinPrimary fd
  else if role = lit "R" then m.joinReplica fd
  else return { master := m }

/-- The answer to a heartbeat: the status and the address of the partner. -/
def reply (m : Master) (fd : ℤ) : Option Str := do
  let it ← m.cachesList.lookup fd
  if it.pairFd > -1 then do
    let e ← m.cachesList.lookup it.pairFd
    return it.status :: sharp :: e.ipCache
  else return it.status :: sharp :: lit "None"

/-- `handleHeartBeatResponse`: the time of the heartbeat is kept under the address in it. -/
def handleHeartBeatResponse (m : Master) (timeNow : ℤ) (msg : Str) : Option Master := do
  let vtmsg := splitSharp msg
  let ip ← vtmsg[1]?
  let port ← vtmsg[2]?
  return { m with cacheAddrMap := m.cacheAddrMap.insert (ip ++ sharp :: port) timeNow }

/-- The branch of `start_cache` for a message that begins with `'x'`. -/
def heartbeat (m : Master) (timeNow fd : ℤ) (msg : Str) : Option Out := do
  let it ← m.cachesList.lookup fd
  let out ← (if it.ipPort = noAddr then m.firstHeartbeat fd (splitSharp msg)
    else some { master := m })
  let answer ← out.master.reply fd
  let m ← out.master.handleHeartBeatResponse timeNow msg
  return { master := m, sends := out.sends ++ [(fd, answer)] }

/-- `start_cache` on a message: other messages are read and dropped. -/
def receive (m : Master) (timeNow fd : ℤ) (msg : Str) : Option Out :=
  if msg.head? = some 120 then m.heartbeat timeNow fd msg else some { master := m }

/-! ### Deaths: `periodicDetectCache` -/

/-- `addr.replace(addr.find("#"), 1, ":")`, which throws when there is no `'#'`. -/
def sharpToColon (addr : Str) : Option Str :=
  if sharp ∈ addr then
    some (addr.takeWhile (· ≠ sharp) ++ colon :: (addr.dropWhile (· ≠ sharp)).drop 1)
  else none

/-- A backup is dead: its primary is unpaired and waits. -/
def deadReplica (m : Master) (fd : ℤ) : Option Out := do
  let e ← m.cachesList.lookup fd
  let m ← m.setPairFd e.pairFd (-1)
  let e ← m.cachesList.lookup fd
  return { master := { m with pcache := e.pairFd :: m.pcache }, closed := [fd] }

/-- A primary with a backup is dead: the backup takes its place in `fd_node`, becomes a primary
and waits. -/
def deadPaired (m : Master) (fd : ℤ) : Option Out := do
  let e ← m.cachesList.lookup fd
  let b ← m.cachesList.lookup e.pairFd
  let m := { m with fdNode := m.fdNode.set (m.fdNode.idxOf fd) e.pairFd }
  let str1 ← sharpToColon e.ipCache
  let str2 ← sharpToColon b.ipCache
  let toAllCacheMsg := lit "C#" ++ str1 ++ sharp :: str2
  let sends := m.fdNode.map fun fdi => (fdi, toAllCacheMsg)
  let m ← m.setPairFd e.pairFd (-1)
  let e ← m.cachesList.lookup fd
  let m ← m.setStatus e.pairFd statusP
  let e ← m.cachesList.lookup fd
  return { master := { m with pcache := e.pairFd :: m.pcache }, sends := sends, closed := [fd] }

/-- A primary without a backup is dead: it leaves `fd_node` and the ring. -/
def deadAlone (m : Master) (fd : ℤ) : Option Out := do
  let e ← m.cachesList.lookup fd
  let m := if fd ∈ m.fdNode then
      { m with
        fdNode := m.fdNode.erase fd
        cacheAddrHash := m.cacheAddrHash.deleteNode (m.fdNode.idxOf fd) }
    else m
  let toAllCacheDeleteMsg := lit "D#" ++ e.ipCache
  return { master := m, sends := m.fdNode.map fun fdi => (fdi, toAllCacheDeleteMsg), closed := [fd] }

/-- The three branches of a dead cache. -/
def dead (m : Master) (fd : ℤ) : Option Out := do
  let e ← m.cachesList.lookup fd
  if e.status = statusR then m.deadReplica fd
  else if e.status = statusP then
    if e.pairFd > 0 then m.deadPaired fd else m.deadAlone fd
  else return { master := m }

/-- The loop body of `periodicDetectCache` at the entry `key`, and the erasure after the loop when
the cache is found dead.  The order of an `unordered_map` is not specified, so a pass can handle
any one of the dead caches. -/
def periodicDetectCache (m : Master) (timeNow key : ℤ) : Option Out := do
  let itcache ← m.cachesList.lookup key
  let fd := itcache.fd
  let alive ← m.heartBeatDetect timeNow fd
  if alive then return { master := m }
  else do
    let out ← m.dead fd
    if fd > 0 then
      return { out with
        master := { out.master with cachesList := out.master.cachesList.erase fd } }
    else return out

/-! ### Shrinking: `shrinkageCapacity` -/

/-- `shrinkageCapacity` up to the broadcast, when `'s'` is typed and there is a primary. -/
def shrinkBegin (m : Master) : Option (Out × Shrink) := do
  let index := m.fdNode.length - 1
  let m := { m with cacheAddrHash := m.cacheAddrHash.deleteNode index }
  let fd ← m.fdNode[index]?
  let e ← m.cachesList.lookup fd
  let shrinkmsg := lit "K#" ++ e.ipCache
  return ({ master := m, sends := m.fdNode.map fun fdi => (fdi, shrinkmsg) }, ⟨fd, e.ipCache⟩)

/-- The backup of the primary that is shrunk is forgotten, and its connection closed.  The second
reading of `pair_fd` is after the erasure. -/
def erasePair (m : Master) (fd : ℤ) : Option Out := do
  let e ← m.cachesList.lookup fd
  if e.pairFd > 0 then do
    let m := { m with cachesList := m.cachesList.erase e.pairFd }
    let e ← m.cachesList.lookup fd
    return { master := m, closed := [e.pairFd] }
  else return { master := m }

/-- `shrinkageCapacity` after its wait. -/
def shrinkEnd (m : Master) (fd : ℤ) : Option Out := do
  let out ← m.erasePair fd
  let m := out.master
  if m.fdNode = [] then none
  else
    return {
      master := { m with fdNode := m.fdNode.dropLast, cachesList := m.cachesList.erase fd }
      closed := out.closed ++ [fd] }

end Master

end DistCache
