import DistCache.Lib.Transition
import DistCache.Lib.Clockwise
import DistCache.Lib.Faults
import DistCache.Lib.MapLoop
import DistCache.Lib.Matching
import DistCache.Lib.Pending
import DistCache.Lib.Inbox
import DistCache.Lib.LinkedList
import DistCache.Lib.Threads
import DistCache.Lib.Words
import DistCache.Lib.While
import DistCache.Lib.Sweep
import DistCache.Lib.Succession
import DistCache.Lib.Recency
import DistCache.Text
import DistCache.Split
import DistCache.ConsistentHash
import DistCache.Murmur
import DistCache.Search
import DistCache.RingHistory
import DistCache.Master.State
import DistCache.Master.Steps
import DistCache.Master.World
import DistCache.Master.Registered
import DistCache.Master.RingInv
import DistCache.Master.Pairing
import DistCache.Master.Passes
import DistCache.Master.Lookups
import DistCache.Master.NoPrimary
import DistCache.Master.Fields
import DistCache.Master.Waiting
import DistCache.Master.Idle
import DistCache.Master.Addresses
import DistCache.Master.Routing
import DistCache.Master.Takeover
import DistCache.Master.Answers
import DistCache.Master.Threads
import DistCache.Master.Interleaving
import DistCache.Master.Serial
import DistCache.Cache.Lru
import DistCache.Cache.LruNodes
import DistCache.Cache.SetCapacity
import DistCache.Cache.Inclusion
import DistCache.Cache.LateRead
import DistCache.Cache.State
import DistCache.Cache.Messages
import DistCache.Cache.CacheList
import DistCache.Cache.Initial
import DistCache.Cache.Malformed
import DistCache.Cache.Pass
import DistCache.Cache.Migration
import DistCache.Cache.Arrivals
import DistCache.Cache.Capacity
import DistCache.Cache.Replica
import DistCache.Cache.Entries
import DistCache.Cache.Replication
import DistCache.Cache.Handover
import DistCache.Cache.ThreadPool
import DistCache.Cache.ChatPool
import DistCache.Cluster
import DistCache.Targets
import DistCache.Relocation
import DistCache.Client.LocalLru
import DistCache.Client.LocalNodes
import DistCache.Client.Agreement
import DistCache.Client.Requests
import DistCache.Client.Reuse
import DistCache.Client.State
import DistCache.Client.Retransmission
import DistCache.Client.Fields
import DistCache.Client.RequestMap
import DistCache.Client.MainLoop
import DistCache.Client.Workload
import DistCache.Timers.State
import DistCache.Timers.Schedule
import DistCache.Timers.NeverStarted
import DistCache.Failover
import DistCache.Sends
import DistCache.Recovery
import DistCache.Backlog
import DistCache.Buffers
import DistCache.Endpoint
import DistCache.Fleet.State
import DistCache.Fleet.Held
import DistCache.Fleet.Reads
import DistCache.Fleet.Progress
import DistCache.Fleet.Failovers
