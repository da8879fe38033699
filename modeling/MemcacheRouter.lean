import MemcacheRouter.Foundations.Transition
import MemcacheRouter.Foundations.Rounding
import MemcacheRouter.Foundations.LossyMap
import MemcacheRouter.Foundations.Framing
import MemcacheRouter.Foundations.Locking
import MemcacheRouter.Foundations.Monitor
import MemcacheRouter.Foundations.Places
import MemcacheRouter.Foundations.OrderedMap
import MemcacheRouter.Foundations.ShortestPrefix
import MemcacheRouter.Foundations.Recency
import MemcacheRouter.Foundations.TaggedFields
import MemcacheRouter.Foundations.WireFormat
import MemcacheRouter.Foundations.ExpiringMap
import MemcacheRouter.Wire.Message
import MemcacheRouter.Wire.Memdata
import MemcacheRouter.Wire.RoundTrip
import MemcacheRouter.Wire.Canonical
import MemcacheRouter.Cache.Lru
import MemcacheRouter.Cache.WellFormed
import MemcacheRouter.Cache.Index
import MemcacheRouter.Cache.Latest
import MemcacheRouter.Cache.Accounting
import MemcacheRouter.Cache.Capacity
import MemcacheRouter.Cache.Eviction
import MemcacheRouter.Cache.Order
import MemcacheRouter.Cache.Refill
import MemcacheRouter.Cache.Exact
import MemcacheRouter.Cache.Threads
import MemcacheRouter.Memcached.Store
import MemcacheRouter.Client.MemClient
import MemcacheRouter.Client.Answers
import MemcacheRouter.Client.Agreement
import MemcacheRouter.Client.Interleaving
import MemcacheRouter.Client.Tokens
import MemcacheRouter.Client.Filling
import MemcacheRouter.Router.Servers
import MemcacheRouter.Router.PCQueue
import MemcacheRouter.Router.Batches
import MemcacheRouter.Router.Sequential
import MemcacheRouter.Router.Loop
import MemcacheRouter.Router.Conservation
import MemcacheRouter.Router.Restart
import MemcacheRouter.Router.Service
import MemcacheRouter.Router.Serving
import MemcacheRouter.Cmrclient.Calls
import MemcacheRouter.Cmrclient.Counters
import MemcacheRouter.Cmrclient.Inflate
import MemcacheRouter.Cmrclient.Values
import MemcacheRouter.Cmrclient.Results
import MemcacheRouter.Cmrclient.Dictionary
import MemcacheRouter.Cmrclient.Concurrent
import MemcacheRouter.Wire.Transport
import MemcacheRouter.Routerlib.Protocol
import MemcacheRouter.Router.Statistics
import MemcacheRouter.Routerlib.ReadLoop
import MemcacheRouter.Routerlib.Pipeline
import MemcacheRouter.Routerlib.Pending
import MemcacheRouter.Routerlib.Blocking
import MemcacheRouter.Routerlib.Shutdown
import MemcacheRouter.Routerlib.Completion
import MemcacheRouter.Routerlib.Termination
import MemcacheRouter.Routerlib.Send
import MemcacheRouter.Routerlib.Progress
import MemcacheRouter.ConsistentHash.Ring
import MemcacheRouter.ConsistentHash.Routing
