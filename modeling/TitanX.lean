import TitanX.Lib.OrdMap
import TitanX.Lib.OrdMapRel
import TitanX.Lib.PriorityQueue
import TitanX.Lib.Footprint
import TitanX.Lib.Greedy
import TitanX.Lib.Run
import TitanX.Lib.Mutex
import TitanX.Lib.Separated
import TitanX.Lib.Binary64
import TitanX.Lib.Hex
import TitanX.Lib.Json
import TitanX.Model.Order
import TitanX.Model.OrderBook
import TitanX.Model.CircuitBreaker
import TitanX.Model.RiskEngine
import TitanX.Model.MatchingEngine
import TitanX.Model.Concurrent
import TitanX.Model.EventStore
import TitanX.Model.RedisPositionCache
import TitanX.Model.HttpServer
import TitanX.Model.JwtTokenService
import TitanX.Model.TokenBucketRateLimiter
import TitanX.Model.LockFree
import TitanX.Model.JavaBook
import TitanX.Model.Price
import TitanX.Model.MarketData
import TitanX.Model.Gateway
import TitanX.Model.JavaBreaker
import TitanX.Model.Uuid
import TitanX.Model.EventTable
import TitanX.Model.EventJson
import TitanX.Proof.Sweep
import TitanX.Proof.BookInv
import TitanX.Proof.Match
import TitanX.Proof.BookRun
import TitanX.Proof.Crossing
import TitanX.Proof.Cancel
import TitanX.Proof.Conserve
import TitanX.Proof.Priority
import TitanX.Proof.Breaker
import TitanX.Proof.Risk
import TitanX.Proof.Engine
import TitanX.Proof.EngineRun
import TitanX.Proof.Ledger
import TitanX.Proof.Exposure
import TitanX.Proof.Steps
import TitanX.Proof.Interleave
import TitanX.Proof.Sequential
import TitanX.Proof.SelfTrade
import TitanX.Proof.Stops
import TitanX.Proof.JavaSim
import TitanX.Proof.JavaRefine
import TitanX.Proof.LockFree
import TitanX.Proof.Window
import TitanX.Proof.Untimed
import TitanX.Proof.Delivery
import TitanX.Proof.OneLife
import TitanX.Proof.Independence
import TitanX.Proof.PositionLimit
import TitanX.Proof.Events
import TitanX.Proof.Replay
import TitanX.Proof.Truthful
import TitanX.Proof.EventStore
import TitanX.Proof.KillSwitch
import TitanX.Proof.Notional
import TitanX.Proof.PositionKeys
import TitanX.Proof.Ownership
import TitanX.Proof.Immediate
import TitanX.Proof.Allocation
import TitanX.Proof.Whole
import TitanX.Proof.Depth
import TitanX.Proof.Stale
import TitanX.Proof.StaleRun
import TitanX.Proof.Splitting
import TitanX.Proof.FatFinger
import TitanX.Proof.Projection
import TitanX.Proof.Cascade
import TitanX.Proof.Reported
import TitanX.Proof.RateLimit
import TitanX.Proof.RefillCredit
import TitanX.Proof.Overdraw
import TitanX.Proof.Permissions
import TitanX.Proof.Linear
import TitanX.Proof.Settlement
import TitanX.Proof.OneSided
import TitanX.Proof.Lockout
import TitanX.Proof.Price
import TitanX.Proof.MarketData
import TitanX.Proof.Quote
import TitanX.Proof.Gateway
import TitanX.Proof.RetryAfter
import TitanX.Proof.Sessions
import TitanX.Proof.JavaBreaker
import TitanX.Proof.Uuid
import TitanX.Proof.EventTable
import TitanX.Proof.EventJson
