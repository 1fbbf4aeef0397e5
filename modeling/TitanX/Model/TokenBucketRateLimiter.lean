import TitanX.Model.Order
import Mathlib.Data.Finmap
import Mathlib.Logic.Function.Basic

/-!
# The rate limiter

`titanx/gateway/TokenBucketRateLimiter`: a bucket of tokens for every account and endpoint,
refilled by the time that has passed. All times are milliseconds of the steady clock.

`TokenBucket.tryConsume` is a call that no other thread disturbs: its compare-exchange can
only fail spuriously, and then the loop tries again. The second half of the file has the
call as the threads run it, one atomic access of `tokens` or `lastRefillTimeMs` at a time.
-/

namespace TitanX

/-- What `duration_cast<milliseconds>(steady_clock::now().time_since_epoch()).count()` can
be: the clock counts nanoseconds in 64 bits. -/
structure SteadyMs where
  count : Int
  lo : -9223372036854 ≤ count
  hi : count ≤ 9223372036854
  deriving DecidableEq

structure TokenBucket where
  capacity : Int
  refillPerSecond : Int
  tokens : Int
  lastRefillTimeMs : Int
  deriving DecidableEq

namespace TokenBucket

/-- The constructor, at the time `nowMs`. -/
def create (cap refill nowMs : Int) : TokenBucket := ⟨cap, refill, cap, nowMs⟩

/-- The whole tokens that `elapsed` milliseconds are worth. -/
def tokensToAdd (b : TokenBucket) (elapsed : Int) : Int :=
  div64 (wrap64 (elapsed * b.refillPerSecond)) 1000

/-- What `refill` stores in `tokens`. -/
def updated (b : TokenBucket) (current tokensToAdd : Int) : Int :=
  min b.capacity (wrap64 (current + tokensToAdd))

def refill (b : TokenBucket) (nowMs : Int) : TokenBucket :=
  let elapsed := wrap64 (nowMs - b.lastRefillTimeMs)
  if elapsed ≤ 0 then b
  else
    let tokensToAdd := b.tokensToAdd elapsed
    if tokensToAdd > 0 then
      { b with tokens := b.updated b.tokens tokensToAdd, lastRefillTimeMs := nowMs }
    else b

def tryConsume (b : TokenBucket) (nowMs : Int) : TokenBucket × Bool :=
  let b := b.refill nowMs
  if b.tokens > 0 then ({ b with tokens := b.tokens - 1 }, true) else (b, false)

def secondsUntilRefill (b : TokenBucket) (nowMs : Int) : Int :=
  if b.tokensToAdd (wrap64 (nowMs - b.lastRefillTimeMs)) > 0 then 0 else 1

end TokenBucket

/-! ## The limiter -/

structure TokenBucketRateLimiter where
  buckets : Finmap (fun _ : String => TokenBucket)

/-- A call of `tryAcquire`, with what it reads of the clock. -/
structure AcquireCall where
  accountId : String
  endpoint : String
  /-- The time at which a bucket is created, if the call finds none. -/
  createdMs : SteadyMs
  /-- The time of the `refill`. -/
  nowMs : SteadyMs

namespace TokenBucketRateLimiter

def standardCapacity : Int := 100

def standardRefillRate : Int := 100

def initial : TokenBucketRateLimiter := ⟨∅⟩

def bucketKey (accountId endpoint : String) : String := accountId ++ ":" ++ endpoint

/-- The bucket of a key, created if there is none. -/
def findOrCreate (l : TokenBucketRateLimiter) (key : String) (createdMs : Int) : TokenBucket :=
  (l.buckets.lookup key).getD
    (TokenBucket.create standardCapacity standardRefillRate createdMs)

def tryAcquire (l : TokenBucketRateLimiter) (call : AcquireCall) : TokenBucketRateLimiter × Bool :=
  let key := bucketKey call.accountId call.endpoint
  let (bucket, acquired) := (l.findOrCreate key call.createdMs.count).tryConsume call.nowMs.count
  (⟨l.buckets.insert key bucket⟩, acquired)

def retryAfterSeconds (l : TokenBucketRateLimiter) (accountId endpoint : String) (nowMs : SteadyMs) :
    Int :=
  match l.buckets.lookup (bucketKey accountId endpoint) with
  | none => 0
  | some bucket => bucket.secondsUntilRefill nowMs.count

end TokenBucketRateLimiter

/-! ## Threads on one bucket -/

namespace TokenBucket

/-- What a thread in `tryConsume` does next, with its local variables. -/
inductive Stage where
  /-- Not in a call; the next one begins with the reading of the clock. -/
  | idle
  | loadLast (nowMs : Int)
  | loadTokens (nowMs lastMs tokensToAdd : Int)
  | storeTokens (nowMs lastMs tokensToAdd current : Int)
  | storeLast (nowMs : Int)
  /-- Back in `tryConsume`. -/
  | loadCurrent
  | exchange (current : Int)
  deriving DecidableEq

/-- `while (current > 0)` -/
def Stage.loop (current : Int) : Stage := if current > 0 then .exchange current else .idle

/-- `n` threads on one bucket. -/
structure Threads (n : Nat) where
  bucket : TokenBucket
  clock : SteadyMs
  stages : Fin n → Stage
  /-- The calls that have returned `true`. -/
  successes : Nat

/-- A bucket of the limiter that has just been created, and no thread in a call. -/
def Threads.initial (n : Nat) (c : SteadyMs) : Threads n where
  bucket := .create TokenBucketRateLimiter.standardCapacity TokenBucketRateLimiter.standardRefillRate
    c.count
  clock := c
  stages := fun _ => .idle
  successes := 0

inductive Action (n : Nat) where
  /-- Time passes. -/
  | tick (time : SteadyMs)
  /-- A thread takes its next step. `compare_exchange_weak` may fail for no reason. -/
  | step (thread : Fin n) (spurious : Bool)
  deriving DecidableEq

namespace Threads

variable {n : Nat}

def goto (m : Threads n) (i : Fin n) (stage : Stage) : Threads n :=
  { m with stages := Function.update m.stages i stage }

def setTokens (m : Threads n) (tokens : Int) : Threads n :=
  { m with bucket := { m.bucket with tokens } }

def setLastRefillTimeMs (m : Threads n) (lastRefillTimeMs : Int) : Threads n :=
  { m with bucket := { m.bucket with lastRefillTimeMs } }

/-- The next step of the thread `i`. -/
def advance (m : Threads n) (i : Fin n) (spurious : Bool) : Threads n :=
  match m.stages i with
  | .idle => m.goto i (.loadLast m.clock.count)
  | .loadLast nowMs =>
      let lastMs := m.bucket.lastRefillTimeMs
      let elapsed := wrap64 (nowMs - lastMs)
      if elapsed ≤ 0 then m.goto i .loadCurrent
      else
        let tokensToAdd := m.bucket.tokensToAdd elapsed
        if tokensToAdd > 0 then m.goto i (.loadTokens nowMs lastMs tokensToAdd)
        else m.goto i .loadCurrent
  | .loadTokens nowMs lastMs tokensToAdd =>
      m.goto i (.storeTokens nowMs lastMs tokensToAdd m.bucket.tokens)
  | .storeTokens nowMs _ tokensToAdd current =>
      (m.setTokens (m.bucket.updated current tokensToAdd)).goto i (.storeLast nowMs)
  | .storeLast nowMs => (m.setLastRefillTimeMs nowMs).goto i .loadCurrent
  | .loadCurrent => m.goto i (.loop m.bucket.tokens)
  | .exchange current =>
      if m.bucket.tokens = current ∧ spurious = false then
        { (m.setTokens (current - 1)).goto i .idle with successes := m.successes + 1 }
      else
        -- the failed exchange has loaded the value it found
        m.goto i (.loop m.bucket.tokens)

def step (m : Threads n) : Action n → Threads n × Unit
  | .tick time => (if m.clock.count ≤ time.count then { m with clock := time } else m, ())
  | .step i spurious => (m.advance i spurious, ())

end Threads

end TokenBucket

end TitanX
