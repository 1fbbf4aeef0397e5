import TitanX.Model.MatchingEngine

/-!
# The position cache

`titanx/persistence/RedisPositionCache`, the part that keeps positions, with Redis as a map
from keys to integers: `INCRBY` adds to the value of a key and counts an absent one as 0. The
connection is there and no command fails.

The key goes into the command as `%s` with `key.c_str()`, so what Redis sees ends before
the first NUL.
-/

namespace TitanX

/-- What a C function reads of a `std::string` passed by `c_str()`. -/
def cString (s : String) : String := String.ofList (s.toList.takeWhile (· ≠ Char.ofNat 0))

structure RedisPositionCache where
  redis : Finmap (fun _ : String => Int)

namespace RedisPositionCache

def initial : RedisPositionCache := ⟨∅⟩

def positionKey (accountId symbol : String) : String := "pos:" ++ accountId ++ ":" ++ symbol

def getPosition (c : RedisPositionCache) (accountId symbol : String) : Int :=
  (c.redis.lookup (cString (positionKey accountId symbol))).getD 0

def updatePosition (c : RedisPositionCache) (accountId symbol : String) (delta : Int) :
    RedisPositionCache :=
  let key := cString (positionKey accountId symbol)
  ⟨c.redis.insert key ((c.redis.lookup key).getD 0 + delta)⟩

/-- What the fill consumer of `main.cpp` does with the cache. -/
def consumeFill (c : RedisPositionCache) (trade : Trade) : RedisPositionCache :=
  let delta := RiskEngine.fillDelta trade.aggressorSide trade.quantity
  (c.updatePosition trade.aggressorAccountId trade.symbol delta).updatePosition
    trade.passiveAccountId trade.symbol (wrap64 (-delta))

end RedisPositionCache

end TitanX
