import TitanX.Model.CircuitBreaker

/-!
# The risk engine

`titanx/risk/RiskEngine`: six checks before an order is admitted, and the state they
read. Each check is a predicate of its own here; `checkOrder` runs them in the order
of the source, and the order matters: the id is entered in `seenOrderIds` by the
second check, whatever the later ones say.

The first check asks the circuit breaker and may wait for its mutex. The engine's own
`mutex_` is taken by methods that do not call one another, so in a run of calls made
one after the other it is free whenever the breaker's is, and it is not modelled.
-/

namespace TitanX

structure RiskResult where
  approved : Bool
  reason : String
  deriving DecidableEq, Repr

def RiskResult.approve : RiskResult := ⟨true, ""⟩

def RiskResult.rejected (reason : String) : RiskResult := ⟨false, reason⟩

structure RiskEngine where
  /-- Account to symbol to net position. -/
  positions : Finmap (fun _ : String => Finmap (fun _ : String => Int))
  activeBuyOrders : Finmap (fun _ : String => Finset String)
  activeSellOrders : Finmap (fun _ : String => Finset String)
  seenOrderIds : Finset String
  lastTradePrices : Finmap (fun _ : String => Int)
  totalChecked : UInt64
  totalRejected : UInt64
  circuitBreaker : Guarded CircuitBreaker

namespace RiskEngine

def maxPositionShares : Int := 10000

/-- `5'000'000LL * PRICE_SCALE`. -/
def maxNotionalFixed : Int := 5000000 * 100000000

def fatFingerBps : Int := 1000

def initial : RiskEngine := ⟨∅, ∅, ∅, ∅, ∅, 0, 0, CircuitBreaker.initial⟩

/-! ## Queries -/

def getNetPosition (r : RiskEngine) (accountId symbol : String) : Int :=
  ((r.positions.lookup accountId).bind (fun bySymbol => bySymbol.lookup symbol)).getD 0

/-- `activeBuyOrders_` or `activeSellOrders_`. -/
def active (r : RiskEngine) : OrderSide → Finmap (fun _ : String => Finset String)
  | .buy => r.activeBuyOrders
  | .sell => r.activeSellOrders

def activeOrders (r : RiskEngine) (side : OrderSide) (accountId : String) : Finset String :=
  ((r.active side).lookup accountId).getD ∅

/-! ## The checks -/

def notionalExceeded (order : Order) : Bool :=
  order.price > 0 && wrap64 (order.price * order.quantity) > maxNotionalFixed

def projectedPosition (netPos : Int) (order : Order) : Int :=
  if order.isBuy then wrap64 (netPos + order.quantity) else wrap64 (netPos - order.quantity)

def positionExceeded (r : RiskEngine) (order : Order) : Bool :=
  abs64 (projectedPosition (r.getNetPosition order.accountId order.symbol) order)
    > maxPositionShares

def deviationBps (lastPrice price : Int) : Int := moveBps lastPrice price

def fatFinger (r : RiskEngine) (order : Order) : Bool :=
  order.price > 0 &&
    match r.lastTradePrices.lookup order.symbol with
    | some lastPrice => lastPrice > 0 && deviationBps lastPrice order.price > fatFingerBps
    | none => false

/-- The account has an active order on the other side, on whatever symbol. -/
def selfTrade (r : RiskEngine) (order : Order) : Bool :=
  r.activeOrders order.side.opposite order.accountId ≠ ∅

def trackOrder (r : RiskEngine) (order : Order) : RiskEngine :=
  let ids := insert order.orderId (r.activeOrders order.side order.accountId)
  match order.side with
  | .buy => { r with activeBuyOrders := r.activeBuyOrders.insert order.accountId ids }
  | .sell => { r with activeSellOrders := r.activeSellOrders.insert order.accountId ids }

def reject (r : RiskEngine) (reason : String) : RiskResult × RiskEngine :=
  (.rejected reason, { r with totalRejected := r.totalRejected + 1 })

/-- The checks, given the answer of the circuit breaker. -/
def checkOrder (r : RiskEngine) (halted : Bool) (order : Order) : RiskResult × RiskEngine :=
  if halted then r.reject "CIRCUIT_BREAKER_HALT"
  else if order.orderId ∈ r.seenOrderIds then r.reject "DUPLICATE_ORDER_ID"
  else
    let r' := { r with seenOrderIds := insert order.orderId r.seenOrderIds }
    if notionalExceeded order then r'.reject "NOTIONAL_LIMIT_EXCEEDED"
    else if r'.positionExceeded order then r'.reject "POSITION_LIMIT_EXCEEDED"
    else if r'.fatFinger order then r'.reject "FAT_FINGER_PRICE_DEVIATION"
    else if r'.selfTrade order then r'.reject "SELF_TRADE_PREVENTION"
    else (.approve, r'.trackOrder order)

def checkPreTrade (r : RiskEngine) (order : Order) : Outcome RiskEngine RiskResult :=
  let r' := { r with totalChecked := r.totalChecked + 1 }
  ((CircuitBreaker.isHalted r'.circuitBreaker order.symbol).mapState
      (fun cb => { r' with circuitBreaker := cb })).andThen
    (fun halted r'' => .returned (r''.checkOrder halted order).1 (r''.checkOrder halted order).2)

/-! ## After a trade -/

/-- The `delta` of a fill. -/
def fillDelta (side : OrderSide) (quantity : Int) : Int :=
  if side = .buy then quantity else wrap64 (-quantity)

/-- `positions_[accountId][symbol] += delta`. -/
def recordFill (r : RiskEngine) (accountId symbol : String) (side : OrderSide) (quantity : Int) :
    RiskEngine :=
  let bySymbol := (r.positions.lookup accountId).getD ∅
  let position := wrap64 ((bySymbol.lookup symbol).getD 0 + fillDelta side quantity)
  { r with positions := r.positions.insert accountId (bySymbol.insert symbol position) }

def updateLastTradePrice (r : RiskEngine) (now : Int) (symbol : String) (price : Int) :
    Outcome RiskEngine Unit :=
  let r' := { r with lastTradePrices := r.lastTradePrices.insert symbol price }
  (CircuitBreaker.recordTrade r'.circuitBreaker now symbol price).mapState
    (fun cb => { r' with circuitBreaker := cb })

end RiskEngine

end TitanX
