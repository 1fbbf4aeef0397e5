import TitanX.Model.OrderBook
import TitanX.Model.RiskEngine

/-!
# The matching engine

`titanx/engine/MatchingEngine` with the consumers wired as in `main.cpp`: the events
go to the event store, and each fill is booked in the risk engine, which passes the
price on to the circuit breaker.

A `submit` can get stuck in the breaker's mutex, in the risk check or in the middle of
its fills, so what it did is reported whether or not it completed. Two of the reports
are ghosts: `executed` has every trade made in the book, also those of stop orders that
the call triggered, and `consumed` every trade handed to the fill consumer.

The consumer's writes to Redis do not come back to the engine and are not part of this
state.
-/

namespace TitanX

/-! ## Events -/

inductive EventType where
  | orderReceived
  | orderResting
  | orderPartiallyFilled
  | orderFilled
  | orderCancelled
  | orderRejected
  | circuitBreakerTriggered
  | engineHalted
  | engineResumed
  deriving DecidableEq, Repr

/-- An event, without its id, latency and time. -/
structure OrderEvent where
  type : EventType
  orderId : String
  accountId : String
  symbol : String
  orderSnapshot : Order
  trade : Option Trade
  rejectionReason : String
  deriving DecidableEq

namespace OrderEvent

def build (type : EventType) (order : Order) (trade : Option Trade) (reason : String) :
    OrderEvent :=
  ⟨type, order.orderId, order.accountId, order.symbol, order, trade, reason⟩

def received (order : Order) : OrderEvent := build .orderReceived order none ""

def resting (order : Order) : OrderEvent := build .orderResting order none ""

def filled (order : Order) (trade : Trade) : OrderEvent := build .orderFilled order (some trade) ""

def rejected (order : Order) (reason : String) : OrderEvent :=
  build .orderRejected order none reason

end OrderEvent

/-! ## The state -/

structure MatchingEngine where
  books : Finmap (fun _ : String => OrderBook)
  /-- The symbols that have a lock. -/
  locks : Finset String
  stopOrders : Finmap (fun _ : String => List Order)
  halted : Bool
  riskEngine : RiskEngine

/-- What one `submit` reads from outside: ids and clocks for its own matching, the
steady clock at each fill, and the same for each stop order it triggers. -/
structure SubmitEnv where
  amb : Ambient
  clock : Nat → Int
  stopOrderId : Nat → String
  stopCreatedAt : Nat → Int
  stopAmb : Nat → Ambient

/-- What a `submit` did. -/
structure Submitted where
  trades : List Trade
  events : List OrderEvent
  executed : List Fill
  consumed : List Trade
  completed : Bool

namespace MatchingEngine

def initial : MatchingEngine := ⟨∅, ∅, ∅, false, RiskEngine.initial⟩

/-- The book of `symbol`; a new one where there is none. -/
def bookOf (e : MatchingEngine) (symbol : String) : OrderBook :=
  (e.books.lookup symbol).getD (OrderBook.new symbol)

def getOrCreateBook (e : MatchingEngine) (symbol : String) : MatchingEngine :=
  { e with books := e.books.insert symbol (e.bookOf symbol) }

def getOrCreateLock (e : MatchingEngine) (symbol : String) : MatchingEngine :=
  { e with locks := insert symbol e.locks }

/-! ## Fills -/

/-- The fill consumer of `main.cpp`. -/
def fillConsumer (r : RiskEngine) (now : Int) (trade : Trade) : Outcome RiskEngine Unit :=
  (r.recordFill trade.aggressorAccountId trade.symbol trade.aggressorSide
    trade.quantity).updateLastTradePrice now trade.symbol trade.price

/-- How far the fills of one call were delivered. -/
structure Delivery where
  riskEngine : RiskEngine
  consumed : List Trade
  events : List OrderEvent
  completed : Bool

/-- The loop over the trades of a call; `n` counts them. -/
def deliver (clock : Nat → Int) (order : Order) : Nat → List Fill → RiskEngine → Delivery
  | _, [], r => ⟨r, [], [], true⟩
  | n, f :: fills, r =>
      match fillConsumer r (clock n) f.trade with
      | .blocked r' => ⟨r', [f.trade], [], false⟩
      | .returned _ r' =>
          let d := deliver clock order (n + 1) fills r'
          { d with
            consumed := f.trade :: d.consumed
            events := OrderEvent.filled order f.trade :: d.events }

/-! ## Stop orders -/

/-- The trigger condition of a pending stop order. -/
def triggered (lastPrice : Int) (stop : Order) : Bool :=
  if stop.isBuy then lastPrice ≥ stop.stopPrice else lastPrice ≤ stop.stopPrice

/-- Match the triggered stop orders as limit orders, in order; `n` counts them. -/
def activate (env : SubmitEnv) : Nat → List Order → OrderBook → List Fill × OrderBook
  | _, [], b => ([], b)
  | n, stop :: stops, b =>
      let limitOrder := Order.create (env.stopOrderId n) (env.stopCreatedAt n) stop.accountId
        stop.symbol stop.side .limit stop.price 0 stop.remainingQuantity
      let m := b.matchIncoming (env.stopAmb n) limitOrder
      let r := activate env (n + 1) stops m.2
      (m.1 ++ r.1, r.2)

def checkStopTriggers (e : MatchingEngine) (env : SubmitEnv) (symbol : String) :
    List Fill × MatchingEngine :=
  match e.stopOrders.lookup symbol with
  | none => ([], e)
  | some pending =>
      match (e.bookOf symbol).lastTradePrice with
      | none => ([], e)
      | some lastPrice =>
          let r := activate env 0 (pending.filter (triggered lastPrice)) (e.bookOf symbol)
          (r.1,
            { e with
              stopOrders := e.stopOrders.insert symbol
                (pending.filter (fun stop => !triggered lastPrice stop))
              books := e.books.insert symbol r.2 })

/-! ## Submission and cancellation -/

/-- `submit` from the admission of the order on. -/
def process (e : MatchingEngine) (env : SubmitEnv) (order : Order) : MatchingEngine × Submitted :=
  let e₁ := (e.getOrCreateBook order.symbol).getOrCreateLock order.symbol
  let m := (e₁.bookOf order.symbol).matchIncoming env.amb order
  let e₂ := { e₁ with books := e₁.books.insert order.symbol m.2 }
  let d := deliver env.clock order 0 m.1 e₂.riskEngine
  let e₃ := { e₂ with riskEngine := d.riskEngine }
  if d.completed then
    let s := if m.1.isEmpty then ([], e₃) else e₃.checkStopTriggers env order.symbol
    (s.2,
      { trades := m.1.map Fill.trade
        events := OrderEvent.received order :: d.events ++
          (if order.type = .limit ∧ m.1.isEmpty then [OrderEvent.resting order] else [])
        executed := m.1 ++ s.1
        consumed := d.consumed
        completed := true })
  else
    (e₃, ⟨[], OrderEvent.received order :: d.events, m.1, d.consumed, false⟩)

def submit (e : MatchingEngine) (env : SubmitEnv) (order : Order) : MatchingEngine × Submitted :=
  if e.halted then (e, ⟨[], [OrderEvent.rejected order "ENGINE_HALTED"], [], [], true⟩)
  else
    match e.riskEngine.checkPreTrade order with
    | .blocked r => ({ e with riskEngine := r }, ⟨[], [], [], [], false⟩)
    | .returned riskResult r =>
        let e' := { e with riskEngine := r }
        if riskResult.approved then e'.process env order
        else (e', ⟨[], [OrderEvent.rejected order riskResult.reason], [], [], true⟩)

def cancel (e : MatchingEngine) (symbol orderId : String) : Bool × MatchingEngine :=
  match e.books.lookup symbol with
  | none => (false, e)
  | some book =>
      if symbol ∈ e.locks then
        ((book.removeFromBook orderId).1,
          { e with books := e.books.insert symbol (book.removeFromBook orderId).2 })
      else (false, e)

def halt (e : MatchingEngine) : MatchingEngine := { e with halted := true }

def resume (e : MatchingEngine) : MatchingEngine := { e with halted := false }

end MatchingEngine

/-! ## Runs of an engine -/

inductive EngineOp where
  | submit (env : SubmitEnv) (order : Order)
  | cancel (symbol orderId : String)
  | halt
  | resume

/-- What a call did: a `submit` its report, a `cancel` its verdict. -/
structure EngineOut where
  submitted : Submitted
  removed : Bool

/-- The report of a call that is not a `submit`. -/
def Submitted.none : Submitted := ⟨[], [], [], [], true⟩

def MatchingEngine.step (e : MatchingEngine) : EngineOp → MatchingEngine × EngineOut
  | .submit env order => ((e.submit env order).1, ⟨(e.submit env order).2, false⟩)
  | .cancel symbol orderId => ((e.cancel symbol orderId).2, ⟨.none, (e.cancel symbol orderId).1⟩)
  | .halt => (e.halt, ⟨.none, false⟩)
  | .resume => (e.resume, ⟨.none, false⟩)

end TitanX
