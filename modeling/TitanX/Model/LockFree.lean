import TitanX.Model.MatchingEngine

/-!
# The engine, mutexes aside

The calls of the sequential model without the circuit breaker's mutex: `recordTrade` sets
the halt flag where the source calls `haltSymbol`, and goes on; where its division traps it
goes on with the maps as they are. Everything else is the same code on the same state, so
`submit` always comes to its end. `submit_completes` in `Proof.LockFree` says that it is
what the locked engine does whenever that one comes to its end.
-/

namespace TitanX.LockFree

/-! ## Circuit breaker -/

def haltSymbol (cb : CircuitBreaker) (symbol : String) : CircuitBreaker :=
  { cb with symbolHalts := cb.symbolHalts.insert symbol true }

def recordTrade (cb : CircuitBreaker) (now : Int) (symbol : String) (tradePrice : Int) :
    CircuitBreaker :=
  let r := cb.observe now symbol tradePrice
  if r.1 = .halts then haltSymbol r.2 symbol else r.2

/-! ## Risk engine -/

def checkPreTrade (r : RiskEngine) (order : Order) : RiskResult × RiskEngine :=
  let r' := { r with totalChecked := r.totalChecked + 1 }
  r'.checkOrder (r'.circuitBreaker.data.haltFlag order.symbol) order

def updateLastTradePrice (r : RiskEngine) (now : Int) (symbol : String) (price : Int) :
    RiskEngine :=
  { r with
    lastTradePrices := r.lastTradePrices.insert symbol price
    circuitBreaker :=
      ⟨r.circuitBreaker.held, recordTrade r.circuitBreaker.data now symbol price⟩ }

/-! ## Matching engine -/

/-- The fill consumer of `main.cpp`. -/
def fillConsumer (r : RiskEngine) (now : Int) (trade : Trade) : RiskEngine :=
  updateLastTradePrice (r.recordFill trade.aggressorAccountId trade.symbol trade.aggressorSide
    trade.quantity) now trade.symbol trade.price

/-- The loop over the trades of a call; `n` counts them. -/
def deliver (clock : Nat → Int) : Nat → List Fill → RiskEngine → RiskEngine
  | _, [], r => r
  | n, f :: fills, r => deliver clock (n + 1) fills (fillConsumer r (clock n) f.trade)

/-- The engine after `book.match`, and the executions. -/
def matched (e : MatchingEngine) (env : SubmitEnv) (order : Order) : List Fill × MatchingEngine :=
  let e₁ := (e.getOrCreateBook order.symbol).getOrCreateLock order.symbol
  let m := (e₁.bookOf order.symbol).matchIncoming env.amb order
  (m.1, { e₁ with books := e₁.books.insert order.symbol m.2 })

def process (e : MatchingEngine) (env : SubmitEnv) (order : Order) : MatchingEngine × Submitted :=
  let m := matched e env order
  let e₃ := { m.2 with riskEngine := deliver env.clock 0 m.1 m.2.riskEngine }
  let s := if m.1.isEmpty then ([], e₃) else e₃.checkStopTriggers env order.symbol
  (s.2,
    { trades := m.1.map Fill.trade
      events := OrderEvent.received order :: m.1.map (fun f => OrderEvent.filled order f.trade) ++
        (if order.type = .limit ∧ m.1.isEmpty then [OrderEvent.resting order] else [])
      executed := m.1 ++ s.1
      consumed := m.1.map Fill.trade
      completed := true })

def submit (e : MatchingEngine) (env : SubmitEnv) (order : Order) : MatchingEngine × Submitted :=
  if e.halted then (e, ⟨[], [OrderEvent.rejected order "ENGINE_HALTED"], [], [], true⟩)
  else
    let c := checkPreTrade e.riskEngine order
    let e' := { e with riskEngine := c.2 }
    if c.1.approved then process e' env order
    else (e', ⟨[], [OrderEvent.rejected order c.1.reason], [], [], true⟩)

/-- One call on the engine; the others do not touch the breaker's mutex. -/
def step (e : MatchingEngine) : EngineOp → MatchingEngine × EngineOut
  | .submit env order => ((submit e env order).1, ⟨(submit e env order).2, false⟩)
  | op => e.step op

end TitanX.LockFree
