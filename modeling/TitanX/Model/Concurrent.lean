import TitanX.Model.MatchingEngine

/-!
# Concurrent calls

Any number of `submit` calls in flight at once, as an interleaving of their atomic
steps: the load of the kill switch, the risk check under the risk engine's mutex, the
two lookups under `mapMutex_`, `book.match` under the symbol's lock, one call of the
fill consumer for each trade, and the stop triggers under the symbol's lock again.
`cancel`, `halt` and `resume`, and the breaker's `haltSymbol` and `resumeSymbol`, are
one step each.

The steps are the functions of the sequential model. A call that waits for the
breaker's mutex waits for ever, because its holder does (`Stage.stuck`). If it waits in
its risk check it also keeps the risk engine's `mutex_`; the model lets the other calls
go on without it, so it has every interleaving of the code, and some more.

`log` is a ghost. It has what happened in the order in which it happened, for
statements about what was approved, executed and delivered, and when.
-/

namespace TitanX

/-- How far a `submit` call has come. -/
inductive Stage where
  /-- The kill switch was off. -/
  | checking
  /-- The risk check let the order through. -/
  | approved
  | booked
  /-- The call has its book and its lock. -/
  | ready
  /-- Matched; `n` trades are delivered and `rest` are not. -/
  | delivering (n : Nat) (rest : List Fill)
  | finished
  | stuck

/-- A `submit` call. -/
structure Flight where
  env : SubmitEnv
  order : Order
  stage : Stage

/-- What the ghost log records. -/
inductive Happening where
  | approved (order : Order)
  | matched (order : Order) (fills : List Fill)
  | triggered (symbol : String) (fills : List Fill)
  | consumed (trade : Trade)
  | halted
  | resumed

structure Exchange where
  engine : MatchingEngine
  /-- The calls, in the order in which they began. -/
  flights : List Flight
  log : List Happening

inductive Action where
  /-- A `submit` call begins. -/
  | call (env : SubmitEnv) (order : Order)
  /-- The `i`-th call takes its next step. -/
  | proceed (i : Nat)
  | cancel (symbol orderId : String)
  | halt
  | resume
  | haltSymbol (symbol : String)
  | resumeSymbol (symbol : String)

namespace Exchange

def initial : Exchange := ⟨MatchingEngine.initial, [], []⟩

/-- The next step of a call: the engine after it, where the call then stands, and what
happened. -/
def advance (e : MatchingEngine) (f : Flight) : MatchingEngine × Stage × List Happening :=
  match f.stage with
  | .checking =>
      match e.riskEngine.checkPreTrade f.order with
      | .blocked r => ({ e with riskEngine := r }, .stuck, [])
      | .returned riskResult r =>
          if riskResult.approved then ({ e with riskEngine := r }, .approved, [.approved f.order])
          else ({ e with riskEngine := r }, .finished, [])
  | .approved => (e.getOrCreateBook f.order.symbol, .booked, [])
  | .booked => (e.getOrCreateLock f.order.symbol, .ready, [])
  | .ready =>
      let m := (e.bookOf f.order.symbol).matchIncoming f.env.amb f.order
      ({ e with books := e.books.insert f.order.symbol m.2 }, .delivering 0 m.1,
        [.matched f.order m.1])
  | .delivering n (fill :: rest) =>
      match MatchingEngine.fillConsumer e.riskEngine (f.env.clock n) fill.trade with
      | .blocked r => ({ e with riskEngine := r }, .stuck, [.consumed fill.trade])
      | .returned _ r =>
          ({ e with riskEngine := r }, .delivering (n + 1) rest, [.consumed fill.trade])
  | .delivering 0 [] => (e, .finished, [])
  | .delivering (_ + 1) [] =>
      let t := e.checkStopTriggers f.env f.order.symbol
      (t.2, .finished, [.triggered f.order.symbol t.1])
  | .finished => (e, .finished, [])
  | .stuck => (e, .stuck, [])

/-- The breaker's methods, called from outside. -/
def onBreaker (e : MatchingEngine)
    (o : Guarded CircuitBreaker → Outcome (Guarded CircuitBreaker) Unit) : MatchingEngine :=
  { e with riskEngine :=
      { e.riskEngine with circuitBreaker := (o e.riskEngine.circuitBreaker).state } }

def step (s : Exchange) : Action → Exchange × Unit
  | .call env order =>
      let stage := if s.engine.halted then Stage.finished else Stage.checking
      ({ s with flights := s.flights ++ [⟨env, order, stage⟩] }, ())
  | .proceed i =>
      match s.flights[i]? with
      | none => (s, ())
      | some f =>
          let r := advance s.engine f
          ({ engine := r.1
             flights := s.flights.set i { f with stage := r.2.1 }
             log := s.log ++ r.2.2 }, ())
  | .cancel symbol orderId => ({ s with engine := (s.engine.cancel symbol orderId).2 }, ())
  | .halt => ({ s with engine := s.engine.halt, log := s.log ++ [.halted] }, ())
  | .resume => ({ s with engine := s.engine.resume, log := s.log ++ [.resumed] }, ())
  | .haltSymbol symbol =>
      ({ s with engine := onBreaker s.engine (CircuitBreaker.haltSymbol · symbol) }, ())
  | .resumeSymbol symbol =>
      ({ s with engine := onBreaker s.engine (CircuitBreaker.resumeSymbol · symbol) }, ())

end Exchange

/-- The executions a log records. -/
def executedIn (log : List Happening) : List Fill :=
  log.flatMap (fun h => match h with
    | .matched _ fills => fills
    | .triggered _ fills => fills
    | _ => [])

end TitanX
