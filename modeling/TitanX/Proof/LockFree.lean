import TitanX.Model.LockFree
import TitanX.Proof.Breaker
import TitanX.Proof.Risk

/-!
# What the lock-free engine has to do with the engine

Where a call of the engine returns, the same call without the breaker's mutex returns the
same and leaves the same state. So what is proved of the lock-free engine holds of the
engine for as long as it does not lock itself out.
-/

namespace TitanX.Proof

open TitanX MatchingEngine

/-! ## One call at a time -/

theorem recordTrade_returned {g g' : Guarded CircuitBreaker} {now : Int} {symbol : String}
    {tradePrice : Int} (h : CircuitBreaker.recordTrade g now symbol tradePrice = .returned () g') :
    g' = ⟨g.held, LockFree.recordTrade g.data now symbol tradePrice⟩ := by
  cases hh : g.held with
  | true =>
      rw [CircuitBreaker.recordTrade, locked_held hh] at h
      cases h
  | false =>
      by_cases ht : (g.data.observe now symbol tradePrice).1 = .quiet
      · rw [recordTrade_quiet hh ht] at h
        cases h
        unfold LockFree.recordTrade
        rw [if_neg (by rw [ht]; decide)]
      · rw [recordTrade_trips hh ht] at h
        cases h

theorem checkPreTrade_returned {r r' : RiskEngine} {order : Order} {res : RiskResult}
    (h : r.checkPreTrade order = .returned res r') :
    (res, r') = LockFree.checkPreTrade r order := by
  cases hh : r.circuitBreaker.held with
  | true =>
      rw [checkPreTrade_held hh] at h
      cases h
  | false =>
      rw [checkPreTrade_free hh] at h
      cases h
      rfl

theorem fillConsumer_returned {r r' : RiskEngine} {now : Int} {trade : Trade}
    (h : fillConsumer r now trade = .returned () r') : r' = LockFree.fillConsumer r now trade := by
  unfold MatchingEngine.fillConsumer RiskEngine.updateLastTradePrice at h
  dsimp only at h
  cases hrec : CircuitBreaker.recordTrade
      (r.recordFill trade.aggressorAccountId trade.symbol trade.aggressorSide
        trade.quantity).circuitBreaker now trade.symbol trade.price with
  | blocked g => rw [hrec] at h; cases h
  | returned u g =>
      rw [hrec] at h
      cases h
      rw [recordTrade_returned hrec]
      rfl

theorem deliver_completes (clock : Nat → Int) (order : Order) :
    ∀ (fills : List Fill) (n : Nat) (r : RiskEngine),
      (deliver clock order n fills r).completed = true →
      deliver clock order n fills r
        = ⟨LockFree.deliver clock n fills r, fills.map Fill.trade,
            fills.map (fun f => OrderEvent.filled order f.trade), true⟩
  | [], _, _, _ => rfl
  | f :: fills, n, r, h => by
      rw [deliver] at h ⊢
      cases hf : MatchingEngine.fillConsumer r (clock n) f.trade with
      | blocked r' => rw [hf] at h; cases h
      | returned u r' =>
          rw [hf] at h
          dsimp only at h ⊢
          rw [deliver_completes clock order fills (n + 1) r' h, fillConsumer_returned hf]
          rfl

/-! ## The calls of the engine -/

/-- The match, in terms of the book that `bookOf` says: creating a book changes nothing. -/
theorem matched_eq (e : MatchingEngine) (env : SubmitEnv) (order : Order) :
    LockFree.matched e env order
      = (((e.bookOf order.symbol).matchIncoming env.amb order).1,
          { e with
            books := e.books.insert order.symbol
              ((e.bookOf order.symbol).matchIncoming env.amb order).2
            locks := insert order.symbol e.locks }) := by
  have hbook : ((e.getOrCreateBook order.symbol).getOrCreateLock order.symbol).bookOf order.symbol
      = e.bookOf order.symbol := by
    show ((e.books.insert order.symbol (e.bookOf order.symbol)).lookup order.symbol).getD _ = _
    rw [Finmap.lookup_insert]; rfl
  have hbooks : ∀ b,
      ((e.getOrCreateBook order.symbol).getOrCreateLock order.symbol).books.insert order.symbol b
        = e.books.insert order.symbol b := fun b => Finmap.insert_insert _
  unfold LockFree.matched
  dsimp only
  rw [hbook, hbooks]
  rfl

/-- `process` after the match, in terms of how far the fills were delivered. -/
def settle (env : SubmitEnv) (order : Order) (fills : List Fill) (e : MatchingEngine)
    (d : Delivery) : MatchingEngine × Submitted :=
  let e₃ := { e with riskEngine := d.riskEngine }
  if d.completed then
    let s := if fills.isEmpty then ([], e₃) else e₃.checkStopTriggers env order.symbol
    (s.2,
      { trades := fills.map Fill.trade
        events := OrderEvent.received order :: d.events ++
          (if order.type = .limit ∧ fills.isEmpty then [OrderEvent.resting order] else [])
        executed := fills ++ s.1
        consumed := d.consumed
        completed := true })
  else
    (e₃, ⟨[], OrderEvent.received order :: d.events, fills, d.consumed, false⟩)

theorem process_eq_settle (e : MatchingEngine) (env : SubmitEnv) (order : Order) :
    e.process env order
      = settle env order (LockFree.matched e env order).1 (LockFree.matched e env order).2
          (deliver env.clock order 0 (LockFree.matched e env order).1
            (LockFree.matched e env order).2.riskEngine) := rfl

theorem settle_completed (env : SubmitEnv) (order : Order) (fills : List Fill) (e : MatchingEngine)
    (d : Delivery) : (settle env order fills e d).2.completed = d.completed := by
  unfold settle
  dsimp only
  split
  · rename_i hd; exact hd.symm
  · rename_i hd; exact (Bool.eq_false_iff.mpr hd).symm

theorem process_completes (e : MatchingEngine) (env : SubmitEnv) (order : Order)
    (h : (e.process env order).2.completed = true) :
    e.process env order = LockFree.process e env order := by
  rw [process_eq_settle] at h ⊢
  rw [settle_completed] at h
  rw [deliver_completes env.clock order _ 0 _ h]
  rfl

/-- **Where `submit` comes to its end the mutex makes no difference.** -/
theorem submit_completes (e : MatchingEngine) (env : SubmitEnv) (order : Order)
    (h : (e.submit env order).2.completed = true) :
    e.submit env order = LockFree.submit e env order := by
  unfold MatchingEngine.submit LockFree.submit at *
  cases hh : e.halted with
  | true => rfl
  | false =>
      rw [hh] at h
      cases hc : e.riskEngine.checkPreTrade order with
      | blocked r => rw [hc] at h; cases h
      | returned res r =>
          rw [hc] at h
          have hfree := checkPreTrade_returned hc
          dsimp only at h ⊢
          rw [← hfree]
          cases hres : res.approved with
          | true =>
              rw [hres] at h
              exact process_completes _ env order h
          | false => rfl

end TitanX.Proof
