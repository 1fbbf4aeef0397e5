import TitanX.Proof.Steps

/-!
# No account trades with itself

The risk check and the match are separate critical sections, so two opposite orders
of one account could pass each other between them if the check only looked at the
books. It looks at the active sets, which have an order from its approval on, before
it reaches any book. That makes `EngineInv`, with the orders of the calls between the
two steps as the list in flight, an invariant of every interleaving
(`exchangeInv_reachable`), and the passive party of a trade is then never the caller.
-/

namespace TitanX.Proof

open TitanX Exchange

/-! ## Orders in flight -/

/-- The order of a call that is approved and not yet matched. -/
def carries (f : Flight) : List Order :=
  match f.stage with
  | .approved => [f.order]
  | .booked => [f.order]
  | .ready => [f.order]
  | _ => []

def inflight (flights : List Flight) : List Order := flights.flatMap carries

theorem inflight_append (l l' : List Flight) : inflight (l ++ l') = inflight l ++ inflight l' :=
  List.flatMap_append

/-- The order in flight of one call may be listed first. -/
theorem inflight_perm (l₁ l₂ : List Flight) (f : Flight) :
    (inflight (l₁ ++ f :: l₂)).Perm (carries f ++ inflight (l₁ ++ l₂)) := by
  rw [inflight_append, inflight_append]
  exact List.perm_append_comm_assoc _ _ _

/-- A call that has not passed the risk check has nothing in flight. -/
theorem inflight_called {env : SubmitEnv} {order : Order} {stage : Stage}
    (hs : stage = .finished ∨ stage = .checking) (flights : List Flight) :
    inflight (flights ++ [⟨env, order, stage⟩]) = inflight flights := by
  rw [inflight_append]
  rcases hs with rfl | rfl <;> exact List.append_nil _

theorem executedIn_append (log log' : List Happening) :
    executedIn (log ++ log') = executedIn log ++ executedIn log' := List.flatMap_append

/-! ## One step of a call -/

/-- No trade of the list has one account on both sides. -/
def NoSelfTrade (fills : List Fill) : Prop :=
  ∀ f ∈ fills, f.trade.aggressorAccountId ≠ f.trade.passiveAccountId

theorem noSelfTrade_nil : NoSelfTrade [] := fun _ hf => absurd hf List.not_mem_nil

theorem NoSelfTrade.append {log log' : List Happening} (h : NoSelfTrade (executedIn log))
    (h' : NoSelfTrade (executedIn log')) : NoSelfTrade (executedIn (log ++ log')) := by
  intro f hf
  rw [executedIn_append] at hf
  rcases List.mem_append.mp hf with hf | hf
  · exact h f hf
  · exact h' f hf

/-- A consumed fill leaves the ids alone, whether or not the consumer returns. -/
theorem EngineInv.consume {e : MatchingEngine} {fl : List Order} (h : EngineInv e fl) (now : Int)
    (t : Trade) :
    EngineInv { e with riskEngine := (MatchingEngine.fillConsumer e.riskEngine now t).state } fl := by
  obtain ⟨cb, heq⟩ := fillConsumer_state e.riskEngine now t
  rw [heq]
  exact h.setRisk (Finset.Subset.refl _) (fun s _ => by cases s <;> rfl)

/-- **What one step of a call preserves**, whatever the other calls have in flight: from
an approval on the order is in flight, and with the match it lands. -/
theorem engineInv_proceeds {e e' : MatchingEngine} {f : Flight} {stage : Stage}
    {h : List Happening} {others : List Order} (hinv : EngineInv e (carries f ++ others))
    (hm : Proceeds e f.env f.order f.stage e' stage h) :
    EngineInv e' (carries { f with stage } ++ others) ∧ NoSelfTrade (executedIn h) := by
  obtain ⟨env, order, stage₀⟩ := f
  dsimp only at hm
  cases hm with
  | refused hr hs =>
      refine ⟨?_, noSelfTrade_nil⟩
      rcases hs with rfl | rfl <;> exact hinv.refuse hr
  | approved hr => exact ⟨hinv.approve hr, noSelfTrade_nil⟩
  | booked => exact ⟨hinv.setBook (hinv.bookOf order.symbol), noSelfTrade_nil⟩
  | locked => exact ⟨hinv.setLocks _, noSelfTrade_nil⟩
  | matched hm =>
      have hlands := EngineInv.match hinv env.amb
      rw [hm] at hlands
      refine ⟨hlands, fun f hf => ?_⟩
      rw [executedIn, List.flatMap_singleton] at hf
      have hf' : f ∈ ((e.bookOf order.symbol).matchIncoming env.amb order).1 := by
        rw [hm]; exact hf
      exact EngineInv.no_self_trade hinv hf'
  | consumed hr hs =>
      refine ⟨?_, noSelfTrade_nil⟩
      rw [hr]
      rcases hs with rfl | rfl <;> exact EngineInv.consume hinv _ _
  | ended hh =>
      refine ⟨hinv, ?_⟩
      rcases hh with rfl | rfl <;> exact noSelfTrade_nil
  | idle => exact ⟨hinv, noSelfTrade_nil⟩

/-- The other calls: the breaker has no say in the invariant, and a removal is one more
call on a book. -/
theorem EngineInv.outside {e e' : MatchingEngine} {fl : List Order} (h : EngineInv e fl)
    (ho : Outside e e') : EngineInv e' fl := by
  obtain ⟨cb, hrisk⟩ := ho.risk
  have hr : EngineInv { e with riskEngine := { e.riskEngine with circuitBreaker := cb } } fl :=
    h.setRisk (Finset.Subset.refl _) (fun s _ => by cases s <;> rfl)
  refine ⟨fun symbol b hb => ?_, h.distinct, ?_, ?_, ho.stops.trans h.stops⟩
  · rw [hrisk, ← bookOf_of_lookup hb]
    rcases ho.book symbol with heq | ⟨orderId, heq⟩
    · rw [heq]; exact hr.bookOf symbol
    · rw [heq]; exact (hr.bookOf symbol).remove orderId
  · rw [hrisk]; exact hr.tracked
  · rw [hrisk]; exact hr.oneSided

/-! ## Every interleaving -/

structure ExchangeInv (s : Exchange) : Prop where
  engine : EngineInv s.engine (inflight s.flights)
  executed : NoSelfTrade (executedIn s.log)

theorem exchangeInv_step {s : Exchange} (h : ExchangeInv s) (a : Action) : ExchangeInv (s.step a).1 := by
  have hstep := step_happens h.engine.stops a
  generalize (s.step a).1 = s' at hstep
  cases hstep with
  | called hs =>
      refine ⟨?_, h.executed⟩
      rw [inflight_called hs]; exact h.engine
  | @moved i l₁ l₂ f e' stage hap hf hcut hm =>
      have hengine := h.engine
      rw [hcut] at hengine
      obtain ⟨hinv, hnew⟩ := engineInv_proceeds (hengine.perm (inflight_perm l₁ l₂ f)) hm
      exact ⟨hinv.perm (inflight_perm l₁ l₂ _).symm, h.executed.append hnew⟩
  | missed => exact h
  | outside ho hh =>
      refine ⟨h.engine.outside ho, h.executed.append ?_⟩
      rcases hh with rfl | rfl | rfl <;> exact noSelfTrade_nil

/-- The exchange after any interleaving. -/
def exchangeAfter (actions : List Action) : Exchange := run Exchange.step Exchange.initial actions

theorem exchangeInv_initial : ExchangeInv Exchange.initial :=
  ⟨engineInv_initial, noSelfTrade_nil⟩

theorem exchangeInv_reachable (actions : List Action) : ExchangeInv (exchangeAfter actions) :=
  run_always Exchange.step (P := fun _ s => ExchangeInv s) exchangeInv_initial
    (fun _ a hp => exchangeInv_step hp a) actions

/--
**No account ever trades with itself**, in any book, under any interleaving of any
number of calls.
-/
theorem no_account_self_trades (actions : List Action) :
    ∀ f ∈ executedIn (exchangeAfter actions).log,
      f.trade.aggressorAccountId ≠ f.trade.passiveAccountId :=
  (exchangeInv_reachable actions).executed

/-- A buy and a sell of account `A` and a sell of `B`, begun together; the two sells are
checked while the buy is between its check and its match. -/
def racingCalls : List Action :=
  [.call stillEnv (Order.create "a1" 0 "A" "AAPL" .buy .limit 100 0 5),
    .call stillEnv (Order.create "a2" 0 "A" "AAPL" .sell .limit 100 0 5),
    .call stillEnv (Order.create "b" 0 "B" "AAPL" .sell .limit 100 0 5),
    .proceed 0, .proceed 1, .proceed 2, .proceed 0, .proceed 0, .proceed 0,
    .proceed 1, .proceed 2, .proceed 2, .proceed 1, .proceed 2]

/-- The sell of `A` is refused, and that of `B` meets the buy. -/
theorem no_account_self_trades_racing :
    ∃ f ∈ executedIn (exchangeAfter racingCalls).log,
      f.trade.aggressorOrderId = "b" ∧ f.trade.passiveOrderId = "a1"
        ∧ f.trade.aggressorAccountId ≠ f.trade.passiveAccountId := by
  have hmeets : ∃ f ∈ executedIn (exchangeAfter racingCalls).log,
      f.trade.aggressorOrderId = "b" ∧ f.trade.passiveOrderId = "a1" := by decide
  obtain ⟨f, hf, hb, ha⟩ := hmeets
  exact ⟨f, hf, hb, ha, no_account_self_trades racingCalls f hf⟩

end TitanX.Proof
