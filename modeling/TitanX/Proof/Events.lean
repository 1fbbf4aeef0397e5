import TitanX.Proof.EngineRun

/-!
# What a `submit` reports

The events of a call, case by case. A refused order is rejected and that is all. An
admitted one is received; then there is an `orderFilled` for every trade whose delivery
came to its end, however much of the order is filled by then; and an `orderResting` for a
limit order without trades, whatever its quantity.
-/

namespace TitanX.Proof

open TitanX MatchingEngine

/-- The order gets past the kill switch and the risk checks. -/
def Admitted (e : MatchingEngine) (o : Order) : Prop :=
  e.halted = false ∧ Admissible e.riskEngine o

/-- The executions of an order in the book of its symbol. -/
def fillsFor (e : MatchingEngine) (env : SubmitEnv) (o : Order) : List Fill :=
  ((e.bookOf o.symbol).matchIncoming env.amb o).1

/-! ## Admitted orders -/

/-- The fills are reported in order, up to the one whose delivery got stuck. -/
theorem deliver_events (clock : Nat → Int) (order : Order) :
    ∀ (fills : List Fill) (n : Nat) (r : RiskEngine), ∃ k,
      (deliver clock order n fills r).events
          = (fills.take k).map (fun f => OrderEvent.filled order f.trade)
        ∧ ((deliver clock order n fills r).completed = true → k = fills.length)
  | [], _, _ => ⟨0, rfl, fun _ => rfl⟩
  | f :: fills, n, r => by
      rw [deliver]
      cases fillConsumer r (clock n) f.trade with
      | blocked r' => exact ⟨0, rfl, fun h => by cases h⟩
      | returned _ r' =>
          obtain ⟨k, hevents, hall⟩ := deliver_events clock order fills (n + 1) r'
          dsimp only
          exact ⟨k + 1, by rw [hevents]; rfl, fun h => by rw [hall h]; rfl⟩

theorem process_events (e : MatchingEngine) (env : SubmitEnv) (o : Order) :
    ∃ k, (e.process env o).2.events
      = OrderEvent.received o ::
          (((fillsFor e env o).take k).map (fun f => OrderEvent.filled o f.trade)
            ++ if o.type = .limit ∧ fillsFor e env o = [] then [OrderEvent.resting o] else []) := by
  rw [process_eq_settle, matched_eq]
  obtain ⟨k, hevents, -⟩ := deliver_events env.clock o (fillsFor e env o) 0 e.riskEngine
  refine ⟨k, ?_⟩
  unfold settle
  dsimp only
  split
  · dsimp only
    rw [show (deliver env.clock o 0 ((e.bookOf o.symbol).matchIncoming env.amb o).1
      e.riskEngine).events = _ from hevents]
    simp only [List.isEmpty_iff]
    rfl
  · -- only a fill can get stuck
    rename_i hstuck
    have hne : fillsFor e env o ≠ [] := by
      intro hnil
      refine hstuck ?_
      show (deliver env.clock o 0 (fillsFor e env o) e.riskEngine).completed = true
      rw [hnil]; rfl
    dsimp only
    rw [if_neg (fun h => hne h.2), List.append_nil]
    exact congrArg _ hevents

/-- What an event of an admitted order can be. -/
theorem mem_process_events {e : MatchingEngine} {env : SubmitEnv} {o : Order} {event : OrderEvent}
    (h : event ∈ (e.process env o).2.events) :
    event = OrderEvent.received o ∨ (∃ f ∈ fillsFor e env o, event = OrderEvent.filled o f.trade)
      ∨ (event = OrderEvent.resting o ∧ o.type = .limit ∧ fillsFor e env o = []) := by
  obtain ⟨k, hevents⟩ := process_events e env o
  rw [hevents] at h
  rcases List.mem_cons.mp h with rfl | h
  · exact Or.inl rfl
  · refine Or.inr ?_
    rcases List.mem_append.mp h with h | h
    · obtain ⟨f, hf, rfl⟩ := List.mem_map.mp h
      exact Or.inl ⟨f, List.mem_of_mem_take hf, rfl⟩
    · split at h
      · rename_i hrest
        exact Or.inr ⟨List.mem_singleton.mp h, hrest⟩
      · cases h

theorem resting_mem_process_events {e : MatchingEngine} {env : SubmitEnv} {o : Order}
    (ht : o.type = .limit) (hnone : fillsFor e env o = []) :
    OrderEvent.resting o ∈ (e.process env o).2.events := by
  obtain ⟨k, hevents⟩ := process_events e env o
  rw [hevents, if_pos ⟨ht, hnone⟩]
  exact List.mem_cons_of_mem _ (List.mem_append_right _ (List.mem_singleton_self _))

/-! ## All orders -/

/--
**The reports of `submit`.** Nothing, if it waits for the breaker; a rejection, if the
order is refused; and otherwise what `process` reports. A book changes in the last case
only.
-/
theorem submit_report (e : MatchingEngine) (env : SubmitEnv) (o : Order) :
    (e.halted = false ∧ e.riskEngine.circuitBreaker.held = true
        ∧ (e.submit env o).1.books = e.books ∧ (e.submit env o).2.executed = []
        ∧ (e.submit env o).2.events = [])
      ∨ ((e.halted = true ∨ e.riskEngine.circuitBreaker.held = false) ∧ ¬ Admitted e o
        ∧ (e.submit env o).1.books = e.books ∧ (e.submit env o).2.executed = []
        ∧ ∃ reason, (e.submit env o).2.events = [OrderEvent.rejected o reason])
      ∨ (Admitted e o ∧ ∃ r', Approval e.riskEngine o r'
        ∧ e.submit env o = { e with riskEngine := r' }.process env o) := by
  unfold submit
  cases hh : e.halted with
  | true =>
      refine Or.inr (Or.inl ⟨Or.inl rfl, fun ha => ?_, rfl, rfl, _, rfl⟩)
      exact absurd (hh.symm.trans ha.1) (by decide)
  | false =>
      rw [if_neg (by decide)]
      cases hheld : e.riskEngine.circuitBreaker.held with
      | true =>
          rw [checkPreTrade_held hheld]
          exact Or.inl ⟨rfl, rfl, rfl, rfl, rfl⟩
      | false =>
          refine Or.inr ?_
          rcases checkPreTrade_cases e.riskEngine o with
            ⟨r', heq, -, -⟩ | ⟨res, r', heq, happ, href, hna⟩ | ⟨res, r', heq, happ, hap, ha⟩
          · rw [checkPreTrade_free hheld] at heq
            cases heq
          · rw [heq]
            dsimp only
            rw [if_neg (by rw [happ]; decide)]
            exact Or.inl ⟨Or.inr rfl, fun hadm => hna hadm.2, rfl, rfl, res.reason, rfl⟩
          · rw [heq]
            dsimp only
            rw [if_pos happ]
            exact Or.inr ⟨⟨hh, ha⟩, r', hap, rfl⟩

end TitanX.Proof
