import TitanX.Proof.Engine
import TitanX.Proof.LockFree

/-!
# Runs of the engine, one call after the other

`submit` is taken apart once: it refuses the order and leaves the books alone, or it
admits it and is `process` on the state the approval left (`submit_cases`); and
`process` replaces one book, and delivers the trades to the risk engine
(`process_engine`).

A run is observed together with the trades executed so far (`Market`): the ledgers
and limits of the following files compare the engine with them, and go by the two
cases of `quiet_or_admitted`.
-/

namespace TitanX.Proof

open TitanX MatchingEngine

/-! ## Delivery -/

/-- The fill consumer books the aggressor's side, and notes the price. -/
theorem fillConsumer_state (r : RiskEngine) (now : Int) (t : Trade) :
    ∃ cb, (fillConsumer r now t).state =
      { r.recordFill t.aggressorAccountId t.symbol t.aggressorSide t.quantity with
        lastTradePrices := r.lastTradePrices.insert t.symbol t.price, circuitBreaker := cb } := by
  unfold fillConsumer RiskEngine.updateLastTradePrice
  dsimp only
  cases CircuitBreaker.recordTrade (r.recordFill t.aggressorAccountId t.symbol t.aggressorSide
      t.quantity).circuitBreaker now t.symbol t.price with
  | returned _ cb => exact ⟨cb, rfl⟩
  | blocked cb => exact ⟨cb, rfl⟩

/-- What one consumed fill preserves, a delivery preserves, completed or not. -/
theorem deliver_rule {P : RiskEngine → Prop} (clock : Nat → Int) (order : Order) :
    ∀ (fills : List Fill) (n : Nat) (r : RiskEngine),
      (∀ f ∈ fills, ∀ r now, P r → P (fillConsumer r now f.trade).state) → P r →
      P (deliver clock order n fills r).riskEngine
  | [], _, _, _, h => h
  | f :: fills, n, r, hstep, h => by
      have hf := hstep f (List.mem_cons_self ..) r (clock n) h
      rw [deliver]
      cases hc : fillConsumer r (clock n) f.trade with
      | blocked r' => rw [hc] at hf; exact hf
      | returned _ r' =>
          rw [hc] at hf
          exact deliver_rule clock order fills (n + 1) r'
            (fun f' hf' => hstep f' (List.mem_cons_of_mem _ hf')) hf

/-- A delivery moves positions and prices, not ids. -/
theorem deliver_ids (clock : Nat → Int) (order : Order) (n : Nat) (fills : List Fill)
    (r : RiskEngine) :
    (deliver clock order n fills r).riskEngine.seenOrderIds = r.seenOrderIds
      ∧ ∀ s a, (deliver clock order n fills r).riskEngine.activeOrders s a = r.activeOrders s a := by
  refine deliver_rule (P := fun r' => r'.seenOrderIds = r.seenOrderIds
    ∧ ∀ s a, r'.activeOrders s a = r.activeOrders s a) clock order fills n r ?_
    ⟨rfl, fun _ _ => rfl⟩
  rintro f - r' now ⟨hseen, hactive⟩
  obtain ⟨cb, heq⟩ := fillConsumer_state r' now f.trade
  rw [heq]
  exact ⟨hseen, fun s a => by rw [← hactive]; cases s <;> rfl⟩

/-! ## One call -/

/-- The engine after an admitted order: one book replaced, the trades delivered. -/
def afterMatch (e : MatchingEngine) (env : SubmitEnv) (o : Order) : MatchingEngine :=
  { books := e.books.insert o.symbol ((e.bookOf o.symbol).matchIncoming env.amb o).2
    locks := insert o.symbol e.locks
    stopOrders := e.stopOrders
    halted := e.halted
    riskEngine := (deliver env.clock o 0 ((e.bookOf o.symbol).matchIncoming env.amb o).1
      e.riskEngine).riskEngine }

/-- The books after one has been replaced. -/
theorem bookOf_setBook (e : MatchingEngine) (symbol' symbol : String) (b : OrderBook) :
    ({ e with books := e.books.insert symbol' b } : MatchingEngine).bookOf symbol
      = if symbol = symbol' then b else e.bookOf symbol := by
  unfold MatchingEngine.bookOf
  dsimp only
  split
  · rename_i hs
    rw [hs, Finmap.lookup_insert]; rfl
  · rename_i hs
    rw [Finmap.lookup_insert_of_ne _ hs]

/-- Creating an empty book changes none. -/
theorem bookOf_getOrCreateBook (e : MatchingEngine) (symbol' symbol : String) :
    (e.getOrCreateBook symbol').bookOf symbol = e.bookOf symbol := by
  rw [getOrCreateBook, bookOf_setBook]
  split
  · rename_i hs
    rw [hs]
  · rfl

/-- The books after an admitted order. -/
theorem bookOf_afterMatch (e : MatchingEngine) (env : SubmitEnv) (o : Order) (symbol : String) :
    (afterMatch e env o).bookOf symbol
      = if symbol = o.symbol then ((e.bookOf o.symbol).matchIncoming env.amb o).2
        else e.bookOf symbol := bookOf_setBook e o.symbol symbol _

theorem checkStopTriggers_none {e : MatchingEngine} (h : e.stopOrders = ∅) (env : SubmitEnv)
    (symbol : String) : e.checkStopTriggers env symbol = ([], e) := by
  unfold checkStopTriggers
  rw [h, Finmap.lookup_empty]

theorem process_engine {e : MatchingEngine} (h : e.stopOrders = ∅) (env : SubmitEnv) (o : Order) :
    (e.process env o).1 = afterMatch e env o
      ∧ (e.process env o).2.executed = ((e.bookOf o.symbol).matchIncoming env.amb o).1 := by
  rw [process_eq_settle, matched_eq]
  unfold settle
  dsimp only
  split
  · split
    · exact ⟨rfl, List.append_nil _⟩
    · rw [checkStopTriggers_none (by exact h)]
      exact ⟨rfl, List.append_nil _⟩
  · exact ⟨rfl, rfl⟩

/-- **What `submit` can do**: refuse the order without touching a book, or admit it. -/
theorem submit_cases (e : MatchingEngine) (env : SubmitEnv) (o : Order) :
    (∃ r', Refusal e.riskEngine r' ∧ (e.submit env o).1 = { e with riskEngine := r' }
        ∧ (e.submit env o).2.executed = [] ∧ ¬ (e.halted = false ∧ Admissible e.riskEngine o))
      ∨ (∃ r', Approval e.riskEngine o r' ∧ e.submit env o = { e with riskEngine := r' }.process env o
        ∧ e.halted = false ∧ Admissible e.riskEngine o) := by
  unfold submit
  split
  · rename_i hh
    refine Or.inl ⟨e.riskEngine, ⟨⟨rfl, rfl, rfl⟩, Finset.Subset.refl _, fun _ _ => rfl⟩, rfl, rfl, ?_⟩
    exact fun hn => absurd (hh.symm.trans hn.1) (by decide)
  · rename_i hh
    rcases checkPreTrade_cases e.riskEngine o with
      ⟨r', heq, href, hna⟩ | ⟨res, r', heq, happ, href, hna⟩ | ⟨res, r', heq, happ, hap, ha⟩
    · rw [heq]
      exact Or.inl ⟨r', href, rfl, rfl, fun hn => hna hn.2⟩
    · rw [heq]
      dsimp only
      rw [if_neg (by rw [happ]; decide)]
      exact Or.inl ⟨r', href, rfl, rfl, fun hn => hna hn.2⟩
    · rw [heq]
      dsimp only
      rw [if_pos happ]
      exact Or.inr ⟨r', hap, rfl, Bool.eq_false_iff.mpr hh, ha⟩

theorem engineInv_afterMatch {e : MatchingEngine} {o : Order} (h : EngineInv e [o])
    (env : SubmitEnv) : EngineInv (afterMatch e env o) [] := by
  obtain ⟨hseen, hactive⟩ := deliver_ids env.clock o 0
    ((e.bookOf o.symbol).matchIncoming env.amb o).1 e.riskEngine
  exact ((h.match env.amb).setLocks (insert o.symbol e.locks)).setRisk
    (by rw [hseen]) hactive

theorem engineInv_step {e : MatchingEngine} (h : EngineInv e []) (op : EngineOp) :
    EngineInv (e.step op).1 [] := by
  cases op with
  | submit env o =>
      show EngineInv (e.submit env o).1 []
      rcases submit_cases e env o with ⟨r', href, heq, -, -⟩ | ⟨r', hap, heq, -, -⟩
      · rw [heq]; exact h.refuse href
      · have hfl := h.approve hap
        rw [heq, (process_engine hfl.stops env o).1]
        exact engineInv_afterMatch hfl env
  | cancel symbol orderId => exact h.cancel symbol orderId
  | halt => exact h.setHalted true
  | resume => exact h.setHalted false

/-! ## The engine and its trades -/

/-- The engine, with everything executed so far. -/
structure Market where
  engine : MatchingEngine
  executed : List Fill

def Market.initial : Market := ⟨MatchingEngine.initial, []⟩

def Market.step (m : Market) (op : EngineOp) : Market × EngineOut :=
  (⟨(m.engine.step op).1, m.executed ++ (m.engine.step op).2.submitted.executed⟩,
    (m.engine.step op).2)

theorem riskEngine_cancel (e : MatchingEngine) (symbol orderId : String) :
    (e.cancel symbol orderId).2.riskEngine = e.riskEngine := by
  unfold cancel
  split
  · rfl
  · split <;> rfl

theorem stopOrders_cancel (e : MatchingEngine) (symbol orderId : String) :
    (e.cancel symbol orderId).2.stopOrders = e.stopOrders := by
  unfold cancel
  split
  · rfl
  · split <;> rfl

/-- The cancel finds its order: the id is in the cancel index of the book. -/
def Hits (e : MatchingEngine) (symbol orderId : String) : Prop :=
  symbol ∈ e.locks ∧ orderId ∈ (e.bookOf symbol).orderIndex

instance (e : MatchingEngine) (symbol orderId : String) : Decidable (Hits e symbol orderId) :=
  inferInstanceAs (Decidable (_ ∧ _))

/-- The books after a `cancel`. One that does not find its order changes none. -/
theorem bookOf_cancel_hits (e : MatchingEngine) (symbol orderId symbol' : String) :
    (e.cancel symbol orderId).2.bookOf symbol'
      = if symbol' = symbol ∧ Hits e symbol orderId then
          ((e.bookOf symbol).removeFromBook orderId).2
        else e.bookOf symbol' := by
  unfold cancel
  cases hl : e.books.lookup symbol with
  | none =>
      have hmiss : ¬ Hits e symbol orderId := by
        intro h
        have hindex := h.2
        unfold MatchingEngine.bookOf at hindex
        rw [hl] at hindex
        exact absurd hindex (Finmap.notMem_empty)
      rw [if_neg (fun h => hmiss h.2)]
  | some b =>
      have hbook := bookOf_of_lookup hl
      dsimp only
      by_cases hlock : symbol ∈ e.locks
      · rw [if_pos hlock, bookOf_setBook]
        by_cases hs : symbol' = symbol
        · rw [if_pos hs, hs, hbook]
          split
          · rfl
          · rename_i hmiss
            -- an id that is not in the index: nothing happens
            have hnone : b.orderIndex.lookup orderId = none := by
              rw [Finmap.lookup_eq_none, ← hbook]
              exact fun hmem => hmiss ⟨rfl, hlock, hmem⟩
            rw [OrderBook.removeFromBook, hnone]
        · rw [if_neg hs, if_neg (fun h => hs h.1)]
      · rw [if_neg hlock, if_neg (fun h => hlock h.2.1)]

/-- A `cancel` leaves a book as it is or takes the order from it. -/
theorem bookOf_cancel (e : MatchingEngine) (symbol orderId symbol' : String) :
    (e.cancel symbol orderId).2.bookOf symbol' = e.bookOf symbol'
      ∨ (e.cancel symbol orderId).2.bookOf symbol'
        = ((e.bookOf symbol').removeFromBook orderId).2 := by
  rw [bookOf_cancel_hits]
  split
  · rename_i hhit
    rw [hhit.1]; exact Or.inr rfl
  · exact Or.inl rfl

/-- Nothing was executed or told to the risk engine; a book may have lost an order. -/
structure Quiet (m m' : Market) : Prop where
  executed : m'.executed = m.executed
  same : SameBooks m.engine.riskEngine m'.engine.riskEngine
  book : ∀ symbol, m'.engine.bookOf symbol = m.engine.bookOf symbol
    ∨ ∃ orderId, m'.engine.bookOf symbol
        = ((m.engine.bookOf symbol).removeFromBook orderId).2

/-- **What a call does to the engine and the trades**: it is quiet, or a `submit` that
is admitted. -/
theorem quiet_or_admitted {m : Market} (h : EngineInv m.engine []) (op : EngineOp) :
    (Quiet m (m.step op).1 ∧ ∀ env o, op = .submit env o →
        ¬ (m.engine.halted = false ∧ Admissible m.engine.riskEngine o))
      ∨ (∃ env o r', op = .submit env o ∧ Approval m.engine.riskEngine o r'
        ∧ (m.step op).1
          = ⟨afterMatch { m.engine with riskEngine := r' } env o,
              m.executed ++ ((m.engine.bookOf o.symbol).matchIncoming env.amb o).1⟩
        ∧ m.engine.halted = false ∧ Admissible m.engine.riskEngine o) := by
  cases op with
  | submit env o =>
      have hstep : (m.step (.submit env o)).1
          = ⟨(m.engine.submit env o).1, m.executed ++ (m.engine.submit env o).2.executed⟩ := rfl
      rcases submit_cases m.engine env o with ⟨r', href, heng, hex, hna⟩ | ⟨r', hap, heq, hh, ha⟩
      · refine Or.inl ⟨?_, ?_⟩
        · rw [hstep, heng, hex, List.append_nil]
          exact ⟨rfl, href.same, fun _ => Or.inl rfl⟩
        · intro env' o' heq
          cases heq
          exact hna
      · have hpr := process_engine (e := { m.engine with riskEngine := r' }) h.stops env o
        refine Or.inr ⟨env, o, r', rfl, hap, ?_, hh, ha⟩
        rw [hstep, heq, hpr.1, hpr.2]; rfl
  | cancel symbol orderId =>
      refine Or.inl ⟨⟨List.append_nil _, ?_, fun symbol' => ?_⟩, fun _ _ heq => by cases heq⟩
      · show SameBooks m.engine.riskEngine (m.engine.cancel symbol orderId).2.riskEngine
        rw [riskEngine_cancel]
        exact ⟨rfl, rfl, rfl⟩
      · exact (bookOf_cancel m.engine symbol orderId symbol').imp_right (fun heq => ⟨orderId, heq⟩)
  | halt =>
      exact Or.inl ⟨⟨List.append_nil _, ⟨rfl, rfl, rfl⟩, fun _ => Or.inl rfl⟩,
        fun _ _ heq => by cases heq⟩
  | resume =>
      exact Or.inl ⟨⟨List.append_nil _, ⟨rfl, rfl, rfl⟩, fun _ => Or.inl rfl⟩,
        fun _ _ heq => by cases heq⟩

def marketAfter (ops : List EngineOp) : Market := run Market.step Market.initial ops

theorem marketAfter_snoc (ops : List EngineOp) (op : EngineOp) :
    marketAfter (ops ++ [op]) = ((marketAfter ops).step op).1 := run_snoc ..

def marketTrace (ops : List EngineOp) : List (Transition Market EngineOp EngineOut) :=
  trace Market.step Market.initial ops

/-- Every call of the run returns, so that the next one can be made. -/
def AllComplete (ops : List EngineOp) : Prop :=
  ∀ t ∈ marketTrace ops, t.output.submitted.completed = true

theorem AllComplete.of_append {pre post : List EngineOp} (h : AllComplete (pre ++ post)) :
    AllComplete pre := by
  intro t ht
  refine h t ?_
  rw [marketTrace, trace_append]; exact List.mem_append_left _ ht

/-- **The invariant holds between any two calls.** -/
theorem engineInv_reachable (ops : List EngineOp) : EngineInv (marketAfter ops).engine [] :=
  run_always Market.step (P := fun _ m => EngineInv m.engine []) engineInv_initial
    (fun _ op hp => engineInv_step hp op) ops

/-- Readings that never change, for concrete runs. -/
def stillEnv : SubmitEnv := ⟨still, fun _ => 0, fun _ => "s", fun _ => 0, fun _ => still⟩

end TitanX.Proof
