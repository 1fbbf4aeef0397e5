import TitanX.Proof.Ledger

/-!
# The position limit

The position check looks at an order once, when it is admitted, and against the
recorded position. What an account can still be made to buy is also what it has
resting: its *exposure* on a side is its position there plus its open quantity
(`exposure`). Trading moves quantity from open to position and leaves the exposure of
the passive party alone; only a new order adds to it, and only its own account's.

So the limit holds along a run in which every admitted order leaves its account's
exposure within the limit (`position_limit`). The code does not check that, and four
orders that it admits carry an account past the limit (`position_limit_exceeded`).
-/

namespace TitanX.Proof

open TitanX MatchingEngine

/-! ## Exposure in one book -/

theorem passiveKey_accountId : PassiveKey Order.accountId Trade.passiveAccountId :=
  ⟨fun _ _ _ _ _ _ => rfl, fun _ _ _ => rfl⟩

/-- The aggressor of every trade of a call is the caller. -/
theorem executed_aggressor {o : Order} {fills : List Fill} (h : CallBy o fills)
    (account : String) :
    executed Trade.aggressorAccountId account fills
      = if account = o.accountId then filled fills else 0 := by
  split
  · rename_i ha
    refine congrArg List.sum (List.map_congr_left (fun f hf => ?_))
    rw [if_pos ((h f hf).1.trans ha.symm)]
  · rename_i ha
    exact executed_eq_zero (fun f hf heq => ha (heq.symm.trans (h f hf).1))

section Insert

variable {b : OrderBook} (h : RepInv b) (order : Order) (key : Order → String) (x : String)

include h

theorem openQty_insert_own :
    openQty key x ((b.insertIntoBook order).resting order.side)
      = (if key order = x then order.remainingQuantity else 0)
        + openQty key x (b.resting order.side) := by
  rw [OrderBook.resting, insert_levels_own, openQty_perm (pushBack_perm (h.side order.side) order),
    openQty_cons]
  rfl

omit h in
theorem openQty_insert_opposite :
    openQty key x ((b.insertIntoBook order).resting order.side.opposite)
      = openQty key x (b.resting order.side.opposite) := by
  rw [OrderBook.resting, insert_levels_of_ne b order (OrderSide.opposite_ne _)]
  rfl

end Insert

/-- What a call moves between open and executed: on the side it sweeps, no more comes
out than is booked; on its own side, no more than the order brings goes in. -/
structure Moves (b : OrderBook) (o : Order) (account : String) (fills : List Fill)
    (b' : OrderBook) : Prop where
  rep : RepInv b'
  opposite : executed Trade.passiveAccountId account fills
      + openQty Order.accountId account (b'.resting o.side.opposite)
    ≤ openQty Order.accountId account (b.resting o.side.opposite)
  own : (if account = o.accountId then filled fills else 0)
      + openQty Order.accountId account (b'.resting o.side)
    ≤ openQty Order.accountId account (b.resting o.side)
      + if account = o.accountId then max o.remainingQuantity 0 else 0

theorem moves_sweep {b : OrderBook} (h : RepInv b) (amb : Ambient) (o : Order) (account : String)
    (crosses : Int → Bool) :
    Moves b o account (b.sweep amb o crosses).1.fills (b.sweep amb o crosses).2 := by
  have htot := sweep_filled h amb o crosses
  refine ⟨repInv_sweep h amb o crosses,
    le_of_eq (sweep_executed h passiveKey_accountId account amb o crosses), ?_⟩
  rw [sweep_resting_own]
  split <;> omega

/-- The remainder adds to the caller's own side what the sweep left of the order. -/
theorem moves_remainder {b : OrderBook} (h : RepInv b) (amb : Ambient) {o : Order}
    (hfresh : NotResting b o.orderId) (account : String)
    (hrem : 0 < (b.sweep amb o (OrderBook.crossesLimit o)).1.remainingQty) :
    Moves b o account (b.sweep amb o (OrderBook.crossesLimit o)).1.fills
      ((b.sweep amb o (OrderBook.crossesLimit o)).2.insertIntoBook (remainder b amb o)) := by
  have htot := sweep_filled h amb o (OrderBook.crossesLimit o)
  obtain ⟨hrep, hopp, -⟩ := moves_sweep h amb o account (OrderBook.crossesLimit o)
  have hown := openQty_insert_own hrep (remainder b amb o) Order.accountId account
  have hother := openQty_insert_opposite (b := (b.sweep amb o (OrderBook.crossesLimit o)).2)
    (remainder b amb o) Order.accountId account
  have hside : (remainder b amb o).side = o.side := rfl
  have hacc : (remainder b amb o).accountId = o.accountId := rfl
  have hqty : (remainder b amb o).remainingQuantity
      = (b.sweep amb o (OrderBook.crossesLimit o)).1.remainingQty := rfl
  rw [hside, sweep_resting_own, hacc, hqty] at hown
  rw [hside] at hother
  refine ⟨repInv_insert hrep hrem (notResting_sweep h hfresh amb o _), ?_, ?_⟩
  · rw [hother]
    exact hopp
  · rw [hown]
    by_cases ha : account = o.accountId
    · rw [if_pos ha, if_pos ha, if_pos ha.symm]
      omega
    · rw [if_neg ha, if_neg ha, if_neg (fun hc => ha hc.symm)]
      omega

theorem moves_match {b : OrderBook} (h : RepInv b) (amb : Ambient) {o : Order}
    (hfresh : NotResting b o.orderId) (account : String) :
    Moves b o account (b.matchIncoming amb o).1 (b.matchIncoming amb o).2 := by
  refine matchIncoming_rule (P := Moves b o account) (Q := Moves b o account) ?_
    (moves_sweep h amb o account) (fun _ _ hP => hP)
    (fun _ hrem _ => moves_remainder h amb hfresh account hrem) ?_
  · refine ⟨h, ?_, ?_⟩
    · simp [executed]
    · simp only [filled, List.map_nil, List.sum_nil]
      split <;> omega
  · rintro fills b' ⟨hrep, hle, hle'⟩
    have h₁ := openQty_remove_side hrep o.orderId Order.accountId account o.side.opposite
    have h₂ := openQty_remove_side hrep o.orderId Order.accountId account o.side
    exact ⟨repInv_remove hrep _, by omega, by omega⟩

/-! ## Exposure of an account -/

/-- The position on side `s` that the account has, or can be made to have by others. -/
def exposure (m : Market) (account symbol : String) (s : OrderSide) : Int :=
  signed s (positionOf account symbol m.executed)
    + openQty Order.accountId account ((m.engine.bookOf symbol).resting s)

def Bounded (m : Market) : Prop :=
  ∀ account symbol s, exposure m account symbol s ≤ RiskEngine.maxPositionShares

/-- If the call is a `submit` that is admitted, its account has room for all of it. -/
def HasRoom (m : Market) : EngineOp → Prop
  | .submit _ o => m.engine.halted = false → Admissible m.engine.riskEngine o →
      o.type ≠ .stopLimit →
      exposure m o.accountId o.symbol o.side + max o.remainingQuantity 0
        ≤ RiskEngine.maxPositionShares
  | _ => True

theorem signed_signed (s : OrderSide) (n k : Int) : signed s (n + signed s k) = signed s n + k := by
  cases s with
  | buy => rfl
  | sell => simp only [signed]; omega

theorem signed_opposite (s : OrderSide) (n k : Int) :
    signed s.opposite (n + signed s k) = signed s.opposite n - k := by
  cases s with
  | buy => simp only [signed, OrderSide.opposite]; omega
  | sell => simp only [signed, OrderSide.opposite]; omega

/-- What a call does to an account's exposure in its symbol: at most the order's
quantity is added, on the order's side, for the order's account. -/
theorem Moves.exposure_le {b b' : OrderBook} {o : Order} {account : String} {fills : List Fill}
    (hmv : Moves b o account fills b') (hcall : CallBy o fills) (n : Int) (s : OrderSide) :
    signed s (n + positionOf account o.symbol fills) + openQty Order.accountId account (b'.resting s)
      ≤ signed s n + openQty Order.accountId account (b.resting s)
        + if s = o.side ∧ account = o.accountId then max o.remainingQuantity 0 else 0 := by
  have hown := hmv.own
  rw [← executed_aggressor hcall account] at hown
  have hopp := hmv.opposite
  have hpas : 0 ≤ executed Trade.passiveAccountId account fills :=
    executed_nonneg (fun f hf => (hcall f hf).2.2.2)
  have hagg : 0 ≤ executed Trade.aggressorAccountId account fills :=
    executed_nonneg (fun f hf => (hcall f hf).2.2.2)
  rw [positionOf_call hcall]
  rcases OrderSide.eq_or_opposite o.side s with rfl | rfl
  · -- the order's own side: only its own account gains
    rw [signed_signed]
    by_cases ha : account = o.accountId
    · rw [if_pos ha] at hown
      rw [if_pos ⟨rfl, ha⟩]
      omega
    · rw [if_neg ha] at hown
      rw [if_neg (fun hc => ha hc.2)]
      omega
  · -- the other side: what is booked comes out of what was open
    rw [signed_opposite, if_neg (fun hc => OrderSide.opposite_ne _ hc.1)]
    omega

theorem bounded_match {m : Market} (hinv : EngineInv m.engine []) (h : Bounded m) {env : SubmitEnv}
    {o : Order} {r' : RiskEngine} (hap : Approval m.engine.riskEngine o r')
    (hroom : o.type ≠ .stopLimit → exposure m o.accountId o.symbol o.side
      + max o.remainingQuantity 0 ≤ RiskEngine.maxPositionShares) :
    Bounded ⟨afterMatch { m.engine with riskEngine := r' } env o,
      m.executed ++ ((m.engine.bookOf o.symbol).matchIncoming env.amb o).1⟩ := by
  intro account symbol s
  have hbook := hinv.bookOf o.symbol
  have hcall := match_callBy hbook.rep env.amb o
  have hbefore := h account symbol s
  unfold exposure at hbefore ⊢
  dsimp only
  rw [bookOf_afterMatch, positionOf_append]
  simp only [bookOf_setRisk]
  by_cases hs : symbol = o.symbol
  · subst hs
    rw [if_pos rfl]
    by_cases ht : o.type = .stopLimit
    · -- a stop order is not matched at all
      have hm : ∀ b : OrderBook, b.matchIncoming env.amb o = ([], b) := fun b => by
        unfold OrderBook.matchIncoming; rw [ht]
      rw [hm]
      simpa [positionOf] using hbefore
    · have hfresh := BookRunOf.notResting ((hinv.approve hap).bookOf o.symbol)
        (List.mem_cons_self ..)
      refine ((moves_match hbook.rep env.amb hfresh account).exposure_le hcall _ s).trans ?_
      by_cases hc : s = o.side ∧ account = o.accountId
      · rw [if_pos hc, hc.1, hc.2]
        exact hroom ht
      · rw [if_neg hc, add_zero]
        exact hbefore
  · rw [if_neg hs, positionOf_other hcall account hs, add_zero]
    exact hbefore

theorem Bounded.quiet {m m' : Market} (hinv : EngineInv m.engine []) (h : Bounded m)
    (hq : Quiet m m') : Bounded m' := by
  intro account symbol s
  have hbefore := h account symbol s
  unfold exposure at hbefore ⊢
  rw [hq.executed]
  rcases hq.book symbol with heq | ⟨orderId, heq⟩
  · rw [heq]; exact hbefore
  · rw [heq]
    have hle := openQty_remove_side (hinv.bookOf symbol).rep orderId Order.accountId account s
    omega

theorem bounded_step {m : Market} (hinv : EngineInv m.engine []) (h : Bounded m) {op : EngineOp}
    (hroom : HasRoom m op) : Bounded (m.step op).1 := by
  rcases quiet_or_admitted hinv op with ⟨hq, -⟩ | ⟨env, o, r', rfl, hap, heq, hh, ha⟩
  · exact h.quiet hinv hq
  · rw [heq]; exact bounded_match hinv h hap (hroom hh ha)

theorem bounded_initial : Bounded Market.initial := by
  intro account symbol s
  have hopen : openQty Order.accountId account
      ((Market.initial.engine.bookOf symbol).resting s) = 0 := by cases s <;> rfl
  have hpos : positionOf account symbol Market.initial.executed = 0 := rfl
  unfold exposure
  rw [hopen, hpos]
  cases s <;> decide

/-- A bounded exposure bounds the position, open orders being positive. -/
theorem Bounded.position {m : Market} (hinv : EngineInv m.engine []) (h : Bounded m)
    (account symbol : String) :
    -10000 ≤ positionOf account symbol m.executed
      ∧ positionOf account symbol m.executed ≤ 10000 := by
  have hopen : ∀ s, 0 ≤ openQty Order.accountId account ((m.engine.bookOf symbol).resting s) :=
    fun s => openQty_sublist (L := []) (List.nil_sublist _)
      (fun o ho => ((hinv.bookOf symbol).rep.side s).positive o ho)
  have hbuy := h account symbol .buy
  have hsell := h account symbol .sell
  have := hopen .buy
  have := hopen .sell
  simp only [exposure, signed, RiskEngine.maxPositionShares] at hbuy hsell
  exact ⟨by omega, by omega⟩

/--
**When the position limit holds.** In a run in which every admitted order finds room
for all of it in its account's exposure, every account's position in every symbol is
within the limit in every state.
-/
theorem position_limit {ops : List EngineOp} (h : ∀ t ∈ marketTrace ops, HasRoom t.before t.input) :
    ∀ pre post, ops = pre ++ post → ∀ account symbol,
      -10000 ≤ positionOf account symbol (marketAfter pre).executed
        ∧ positionOf account symbol (marketAfter pre).executed ≤ 10000 := by
  intro pre post hops
  refine Bounded.position (engineInv_reachable pre) ?_
  refine trace_always Market.step (Q := fun t => HasRoom t.before t.input) (P := Bounded)
    bounded_initial ?_ (fun t ht => h t ?_)
  · exact fun is op hroom hp => bounded_step (engineInv_reachable is) hp hroom
  · rw [hops, marketTrace, trace_append]; exact List.mem_append_left _ ht

/-- A buy and a sell of 10, with room for both. -/
theorem position_limit_smallRun :
    positionOf "A" "AAPL" (marketAfter passiveFillRun).executed = 10
      ∧ ∀ account symbol,
          -10000 ≤ positionOf account symbol (marketAfter passiveFillRun).executed
            ∧ positionOf account symbol (marketAfter passiveFillRun).executed ≤ 10000 := by
  have hroom : ∀ t ∈ marketTrace passiveFillRun, HasRoom t.before t.input := by
    intro t ht
    simp only [marketTrace, passiveFillRun, trace, List.mem_cons, List.not_mem_nil, or_false] at ht
    rcases ht with rfl | rfl
    · exact fun _ _ _ => by decide
    · exact fun _ _ _ => by decide
  exact ⟨by decide, position_limit hroom passiveFillRun [] (by simp)⟩

/-- `A` rests a buy of 6000, which is sold into, and then another. -/
def twoBuysRun : List EngineOp :=
  [.submit stillEnv (Order.create "a1" 0 "A" "AAPL" .buy .limit 10000000000 0 6000),
    .submit stillEnv (Order.create "b" 0 "B" "AAPL" .sell .limit 10000000000 0 6000),
    .submit stillEnv (Order.create "a2" 0 "A" "AAPL" .buy .limit 10000000000 0 6000),
    .submit stillEnv (Order.create "c" 0 "C" "AAPL" .sell .limit 10000000000 0 6000)]

/-- All four orders are admitted and complete, and `A` has bought 12000. -/
theorem position_limit_exceeded :
    (marketTrace twoBuysRun).map (fun t => t.output.submitted.completed)
        = [true, true, true, true]
      ∧ positionOf "A" "AAPL" (marketAfter twoBuysRun).executed = 12000
      ∧ ¬ ∀ account symbol,
          -10000 ≤ positionOf account symbol (marketAfter twoBuysRun).executed
            ∧ positionOf account symbol (marketAfter twoBuysRun).executed ≤ 10000 := by
  refine ⟨by decide, by decide, fun h => ?_⟩
  exact absurd (h "A" "AAPL").2 (by decide)

end TitanX.Proof
