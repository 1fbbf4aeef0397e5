import TitanX.Model.RiskEngine

/-!
# What the risk engine's methods do

`checkPreTrade_cases` is the whole behaviour of the check as its callers see it: it
waits, rejects, or approves. Only an approval moves the active sets, and it moves
one of them by one id (`Approval`). Nothing here touches the positions but
`recordFill`.
-/

namespace TitanX.Proof

open TitanX RiskEngine

/-! ## Active sets -/

/-- The maps after an order has been tracked. -/
theorem active_trackOrder (r : RiskEngine) (order : Order) (s : OrderSide) (a : String) :
    ((r.trackOrder order).active s).lookup a
      = if s = order.side ∧ a = order.accountId then
          some (insert order.orderId (r.activeOrders order.side order.accountId))
        else (r.active s).lookup a := by
  unfold trackOrder
  by_cases ha : a = order.accountId
  · subst ha
    cases order.side <;> cases s <;> simp [active, Finmap.lookup_insert]
  · rw [if_neg (fun h => ha h.2)]
    cases order.side <;> cases s <;> simp [active, Finmap.lookup_insert_of_ne _ ha]

theorem activeOrders_trackOrder (r : RiskEngine) (order : Order) (s : OrderSide) (a : String) :
    (r.trackOrder order).activeOrders s a
      = if s = order.side ∧ a = order.accountId then insert order.orderId (r.activeOrders s a)
        else r.activeOrders s a := by
  rw [activeOrders, active_trackOrder]
  split
  · rename_i h
    rw [h.1, h.2]; rfl
  · rfl

/-- The parts of the state that the checks leave alone. -/
structure SameBooks (r r' : RiskEngine) : Prop where
  positions : r'.positions = r.positions
  lastTradePrices : r'.lastTradePrices = r.lastTradePrices
  circuitBreaker : r'.circuitBreaker = r.circuitBreaker

theorem SameBooks.getNetPosition {r r' : RiskEngine} (h : SameBooks r r')
    (accountId symbol : String) :
    r'.getNetPosition accountId symbol = r.getNetPosition accountId symbol := by
  unfold RiskEngine.getNetPosition; rw [h.positions]

theorem SameBooks.positionExceeded {r r' : RiskEngine} (h : SameBooks r r') (order : Order) :
    r'.positionExceeded order = r.positionExceeded order := by
  unfold RiskEngine.positionExceeded; rw [h.getNetPosition]

theorem SameBooks.fatFinger {r r' : RiskEngine} (h : SameBooks r r') (order : Order) :
    r'.fatFinger order = r.fatFinger order := by
  unfold RiskEngine.fatFinger; rw [h.lastTradePrices]

/-- The order was let through: its id is new, its account has nothing active on the
other side, and it is tracked from now on. -/
structure Approval (r : RiskEngine) (order : Order) (r' : RiskEngine) : Prop where
  same : SameBooks r r'
  fresh : order.orderId ∉ r.seenOrderIds
  seen : r'.seenOrderIds = insert order.orderId r.seenOrderIds
  opposite : r.activeOrders order.side.opposite order.accountId = ∅
  active : ∀ s a, r'.activeOrders s a
    = if s = order.side ∧ a = order.accountId then insert order.orderId (r.activeOrders s a)
      else r.activeOrders s a

theorem Approval.mem_active {r r' : RiskEngine} {order : Order} (h : Approval r order r')
    {s : OrderSide} {a id : String} :
    id ∈ r'.activeOrders s a
      ↔ id ∈ r.activeOrders s a ∨ (order.side = s ∧ order.accountId = a ∧ order.orderId = id) := by
  rw [h.active]
  split
  · rename_i hsa
    rw [Finset.mem_insert, or_comm, ← hsa.1, ← hsa.2, eq_comm (a := id)]
    simp
  · rename_i hsa
    refine ⟨Or.inl, fun hid => hid.resolve_right (fun ho => hsa ⟨ho.1.symm, ho.2.1.symm⟩)⟩

/-- The order was not let through; at most its id is now known. -/
structure Refusal (r r' : RiskEngine) : Prop where
  same : SameBooks r r'
  seen : r.seenOrderIds ⊆ r'.seenOrderIds
  active : ∀ s a, r'.activeOrders s a = r.activeOrders s a

/-! ## The check -/

/-- The order passes the five checks that are the risk engine's own. -/
structure Passes (r : RiskEngine) (order : Order) : Prop where
  fresh : order.orderId ∉ r.seenOrderIds
  notional : notionalExceeded order = false
  position : r.positionExceeded order = false
  deviation : r.fatFinger order = false
  opposite : r.selfTrade order = false

/-- The order passes all six checks: the breaker answers, and does not halt the symbol. -/
structure Admissible (r : RiskEngine) (order : Order) : Prop where
  free : r.circuitBreaker.held = false
  notHalted : r.circuitBreaker.data.haltFlag order.symbol = false
  passes : Passes r order

theorem refusal_reject (r : RiskEngine) (reason : String) : Refusal r (r.reject reason).2 :=
  ⟨⟨rfl, rfl, rfl⟩, Finset.Subset.refl _, fun s _ => by cases s <;> rfl⟩

/-- A refusal after the id has been entered. -/
theorem refusal_reject_seen (r : RiskEngine) (id reason : String) :
    Refusal r ({ r with seenOrderIds := insert id r.seenOrderIds }.reject reason).2 :=
  ⟨⟨rfl, rfl, rfl⟩, Finset.subset_insert _ _, fun s _ => by cases s <;> rfl⟩

theorem approval_trackOrder {r : RiskEngine} {order : Order} (hfresh : order.orderId ∉ r.seenOrderIds)
    (hopp : r.selfTrade order = false) :
    Approval r order
      ({ r with seenOrderIds := insert order.orderId r.seenOrderIds }.trackOrder order) where
  same := by unfold trackOrder; cases order.side <;> exact ⟨rfl, rfl, rfl⟩
  fresh := hfresh
  seen := by unfold trackOrder; cases order.side <;> rfl
  opposite := by simpa [selfTrade] using hopp
  active := by
    intro s a
    rw [activeOrders_trackOrder]
    cases s <;> rfl

/-- The checks one after the other, once the breaker has answered. -/
theorem checkOrder_cases (r : RiskEngine) (halted : Bool) (order : Order) :
    ((r.checkOrder halted order).1.approved = false ∧ Refusal r (r.checkOrder halted order).2
        ∧ ¬ (halted = false ∧ Passes r order))
      ∨ ((r.checkOrder halted order).1.approved = true
        ∧ Approval r order (r.checkOrder halted order).2 ∧ halted = false ∧ Passes r order) := by
  unfold checkOrder
  split
  · rename_i hh
    exact Or.inl ⟨rfl, refusal_reject _ _, fun hp => absurd (hh.symm.trans hp.1) (by decide)⟩
  rename_i hh
  split
  · rename_i hseen
    exact Or.inl ⟨rfl, refusal_reject _ _, fun hp => hp.2.fresh hseen⟩
  rename_i hfresh
  dsimp only
  -- from here on the id has been entered, which none of the other checks looks at
  split
  · rename_i hc
    exact Or.inl ⟨rfl, refusal_reject_seen _ _ _, fun hp =>
      absurd (hp.2.notional.symm.trans hc) (by decide)⟩
  rename_i hnot
  split
  · rename_i hc
    exact Or.inl ⟨rfl, refusal_reject_seen _ _ _, fun hp =>
      absurd (hp.2.position.symm.trans hc) (by decide)⟩
  rename_i hpos
  split
  · rename_i hc
    exact Or.inl ⟨rfl, refusal_reject_seen _ _ _, fun hp =>
      absurd (hp.2.deviation.symm.trans hc) (by decide)⟩
  rename_i hdev
  split
  · rename_i hc
    exact Or.inl ⟨rfl, refusal_reject_seen _ _ _, fun hp =>
      absurd (hp.2.opposite.symm.trans hc) (by decide)⟩
  rename_i hself
  refine Or.inr ⟨rfl, ?_, Bool.eq_false_iff.mpr hh, ?_⟩
  · exact approval_trackOrder hfresh (Bool.eq_false_iff.mpr hself)
  · exact ⟨hfresh, Bool.eq_false_iff.mpr hnot, Bool.eq_false_iff.mpr hpos,
      Bool.eq_false_iff.mpr hdev, Bool.eq_false_iff.mpr hself⟩

/-- With the breaker's mutex free the check runs through: the breaker answers and is left
as it was, and only the counter has moved. -/
theorem checkPreTrade_free {r : RiskEngine} (h : r.circuitBreaker.held = false) (order : Order) :
    r.checkPreTrade order
      = .returned
          (({ r with totalChecked := r.totalChecked + 1 }).checkOrder
            (r.circuitBreaker.data.haltFlag order.symbol) order).1
          (({ r with totalChecked := r.totalChecked + 1 }).checkOrder
            (r.circuitBreaker.data.haltFlag order.symbol) order).2 := by
  have hcb : (⟨false, r.circuitBreaker.data⟩ : Guarded CircuitBreaker) = r.circuitBreaker := by
    rw [← h]
  unfold checkPreTrade CircuitBreaker.isHalted
  dsimp only
  rw [critical_free h]
  dsimp only [Outcome.mapState, Outcome.andThen]
  rw [hcb]

/-- With the mutex held it waits. -/
theorem checkPreTrade_held {r : RiskEngine} (h : r.circuitBreaker.held = true) (order : Order) :
    r.checkPreTrade order = .blocked { r with totalChecked := r.totalChecked + 1 } := by
  unfold checkPreTrade CircuitBreaker.isHalted
  dsimp only
  rw [critical_held h]; rfl

/-- **What the check can do**: wait for the breaker, refuse, or approve. -/
theorem checkPreTrade_cases (r : RiskEngine) (order : Order) :
    (∃ r', r.checkPreTrade order = .blocked r' ∧ Refusal r r' ∧ ¬ Admissible r order)
      ∨ (∃ res r', r.checkPreTrade order = .returned res r' ∧ res.approved = false ∧ Refusal r r'
        ∧ ¬ Admissible r order)
      ∨ (∃ res r', r.checkPreTrade order = .returned res r' ∧ res.approved = true
        ∧ Approval r order r' ∧ Admissible r order) := by
  cases hheld : r.circuitBreaker.held with
  | true =>
      refine Or.inl ⟨_, checkPreTrade_held hheld order, ?_, ?_⟩
      · exact ⟨⟨rfl, rfl, rfl⟩, Finset.Subset.refl _, fun s _ => by cases s <;> rfl⟩
      · exact fun ha => absurd (ha.free.symm.trans hheld) (by decide)
  | false =>
      have hcheck := checkPreTrade_free hheld order
      rcases checkOrder_cases { r with totalChecked := r.totalChecked + 1 }
          (r.circuitBreaker.data.haltFlag order.symbol) order with
        ⟨happ, href, hnot⟩ | ⟨happ, hap, hflag, hpass⟩
      · refine Or.inr (Or.inl ⟨_, _, hcheck, happ, ⟨⟨href.same.1, href.same.2, href.same.3⟩,
          href.seen, href.active⟩, ?_⟩)
        exact fun ha => hnot ⟨ha.notHalted,
          ⟨ha.passes.1, ha.passes.2, ha.passes.3, ha.passes.4, ha.passes.5⟩⟩
      · refine Or.inr (Or.inr ⟨_, _, hcheck, happ, ⟨⟨hap.same.1, hap.same.2, hap.same.3⟩,
          hap.fresh, hap.seen, hap.opposite, hap.active⟩, ?_⟩)
        exact ⟨hheld, hflag, ⟨hpass.1, hpass.2, hpass.3, hpass.4, hpass.5⟩⟩

/-! ## Positions -/

/-- `recordFill` moves one position. -/
theorem getNetPosition_recordFill (r : RiskEngine) (accountId symbol : String) (side : OrderSide)
    (quantity : Int) (a s : String) :
    (r.recordFill accountId symbol side quantity).getNetPosition a s
      = if a = accountId ∧ s = symbol then
          wrap64 (r.getNetPosition a s + fillDelta side quantity)
        else r.getNetPosition a s := by
  unfold getNetPosition recordFill
  dsimp only
  by_cases ha : a = accountId
  · subst ha
    rw [Finmap.lookup_insert]
    by_cases hs : s = symbol
    · subst hs
      rw [if_pos ⟨rfl, rfl⟩]
      cases hl : r.positions.lookup a with
      | none => simp [Finmap.lookup_insert]
      | some bySymbol => simp [Finmap.lookup_insert]
    · rw [if_neg (fun h => hs h.2)]
      cases hl : r.positions.lookup a with
      | none => simp [Finmap.lookup_insert_of_ne _ hs]
      | some bySymbol => simp [Finmap.lookup_insert_of_ne _ hs]
  · rw [if_neg (fun h => ha h.1), Finmap.lookup_insert_of_ne _ ha]

end TitanX.Proof
