import TitanX.Proof.Notional
import TitanX.Proof.PositionLimit
import TitanX.Proof.Window

/-!
# The fat-finger check

The deviation of an order from the last trade is computed in `int64_t` as basis points of
the last price. The product `|price - last| * 10000` can leave the range and then come out as
anything, negative numbers among them. An order that is far from the last trade is refused
exactly when it is still far with the product taken modulo `2 ^ 64`, or one of the other
checks refuses it (`fat_finger_sound_iff`).

Where the product fits, the comparison is exact. The notional check would see to that, since
it holds back prices above the limit, if its own product did not overflow: in a run in which
it never does, the check is sound (`fat_finger_sound_of_fits`).
-/

namespace TitanX.Proof

open TitanX RiskEngine

/-- At least 1001 basis points of the last price, over the integers. -/
def FarFrom (last price : Int) : Prop := 1001 * last ≤ |price - last| * 10000

instance (last price : Int) : Decidable (FarFrom last price) := inferInstanceAs (Decidable (_ ≤ _))

/-- The same with the product as `int64_t` has it. -/
def SeenFar (last price : Int) : Prop := 1001 * last ≤ wrap64 (|price - last| * 10000)

instance (last price : Int) : Decidable (SeenFar last price) := inferInstanceAs (Decidable (_ ≤ _))

/-- A check that does not look at the price refuses the order, or does not answer. -/
def RefusedAnyway (r : RiskEngine) (order : Order) : Prop :=
  r.circuitBreaker.held = true ∨ r.circuitBreaker.data.haltFlag order.symbol = true
    ∨ order.orderId ∈ r.seenOrderIds ∨ r.positionExceeded order = true
    ∨ r.selfTrade order = true

/-! ## One order -/

theorem fatFinger_iff {r : RiskEngine} {order : Order} {last : Int}
    (hp : 0 < order.price ∧ order.price < 9223372036854775808)
    (hlast : r.lastTradePrices.lookup order.symbol = some last)
    (hl : 0 < last ∧ last < 9223372036854775808) :
    r.fatFinger order = true ↔ SeenFar last order.price := by
  have hdiff : |order.price - last| < 9223372036854775808 :=
    abs_sub_lt_of_nonneg_of_lt (by omega) hp.2 (by omega) hl.2
  have hbps : fatFingerBps < moveBps last order.price ↔ SeenFar last order.price :=
    lt_moveBps_iff (by decide) hl.1 hdiff
  unfold fatFinger
  rw [hlast, ← hbps]
  simp [deviationBps, hp.1, hl.1]

/--
**When a far price is refused.** For any state and any order, with positive `int64_t` prices: a
far order is refused if and only if it is still far with the wrapped product, or its wrapped
notional is above the limit, or a check that does not look at the price refuses it.
-/
theorem fat_finger_sound_iff {r : RiskEngine} {order : Order} {last : Int}
    (hp : 0 < order.price ∧ order.price < 9223372036854775808)
    (hlast : r.lastTradePrices.lookup order.symbol = some last)
    (hl : 0 < last ∧ last < 9223372036854775808) :
    (FarFrom last order.price → ¬Approves r order)
      ↔ ¬FarFrom last order.price ∨ RefusedAnyway r order
        ∨ maxNotionalFixed < wrap64 (order.price * order.quantity)
        ∨ SeenFar last order.price := by
  rw [approves_iff, imp_iff_not_or]
  refine or_congr_right ⟨fun hnot => ?_, fun h hadm => ?_⟩
  · by_contra h
    unfold RefusedAnyway at h
    rw [← fatFinger_iff hp hlast hl] at h
    simp only [not_or, Bool.not_eq_true, Int.not_lt] at h
    obtain ⟨⟨hheld, hhalt, hseen, hposition, hself⟩, hnotional, hfat⟩ := h
    exact hnot ⟨hheld, hhalt, hseen, (notionalExceeded_iff hp.1).mpr hnotional, hposition, hfat, hself⟩
  · obtain ⟨hheld, hhalt, hseen, hnotional, hposition, hfat, hself⟩ := hadm
    rw [notionalExceeded_iff hp.1] at hnotional
    rw [← fatFinger_iff hp hlast hl, RefusedAnyway, hheld, hhalt, hposition, hself, hfat] at h
    simp [hseen] at h
    omega

/-- Five shares of AAPL have been sold at 100. -/
def soldAtHundred : List EngineOp :=
  [.submit stillEnv (Order.create "s" 0 "X" "AAPL" .sell .limit 100 0 5),
    .submit stillEnv (Order.create "b" 0 "Y" "AAPL" .buy .limit 100 0 5)]

theorem last_soldAtHundred :
    (marketAfter soldAtHundred).engine.riskEngine.lastTradePrices.lookup "AAPL" = some 100 := by
  decide

/-- An order at 120 is 2000 basis points away. -/
theorem fat_finger_sound_at_120 :
    FarFrom 100 120 ∧ ¬Approves (marketAfter soldAtHundred).engine.riskEngine
      (Order.create "f" 0 "Z" "AAPL" .buy .limit 120 0 4) := by
  have hfar : FarFrom 100 120 := by decide
  have hp : 0 < (Order.create "f" 0 "Z" "AAPL" .buy .limit 120 0 4).price
      ∧ (Order.create "f" 0 "Z" "AAPL" .buy .limit 120 0 4).price < 9223372036854775808 := by
    decide
  refine ⟨hfar, (fat_finger_sound_iff hp last_soldAtHundred (by decide)).mpr ?_ hfar⟩
  exact .inr (.inr (.inr (by decide)))

/-- A price of `2 ^ 62`, of which four shares cost `2 ^ 64`. -/
def farOrder : Order := Order.create "f" 0 "Z" "AAPL" .buy .limit 4611686018427387904 0 4

/-- **An order at 46 quadrillion times the last price is let through.** The notional wraps to
0, and the basis points come out as -10000. -/
theorem far_price_approved :
    (marketAfter soldAtHundred).engine.riskEngine.lastTradePrices.lookup "AAPL" = some 100
      ∧ FarFrom 100 farOrder.price
      ∧ Approves (marketAfter soldAtHundred).engine.riskEngine farOrder := by
  refine ⟨last_soldAtHundred, by decide, (approves_iff _ _).mpr ⟨?_, ?_, ?_, ?_, ?_, ?_, ?_⟩⟩ <;>
    decide

/-- Where the product fits in 64 bits, a far price is refused. -/
theorem fatFinger_of_farFrom {r : RiskEngine} {order : Order} {last : Int}
    (hp : 0 < order.price ∧ order.price < 9223372036854775808)
    (hlast : r.lastTradePrices.lookup order.symbol = some last)
    (hl : 0 < last ∧ last < 9223372036854775808)
    (hfits : |order.price - last| * 10000 < 9223372036854775808)
    (hfar : FarFrom last order.price) : ¬Approves r order := by
  intro happ
  have hnonneg := abs_nonneg (order.price - last)
  have hseen : SeenFar last order.price := by
    unfold SeenFar
    rw [wrap64_of_lt (by omega) hfits]
    exact hfar
  have hpass := ((approves_iff r order).mp happ).passes.deviation
  rw [(fatFinger_iff hp hlast hl).mpr hseen] at hpass
  cases hpass

/-! ## Runs in which no notional overflows -/

/-- The orders are made by `Order.create`, and the products of the notional check fit. -/
def NotionalsFit (ops : List EngineOp) : Prop :=
  ∀ env o, EngineOp.submit env o ∈ ops → o.Created ∧ o.price * o.quantity < 9223372036854775808

/-- The limit on the notional is one on the price. -/
theorem price_le_of_fits {r : RiskEngine} {o : Order} (hadm : Admissible r o)
    (hfits : o.price * o.quantity < 9223372036854775808) (hq : 0 < o.quantity) :
    o.price ≤ maxNotionalFixed := by
  have hmax : 0 < maxNotionalFixed := by decide
  by_cases hp : 0 < o.price
  · calc o.price ≤ o.price * o.quantity := le_mul_of_one_le_right (by omega) (by omega)
      _ ≤ maxNotionalFixed := notional_le_of_fits hp hfits ((approves_iff r o).mpr hadm)
  · omega

/-- No price in the books or among the last trades is above the limit on the notional. -/
structure PricesBounded (m : Market) : Prop where
  resting : ∀ symbol, ∀ x ∈ allOrders (m.engine.bookOf symbol), x.price ≤ maxNotionalFixed
  last : ∀ symbol last, m.engine.riskEngine.lastTradePrices.lookup symbol = some last →
    last ≤ maxNotionalFixed

/-- What rests after a match has rested before, or is what is left of the order. -/
theorem prices_match {b : OrderBook} (hb : RepInv b) {amb : Ambient} {o : Order}
    (hfresh : NotResting b o.orderId) (h : ∀ x ∈ allOrders b, x.price ≤ maxNotionalFixed)
    (ho : 0 < o.remainingQuantity → o.price ≤ maxNotionalFixed) :
    ∀ x ∈ allOrders (b.matchIncoming amb o).2, x.price ≤ maxNotionalFixed := by
  refine (match_rule (P := fun b' => ∀ x ∈ allOrders b', x.price ≤ maxNotionalFixed)
    (Q := fun b' => ∀ x ∈ allOrders b', x.price ≤ maxNotionalFixed) hb hfresh h ?_ (fun _ hb' => hb')
    ?_ ?_).2
  · intro crosses x hx
    obtain ⟨x₀, hx₀, hv⟩ := sweep_versions hb amb o crosses x hx
    rw [hv.price]
    exact h x₀ hx₀
  · intro _ hrem hrep hP x hx
    rcases List.mem_cons.mp ((insert_perm hrep _).subset hx) with rfl | hx
    · have hle := sweep_remaining_le hb amb o (OrderBook.crossesLimit o)
      exact ho (by omega)
    · exact hP x hx
  · intro b' hrep hQ x hx
    exact hQ x (remove_subset hrep _ x hx)

/-- The last prices after a delivery are those of the fills, or older. -/
theorem last_deliver {clock : Nat → Int} {o : Order} {n : Nat} {fills : List Fill} {r : RiskEngine}
    (hfills : ∀ f ∈ fills, f.trade.price ≤ maxNotionalFixed)
    (h : ∀ symbol last, r.lastTradePrices.lookup symbol = some last → last ≤ maxNotionalFixed) :
    ∀ symbol last, (MatchingEngine.deliver clock o n fills r).riskEngine.lastTradePrices.lookup symbol
      = some last → last ≤ maxNotionalFixed := by
  refine deliver_rule (P := fun r' => ∀ symbol last, r'.lastTradePrices.lookup symbol = some last →
    last ≤ maxNotionalFixed) clock o fills n r ?_ h
  intro f hf r' now hr' symbol last hlast
  obtain ⟨cb, heq⟩ := fillConsumer_state r' now f.trade
  rw [heq] at hlast
  dsimp only at hlast
  by_cases hs : symbol = f.trade.symbol
  · rw [hs, Finmap.lookup_insert] at hlast
    rw [← Option.some.inj hlast]
    exact hfills f hf
  · rw [Finmap.lookup_insert_of_ne _ hs] at hlast
    exact hr' symbol last hlast

theorem pricesBounded_step {m : Market} (hinv : EngineInv m.engine []) (h : PricesBounded m) {op : EngineOp}
    (hop : ∀ env o, op = .submit env o → o.Created ∧ o.price * o.quantity < 9223372036854775808) :
    PricesBounded (m.step op).1 := by
  rcases quiet_or_admitted hinv op with ⟨hquiet, -⟩ | ⟨env, o, r', rfl, hap, heq, -, hadm⟩
  · refine ⟨fun symbol x hx => ?_, ?_⟩
    · rcases hquiet.book symbol with hb | ⟨id, hb⟩
      · rw [hb] at hx
        exact h.resting symbol x hx
      · rw [hb] at hx
        exact h.resting symbol x (remove_subset (hinv.bookOf symbol).rep id x hx)
    · rw [hquiet.same.lastTradePrices]
      exact h.last
  · obtain ⟨hcreated, hfits⟩ := hop env o rfl
    have hbook := (hinv.bookOf o.symbol).rep
    have hfresh : NotResting (m.engine.bookOf o.symbol) o.orderId :=
      ((hinv.approve hap).bookOf o.symbol).notResting (List.mem_singleton.mpr rfl)
    have hprice : 0 < o.remainingQuantity → o.price ≤ maxNotionalFixed := by
      intro hrem
      rw [hcreated.remainingQuantity_eq] at hrem
      exact price_le_of_fits hadm hfits hrem
    rw [heq]
    refine ⟨fun symbol => ?_, last_deliver (fun f hf => ?_) ?_⟩
    · dsimp only
      rw [bookOf_afterMatch]
      split
      · exact prices_match hbook hfresh (h.resting o.symbol) hprice
      · exact h.resting symbol
    · obtain ⟨crosses, hok⟩ := match_fillOk hbook env.amb o f hf
      obtain ⟨x, hx, -, -, hxp, -⟩ := hok.passive
      rw [← hxp]
      exact h.resting o.symbol x (mem_allOrders.mpr ⟨_, hx⟩)
    · dsimp only
      rw [hap.same.lastTradePrices]
      exact h.last

theorem pricesBounded_reachable : ∀ ops, NotionalsFit ops → PricesBounded (marketAfter ops) := by
  refine run_invariant Market.step (P := fun _ m => PricesBounded m)
    (fun ops op h env o ho => h env o (List.mem_append_left _ ho)) ⟨?_, ?_⟩ ?_
  · intro symbol x hx
    exact absurd hx List.not_mem_nil
  · intro symbol last hlast
    exact absurd hlast (by simp [Market.initial, MatchingEngine.initial, RiskEngine.initial])
  · intro ops op hops h
    refine pricesBounded_step (engineInv_reachable ops) h (fun env o heq => hops env o ?_)
    rw [heq]
    exact List.mem_append_right _ (List.mem_singleton.mpr rfl)

/--
**The two checks together.** After every run in which no notional overflows, an order whose own
notional does not overflow is refused if it is far from the last trade: the prices that the
notional check lets through are too small for the deviation to overflow.
-/
theorem fat_finger_sound_of_fits {ops : List EngineOp} (hops : NotionalsFit ops) {order : Order}
    (hp : 0 < order.price) (hq : 0 < order.quantity)
    (hfits : order.price * order.quantity < 9223372036854775808) {last : Int}
    (hlast : (marketAfter ops).engine.riskEngine.lastTradePrices.lookup order.symbol = some last)
    (hpos : 0 < last) (hfar : FarFrom last order.price) :
    ¬Approves (marketAfter ops).engine.riskEngine order := by
  intro happ
  have hprice := price_le_of_fits ((approves_iff _ _).mp happ) hfits hq
  have hle := (pricesBounded_reachable ops hops).last order.symbol last hlast
  have habs : |order.price - last| ≤ maxNotionalFixed := abs_le.mpr ⟨by omega, by omega⟩
  have hmax : maxNotionalFixed = 500000000000000 := rfl
  exact fatFinger_of_farFrom ⟨hp, by omega⟩ hlast ⟨hpos, by omega⟩ (by omega) hfar happ

end TitanX.Proof
