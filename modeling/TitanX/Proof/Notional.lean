import TitanX.Proof.Risk

/-!
# The notional limit

The limit is tested on `price * quantity` in `int64_t`. A product that leaves the 64-bit
range can wrap to a small or to a negative number, and then nothing else stops the order:
each of the later checks reads state that can be such that it passes. So the limit is sound
for an order exactly when its product is within the limit or wraps to something above it.
-/

namespace TitanX.Proof

open TitanX RiskEngine

/-- `checkPreTrade` returns, and lets the order through. -/
def Approves (r : RiskEngine) (order : Order) : Prop :=
  ∃ res r', r.checkPreTrade order = .returned res r' ∧ res.approved = true

theorem approves_iff (r : RiskEngine) (order : Order) : Approves r order ↔ Admissible r order := by
  rcases checkPreTrade_cases r order with
    ⟨r', heq, -, hnot⟩ | ⟨res, r', heq, happ, -, hnot⟩ | ⟨res, r', heq, happ, -, hadm⟩
  · refine iff_of_false ?_ hnot
    rintro ⟨res, r'', heq', -⟩
    rw [heq] at heq'
    cases heq'
  · refine iff_of_false ?_ hnot
    rintro ⟨res', r'', heq', happ'⟩
    rw [heq] at heq'
    cases heq'
    exact absurd (happ.symm.trans happ') (by decide)
  · exact iff_of_true ⟨res, r', heq, happ⟩ hadm

/-! ## A state in which only the notional check matters -/

/-- A new risk engine after one fill, of the order's quantity and on its other side. -/
def offsetBy (order : Order) : RiskEngine :=
  RiskEngine.initial.recordFill order.accountId order.symbol order.side.opposite order.quantity

/-- The order would take the position back to zero, whatever its quantity. -/
theorem projected_offset (order : Order) :
    projectedPosition ((offsetBy order).getNetPosition order.accountId order.symbol) order = 0 := by
  unfold offsetBy
  rw [getNetPosition_recordFill, if_pos ⟨rfl, rfl⟩]
  unfold projectedPosition Order.isBuy
  cases order.side with
  | buy =>
      change wrap64 (wrap64 (0 + wrap64 (-order.quantity)) + order.quantity) = 0
      simp [wrap64, Int.bmod_add_bmod]
  | sell =>
      change wrap64 (wrap64 (0 + order.quantity) - order.quantity) = 0
      simp [wrap64, Int.bmod_sub_bmod]

/-- After one fill, and nothing else, only the notional and the position are in the way. -/
theorem admissible_recordFill {account symbol : String} {side : OrderSide} {quantity : Int}
    {order : Order} (hnotional : notionalExceeded order = false)
    (hposition : (RiskEngine.initial.recordFill account symbol side quantity).positionExceeded order
      = false) :
    Admissible (RiskEngine.initial.recordFill account symbol side quantity) order := by
  refine ⟨rfl, rfl, Finset.notMem_empty _, hnotional, hposition, ?_, ?_⟩
  · -- no trade price is known, so there is nothing to deviate from
    unfold fatFinger
    have hnone : (RiskEngine.initial.recordFill account symbol side quantity).lastTradePrices.lookup
        order.symbol = none := Finmap.lookup_empty _
    rw [hnone]
    exact Bool.and_false _
  · unfold selfTrade
    have hnone : (RiskEngine.initial.recordFill account symbol side quantity).activeOrders
        order.side.opposite order.accountId = ∅ := by
      cases order.side <;> rfl
    rw [hnone]
    decide

theorem admissible_offset {order : Order} (h : notionalExceeded order = false) :
    Admissible (offsetBy order) order := by
  refine admissible_recordFill h ?_
  unfold positionExceeded
  rw [← offsetBy, projected_offset]
  decide

/-! ## The limit -/

theorem notionalExceeded_iff {order : Order} (hp : 0 < order.price) :
    notionalExceeded order = false ↔ wrap64 (order.price * order.quantity) ≤ maxNotionalFixed := by
  unfold notionalExceeded
  rw [decide_eq_true hp, Bool.true_and, decide_eq_false_iff_not, Int.not_lt]

/--
**When the notional limit is sound.** For an order with a positive price: no state of the
risk engine approves it above the limit if and only if its exact notional is within the
limit, or is above it also after the wrap-around of the product.
-/
theorem notional_limit_sound_iff {order : Order} (hp : 0 < order.price) :
    (∀ r, Approves r order → order.price * order.quantity ≤ maxNotionalFixed)
      ↔ order.price * order.quantity ≤ maxNotionalFixed
        ∨ maxNotionalFixed < wrap64 (order.price * order.quantity) := by
  constructor
  · intro h
    by_cases hw : wrap64 (order.price * order.quantity) ≤ maxNotionalFixed
    · left
      apply h (offsetBy order)
      rw [approves_iff]
      exact admissible_offset ((notionalExceeded_iff hp).mpr hw)
    · right
      omega
  · intro h r happ
    have hadm := (approves_iff r order).mp happ
    have hw := (notionalExceeded_iff hp).mp hadm.passes.notional
    omega

/-- A buy of 10 shares at 400,000 dollars, inside the limit, and one at 600,000, outside. -/
theorem notional_limit_sound_at_limit :
    (∀ r, Approves r (Order.create "a" 0 "A" "AAPL" .buy .limit 40000000000000 0 10) →
        (40000000000000 : Int) * 10 ≤ maxNotionalFixed)
      ∧ ∀ r, Approves r (Order.create "b" 0 "A" "AAPL" .buy .limit 60000000000000 0 10) →
        (60000000000000 : Int) * 10 ≤ maxNotionalFixed := by
  refine ⟨(notional_limit_sound_iff (by decide)).mpr (Or.inl ?_),
    (notional_limit_sound_iff (by decide)).mpr (Or.inr ?_)⟩
  · decide
  · decide

/-- The product is 0 modulo `2 ^ 64`. -/
def wrappingOrder : Order := Order.create "a" 0 "A" "AAPL" .buy .limit 4611686018427387904 0 4

/-- **A new risk engine approves an order of more than 36,000 times the limit.** -/
theorem wrapped_notional_approved :
    Approves RiskEngine.initial wrappingOrder
      ∧ maxNotionalFixed < wrappingOrder.price * wrappingOrder.quantity := by
  refine ⟨(approves_iff _ _).mpr ⟨rfl, rfl, ?_, ?_, ?_, ?_, ?_⟩, ?_⟩ <;> decide

/-- Where the product fits in 64 bits the limit is sound. -/
theorem notional_le_of_fits {order : Order} (hp : 0 < order.price)
    (hfits : order.price * order.quantity < 9223372036854775808) {r : RiskEngine}
    (happ : Approves r order) : order.price * order.quantity ≤ maxNotionalFixed := by
  by_contra hover
  have hmax : 0 < maxNotionalFixed := by decide
  have hw := (notionalExceeded_iff hp).mp ((approves_iff r order).mp happ).passes.notional
  rw [wrap64_of_lt (by omega) hfits] at hw
  exact hover hw

end TitanX.Proof
