import TitanX.Proof.Notional
import TitanX.Proof.PositionLimit

/-!
# The projected position

The position check adds the quantity to the recorded position, or subtracts it, and compares
the absolute value with the limit, all in `int64_t`. From a position within the limit the sum
can leave the range by at most the limit on either side, and comes back at the other end, where
it is far from the limit again. There is one exception: the least `int64_t` is its own absolute
value, and passes. It is reached as `-2 ^ 63`, and as `2 ^ 63` wrapped around
(`positionExceeded_eq_false_iff`).
-/

namespace TitanX.Proof

open TitanX RiskEngine

/-- The quantity is an `int64_t`. -/
def Representable (order : Order) : Prop :=
  -9223372036854775808 ≤ order.quantity ∧ order.quantity < 9223372036854775808

/-! ## The comparison -/

theorem wrap64_of_ge {x : Int} (hlo : 9223372036854775808 ≤ x) (hhi : x < 27670116110564327424) :
    wrap64 x = x - 18446744073709551616 := by
  unfold wrap64 Int.bmod
  dsimp only
  split <;> omega

theorem wrap64_of_lt_min {x : Int} (hlo : -27670116110564327424 ≤ x)
    (hhi : x < -9223372036854775808) : wrap64 x = x + 18446744073709551616 := by
  unfold wrap64 Int.bmod
  dsimp only
  split <;> omega

/-- `std::abs` of a number in range: exact, but for the least one. -/
theorem abs64_le_iff {x : Int} (hlo : -9223372036854775808 ≤ x) (hhi : x < 9223372036854775808) :
    abs64 x ≤ 10000 ↔ |x| ≤ 10000 ∨ x = -9223372036854775808 := by
  by_cases hmin : x = -9223372036854775808
  · subst hmin
    exact iff_of_true (by decide) (.inr rfl)
  · have habs : abs64 x = x.natAbs := wrap64_of_lt (by omega) (by omega)
    rw [habs, Int.abs_eq_natAbs]
    exact ⟨.inl, fun h => h.resolve_right hmin⟩

/-- The comparison of the code, for a sum that is at most the limit out of range. -/
theorem abs64_wrap64_le_iff {x : Int} (hlo : -9223372036854785808 ≤ x)
    (hhi : x ≤ 9223372036854785808) :
    abs64 (wrap64 x) ≤ 10000 ↔ |x| ≤ 10000 ∨ |x| = 9223372036854775808 := by
  rcases Int.lt_or_le x (-9223372036854775808) with hlow | hlow
  · -- below the range: comes back just below the greatest number
    rw [wrap64_of_lt_min (by omega) hlow, abs64_le_iff (by omega) (by omega), Int.abs_eq_natAbs,
      Int.abs_eq_natAbs]
    omega
  rcases Int.lt_or_le x 9223372036854775808 with hhigh | hhigh
  · rw [wrap64_of_lt hlow hhigh, abs64_le_iff hlow hhigh, Int.abs_eq_natAbs]
    omega
  · -- above the range: comes back at the least number or just above it
    rw [wrap64_of_ge hhigh (by omega), abs64_le_iff (by omega) (by omega), Int.abs_eq_natAbs,
      Int.abs_eq_natAbs]
    omega

/-- **What the position check lets through**, from a position within the limit. -/
theorem positionExceeded_eq_false_iff {r : RiskEngine} {order : Order} (hq : Representable order)
    {n : Int} (hn : -10000 ≤ n ∧ n ≤ 10000)
    (hpos : r.getNetPosition order.accountId order.symbol = n) :
    r.positionExceeded order = false
      ↔ |n + signed order.side order.quantity| ≤ 10000
        ∨ |n + signed order.side order.quantity| = 9223372036854775808 := by
  obtain ⟨hlo, hhi⟩ := hq
  have hrange : -9223372036854785808 ≤ n + signed order.side order.quantity
      ∧ n + signed order.side order.quantity ≤ 9223372036854785808 := by
    cases order.side <;> simp only [signed] <;> omega
  unfold positionExceeded maxPositionShares
  rw [hpos, projectedPosition_eq, decide_eq_false_iff_not, Int.not_lt]
  exact abs64_wrap64_le_iff hrange.1 hrange.2

/-! ## A state in which only the projection matters -/

/-- A new risk engine in which the account of the order has the position `n`. -/
def standingAt (n : Int) (order : Order) : RiskEngine :=
  RiskEngine.initial.recordFill order.accountId order.symbol .buy n

theorem getNetPosition_standingAt {n : Int} (hn : -10000 ≤ n ∧ n ≤ 10000) (order : Order)
    (account symbol : String) :
    (standingAt n order).getNetPosition account symbol
      = if account = order.accountId ∧ symbol = order.symbol then n else 0 := by
  unfold standingAt
  rw [getNetPosition_recordFill]
  split
  · change wrap64 (0 + n) = n
    rw [Int.zero_add]
    exact wrap64_of_lt (by omega) (by omega)
  · rfl

theorem inLimit_standingAt {n : Int} (hn : -10000 ≤ n ∧ n ≤ 10000) (order : Order) :
    InLimit (standingAt n order) := by
  intro account symbol
  rw [getNetPosition_standingAt hn]
  split <;> omega

/-! ## The limit -/

/--
**When the projection is sound.** For an order with any `int64_t` quantity and any position `n`
within the limit: no state in which all positions are within the limit and this one is `n`
approves the order towards a position beyond the limit, if and only if the exact projection is
not `2 ^ 63` or `-2 ^ 63`, or the notional check refuses the order.
-/
theorem projection_sound_iff {order : Order} (hq : Representable order) {n : Int}
    (hn : -10000 ≤ n ∧ n ≤ 10000) :
    (∀ r, InLimit r → r.getNetPosition order.accountId order.symbol = n → Approves r order →
        |n + signed order.side order.quantity| ≤ 10000)
      ↔ |n + signed order.side order.quantity| ≠ 9223372036854775808
        ∨ notionalExceeded order = true := by
  have hstands : (standingAt n order).getNetPosition order.accountId order.symbol = n := by
    rw [getNetPosition_standingAt hn, if_pos ⟨rfl, rfl⟩]
  constructor
  · intro h
    by_contra hnot
    rw [not_or, not_not, Bool.not_eq_true] at hnot
    have hadm := admissible_recordFill hnot.2
      ((positionExceeded_eq_false_iff hq hn hstands).mpr (.inr hnot.1))
    have hle := h _ (inLimit_standingAt hn order) hstands ((approves_iff _ _).mpr hadm)
    omega
  · intro h r _ hpos happ
    have hpass := ((approves_iff r order).mp happ).passes
    rcases (positionExceeded_eq_false_iff hq hn hpos).mp hpass.position with hle | hmin
    · exact hle
    · rcases h with hne | hnotional
      · exact absurd hmin hne
      · exact absurd (hpass.notional.symm.trans hnotional) (by decide)

/-- A buy of 5000 from a position of 4000. -/
theorem projection_sound_at_9000 :
    Representable (Order.create "a" 0 "A" "AAPL" .buy .market 0 0 5000)
      ∧ ∀ r, InLimit r → r.getNetPosition "A" "AAPL" = 4000 →
          Approves r (Order.create "a" 0 "A" "AAPL" .buy .market 0 0 5000) →
          |(4000 : Int) + signed .buy 5000| ≤ 10000 := by
  have hq : Representable (Order.create "a" 0 "A" "AAPL" .buy .market 0 0 5000) :=
    ⟨by decide, by decide⟩
  exact ⟨hq, (projection_sound_iff hq ⟨by decide, by decide⟩).mpr (.inl (by decide))⟩

/-- The account has sold one share and sells `2 ^ 63 - 1` more. -/
def leastSell : Order := Order.create "a" 0 "A" "AAPL" .sell .market 0 0 9223372036854775807

/-- **A sell of all the shares there are is approved.** -/
theorem least_projection_approved :
    InLimit (standingAt (-1) leastSell)
      ∧ (standingAt (-1) leastSell).getNetPosition "A" "AAPL" = -1
      ∧ Approves (standingAt (-1) leastSell) leastSell
      ∧ ¬|-1 - leastSell.quantity| ≤ 10000 := by
  refine ⟨inLimit_standingAt ⟨by decide, by decide⟩ _, by decide,
    (approves_iff _ _).mpr (admissible_recordFill ?_ ?_), ?_⟩ <;> decide

end TitanX.Proof
