import Mathlib.Data.Int.Init

/-!
# Orders and trades

`titanx/model`: the order record with its factory and its copy-on-modify update,
and the record of one execution between two orders.

Prices, quantities and times are `int64_t` in the source and integers here.
Arithmetic whose result can leave the 64-bit range goes through `wrap64`, two's
complement; where the operands bound the result (a fill is the smaller of two
positive quantities) it is left plain. `generate_uuid()` and `SystemClock::now()`
are read from outside, so what they return is an argument.
-/

namespace TitanX

/-! ## Machine arithmetic -/

/-- Two's complement: the representative of `x` modulo `2 ^ 64` in `[-2^63, 2^63)`. -/
def wrap64 (x : Int) : Int := x.bmod 18446744073709551616

theorem wrap64_of_lt {x : Int} (hlo : -9223372036854775808 ≤ x) (hhi : x < 9223372036854775808) :
    wrap64 x = x := by
  unfold wrap64
  exact Int.bmod_eq_of_le (by omega) (by omega)

/-- Sums that wrap around at every step are sums that wrap around at the end. -/
theorem wrap64_add_wrap64 (x y : Int) : wrap64 (wrap64 x + y) = wrap64 (x + y) :=
  Int.bmod_add_bmod

/-- `std::abs` on `int64_t`: the least value has no positive counterpart. -/
def abs64 (x : Int) : Int := wrap64 x.natAbs

/-- `/` on `int64_t`, towards zero. It has no value, and the processor traps, where
`divTraps` says so. -/
def div64 (x y : Int) : Int := x.tdiv y

/-- A positive quotient, as a product: by a positive divisor, and by a negative one. -/
theorem lt_div64_iff {n x y : Int} (hn : 0 ≤ n) (hy : 0 < y) : n < div64 x y ↔ (n + 1) * y ≤ x := by
  unfold div64
  rcases Int.lt_or_le x 0 with hneg | hnonneg
  · -- the quotient of a negative number is not above zero
    have hle : 0 ≤ (-x).tdiv y := Int.tdiv_nonneg (by omega) (by omega)
    rw [Int.neg_tdiv] at hle
    have hmul : 0 < (n + 1) * y := Int.mul_pos (by omega) hy
    exact iff_of_false (by omega) (by omega)
  · rw [Int.tdiv_eq_ediv_of_nonneg hnonneg]
    exact Int.le_ediv_iff_mul_le hy

theorem lt_div64_neg_iff {n x y : Int} (hn : 0 ≤ n) (hy : y < 0) :
    n < div64 x y ↔ x ≤ (n + 1) * y := by
  have h := lt_div64_iff (x := -x) hn (Int.neg_pos_of_neg hy)
  unfold div64 at h ⊢
  rw [Int.neg_tdiv_neg, Int.mul_neg] at h
  omega

/-- The divisor is zero, or the quotient is `2 ^ 63`. -/
def divTraps (x y : Int) : Bool := y = 0 || (x = -9223372036854775808 && y = -1)

/-- `std::abs(price - base) * 10000`, every step in `int64_t`. -/
def moveScaled (base price : Int) : Int := wrap64 (abs64 (wrap64 (price - base)) * 10000)

/-- `std::abs(price - base) * 10000 / base`: the distance of two prices in basis points of
the first. -/
def moveBps (base price : Int) : Int := div64 (moveScaled base price) base

/-! ## Enumerations -/

inductive OrderSide where
  | buy
  | sell
  deriving DecidableEq, Repr

/-- The side an order trades against. -/
def OrderSide.opposite : OrderSide → OrderSide
  | .buy => .sell
  | .sell => .buy

@[simp] theorem OrderSide.opposite_opposite (s : OrderSide) : s.opposite.opposite = s := by
  cases s <;> rfl

theorem OrderSide.opposite_ne (s : OrderSide) : s.opposite ≠ s := by
  cases s <;> decide

theorem OrderSide.eq_or_opposite (s t : OrderSide) : t = s ∨ t = s.opposite := by
  cases s <;> cases t <;> decide

inductive OrderType where
  | market
  | limit
  | ioc
  | fok
  | stopLimit
  deriving DecidableEq, Repr

inductive OrderStatus where
  | pending
  | partiallyFilled
  | filled
  | cancelled
  | rejected
  deriving DecidableEq, Repr

/-! ## Orders -/

structure Order where
  orderId : String
  accountId : String
  symbol : String
  side : OrderSide
  type : OrderType
  /-- Fixed point; 0 for market orders. -/
  price : Int
  /-- Fixed point; 0 if not a stop-limit order. -/
  stopPrice : Int
  quantity : Int
  remainingQuantity : Int
  status : OrderStatus
  createdAt : Int
  updatedAt : Int
  deriving DecidableEq, Repr

namespace Order

/-- `Order::create`, with the id and the clock reading it draws. -/
def create (orderId : String) (now : Int) (accountId symbol : String) (side : OrderSide)
    (type : OrderType) (price stopPrice quantity : Int) : Order where
  orderId := orderId
  accountId := accountId
  symbol := symbol
  side := side
  type := type
  price := price
  stopPrice := stopPrice
  quantity := quantity
  remainingQuantity := quantity
  status := .pending
  createdAt := now
  updatedAt := now

/-- `o` is what some call of `Order::create` returned. -/
def Created (o : Order) : Prop :=
  ∃ orderId now accountId symbol side type price stopPrice quantity,
    o = create orderId now accountId symbol side type price stopPrice quantity

@[simp] theorem created_create (orderId : String) (now : Int) (accountId symbol : String)
    (side : OrderSide) (type : OrderType) (price stopPrice quantity : Int) :
    (create orderId now accountId symbol side type price stopPrice quantity).Created :=
  ⟨_, _, _, _, _, _, _, _, _, rfl⟩

theorem Created.remainingQuantity_eq {o : Order} (h : o.Created) :
    o.remainingQuantity = o.quantity := by
  obtain ⟨_, _, _, _, _, _, _, _, _, rfl⟩ := h; rfl

theorem Created.status_eq {o : Order} (h : o.Created) : o.status = .pending := by
  obtain ⟨_, _, _, _, _, _, _, _, _, rfl⟩ := h; rfl

/-- The status `withRemainingQuantity` gives its copy. -/
def statusFor (o : Order) (newRemaining : Int) : OrderStatus :=
  if newRemaining = 0 then .filled
  else if newRemaining < o.quantity then .partiallyFilled
  else o.status

/-- `withRemainingQuantity`, with the clock reading it draws. -/
def withRemainingQuantity (o : Order) (newRemaining now : Int) : Order :=
  { o with
    remainingQuantity := newRemaining
    status := o.statusFor newRemaining
    updatedAt := now }

section WithRemaining

variable (o : Order) (n now : Int)

@[simp] theorem withRemainingQuantity_orderId :
    (o.withRemainingQuantity n now).orderId = o.orderId := rfl

@[simp] theorem withRemainingQuantity_accountId :
    (o.withRemainingQuantity n now).accountId = o.accountId := rfl

@[simp] theorem withRemainingQuantity_side :
    (o.withRemainingQuantity n now).side = o.side := rfl

@[simp] theorem withRemainingQuantity_price :
    (o.withRemainingQuantity n now).price = o.price := rfl

@[simp] theorem withRemainingQuantity_remainingQuantity :
    (o.withRemainingQuantity n now).remainingQuantity = n := rfl

@[simp] theorem withRemainingQuantity_status :
    (o.withRemainingQuantity n now).status = o.statusFor n := rfl

end WithRemaining

/-- `isBuy()`. -/
def isBuy (o : Order) : Bool := o.side = .buy

end Order

/-! ## Trades -/

structure Trade where
  tradeId : String
  symbol : String
  aggressorOrderId : String
  aggressorAccountId : String
  passiveOrderId : String
  passiveAccountId : String
  price : Int
  quantity : Int
  aggressorSide : OrderSide
  executedAt : Int
  deriving DecidableEq, Repr

namespace Trade

/-- `Trade::create`, with the id and the clock reading it draws. -/
def create (tradeId : String) (now : Int) (aggressor passive : Order)
    (fillPrice fillQty : Int) : Trade where
  tradeId := tradeId
  symbol := aggressor.symbol
  aggressorOrderId := aggressor.orderId
  aggressorAccountId := aggressor.accountId
  passiveOrderId := passive.orderId
  passiveAccountId := passive.accountId
  price := fillPrice
  quantity := fillQty
  aggressorSide := aggressor.side
  executedAt := now

/-- The trade was made by or against order `id`. -/
def Names (t : Trade) (id : String) : Prop :=
  t.aggressorOrderId = id ∨ t.passiveOrderId = id

instance (t : Trade) (id : String) : Decidable (t.Names id) :=
  inferInstanceAs (Decidable (_ ∨ _))

end Trade

end TitanX
