import TitanX.Lib.PriorityQueue
import TitanX.Model.OrderBook
import Mathlib.Algebra.Order.Ring.Rat

/-!
# The Java reference book

`com.titanx.engine.OrderBook` and the two records it works on. It differs from the C++
book in what it keeps a level in, a `PriorityQueue` ordered by `createdAt` from which a
partly filled order is polled and to which it is offered again, and in its prices,
which are decimals and may be null.

The queue is whatever implements `PriorityQueue`. A `BigDecimal` is only ever compared
here, so it is its value. The `while` over a queue gets the size of the queue as fuel,
which is enough: a turn makes the queue shorter or leaves nothing of the aggressor.

A null price where one is needed is a `NullPointerException`. It is thrown before the
book is touched: `matchLimit` dereferences the price before its first trade, or, with
nothing to trade with, when the order is to be inserted.
-/

namespace TitanX.Java

abbrev BigDecimal := ℚ

inductive JavaException where
  | nullPointer
  deriving DecidableEq, Repr

/-! ## Records -/

structure Order where
  orderId : String
  accountId : String
  symbol : String
  side : OrderSide
  type : OrderType
  /-- Null for market orders. -/
  price : Option BigDecimal
  stopPrice : Option BigDecimal
  quantity : Int
  remainingQuantity : Int
  status : OrderStatus
  createdAt : Int
  updatedAt : Int
  deriving DecidableEq

namespace Order

def statusFor (o : Order) (newRemaining : Int) : OrderStatus :=
  if newRemaining = 0 then .filled
  else if newRemaining < o.quantity then .partiallyFilled
  else o.status

def withRemainingQuantity (o : Order) (newRemaining now : Int) : Order :=
  { o with
    remainingQuantity := newRemaining
    status := o.statusFor newRemaining
    updatedAt := now }

def isBuy (o : Order) : Bool := o.side = .buy

end Order

structure Trade where
  tradeId : String
  symbol : String
  aggressorOrderId : String
  aggressorAccountId : String
  passiveOrderId : String
  passiveAccountId : String
  price : BigDecimal
  quantity : Int
  aggressorSide : OrderSide
  executedAt : Int
  deriving DecidableEq

/-- `Trade.of`, with the id and the clock reading it draws. -/
def Trade.of (tradeId : String) (now : Int) (aggressor passive : Order) (fillPrice : BigDecimal)
    (fillQty : Int) : Trade where
  tradeId := tradeId
  symbol := aggressor.symbol
  aggressorOrderId := aggressor.orderId
  aggressorAccountId := aggressor.accountId
  passiveOrderId := passive.orderId
  passiveAccountId := passive.accountId
  price := fillPrice
  quantity := fillQty
  aggressorSide := aggressor.side
  executedAt := now

/-! ## The state -/

/-- The comparator of a side: `reverseOrder()` for bids, the natural order for asks. -/
def before : OrderSide → BigDecimal → BigDecimal → Prop
  | .buy => fun p q => q < p
  | .sell => fun p q => p < q

instance (s : OrderSide) : DecidableRel (before s) := fun p q =>
  match s with
  | .buy => inferInstanceAs (Decidable (q < p))
  | .sell => inferInstanceAs (Decidable (p < q))

instance (s : OrderSide) : IsStrictTotalOrder BigDecimal (before s) :=
  match s with
  | .buy => inferInstanceAs (IsStrictTotalOrder ℚ (· > ·))
  | .sell => inferInstanceAs (IsStrictTotalOrder ℚ (· < ·))

structure OrderBook (Q : Type) where
  symbol : String
  bids : OrdMap BigDecimal Q (before .buy)
  asks : OrdMap BigDecimal Q (before .sell)
  orderIndex : Finmap (fun _ : String => Order)
  lastTradePrice : Option BigDecimal

/-- What the loops write besides the side being swept. -/
structure Sweep where
  remainingQty : Int
  trades : List Trade
  orderIndex : Finmap (fun _ : String => Order)
  lastTradePrice : Option BigDecimal

namespace OrderBook

variable {Q : Type}

def new (symbol : String) : OrderBook Q := ⟨symbol, OrdMap.empty, OrdMap.empty, ∅, none⟩

/-- `bids` or `asks`. -/
def levels (b : OrderBook Q) : (s : OrderSide) → OrdMap BigDecimal Q (before s)
  | .buy => b.bids
  | .sell => b.asks

/-- The book with one side replaced. -/
def setLevels (b : OrderBook Q) : (s : OrderSide) → OrdMap BigDecimal Q (before s) → OrderBook Q
  | .buy, m => { b with bids := m }
  | .sell, m => { b with asks := m }

section SetLevels

variable (b : OrderBook Q) (s : OrderSide) (m : OrdMap BigDecimal Q (before s))

@[simp] theorem levels_setLevels : (b.setLevels s m).levels s = m := by cases s <;> rfl

theorem levels_setLevels_of_ne {t : OrderSide} (h : t ≠ s) :
    (b.setLevels s m).levels t = b.levels t := by
  cases s <;> cases t <;> first | rfl | exact absurd rfl h

@[simp] theorem orderIndex_setLevels : (b.setLevels s m).orderIndex = b.orderIndex := by
  cases s <;> rfl

@[simp] theorem lastTradePrice_setLevels :
    (b.setLevels s m).lastTradePrice = b.lastTradePrice := by cases s <;> rfl

@[simp] theorem levels_mk (symbol : String) (index : Finmap (fun _ : String => Order))
    (last : Option BigDecimal) :
    levels ⟨symbol, b.bids, b.asks, index, last⟩ s = b.levels s := by
  cases s <;> rfl

theorem setLevels_orderIndex (index : Finmap (fun _ : String => Order)) :
    { b with orderIndex := index }.setLevels s m =
      { b.setLevels s m with orderIndex := index } := by
  cases s <;> rfl

end SetLevels

variable [PriorityQueue Q Order]

/-! ## The matching loops -/

/-- The body of the inner loop, with the order that `peek` shows. -/
def fillFront (amb : Ambient) (aggressor : Order) (bestPrice : BigDecimal) (passive : Order)
    (st : Sweep) : Order × Sweep :=
  let fillQty := min st.remainingQty passive.remainingQuantity
  let n := st.trades.length
  let trade := Trade.of (amb.tradeId n) (amb.executedAt n) aggressor passive bestPrice fillQty
  let updatedPassive :=
    passive.withRemainingQuantity (passive.remainingQuantity - fillQty) (amb.updatedAt n)
  (updatedPassive,
    { remainingQty := st.remainingQty - fillQty
      trades := st.trades ++ [trade]
      orderIndex :=
        if updatedPassive.remainingQuantity > 0 then
          st.orderIndex.insert updatedPassive.orderId updatedPassive
        else st.orderIndex.erase passive.orderId
      lastTradePrice := some bestPrice })

/-- The inner loop, for at most the given number of turns. -/
def fillLevel (amb : Ambient) (aggressor : Order) (bestPrice : BigDecimal) :
    Nat → Q → Sweep → Q × Sweep
  | 0, levelQueue, st => (levelQueue, st)
  | fuel + 1, levelQueue, st =>
      if st.remainingQty > 0 then
        match PriorityQueue.peek? levelQueue with
        | none => (levelQueue, st)
        | some passive =>
            let r := fillFront amb aggressor bestPrice passive st
            let polled := PriorityQueue.poll levelQueue
            -- put back if partial
            fillLevel amb aggressor bestPrice fuel
              (if r.1.remainingQuantity > 0 then PriorityQueue.offer polled r.1 else polled) r.2
      else (levelQueue, st)

/-- The outer loop, over the levels of the opposite side. -/
def matchSide (amb : Ambient) (aggressor : Order) (crosses : BigDecimal → Bool) :
    List (BigDecimal × Q) → Sweep → List (BigDecimal × Q) × Sweep
  | [], st => ([], st)
  | (bestPrice, levelQueue) :: levels, st =>
      if st.remainingQty > 0 then
        if crosses bestPrice then
          let r := fillLevel amb aggressor bestPrice (PriorityQueue.elems levelQueue).length
            levelQueue st
          -- a queue that is not used up means the aggressor is
          if (PriorityQueue.elems r.1).isEmpty then matchSide amb aggressor crosses levels r.2
          else ((bestPrice, r.1) :: levels, r.2)
        else ((bestPrice, levelQueue) :: levels, st)
      else ((bestPrice, levelQueue) :: levels, st)

theorem matchSide_keys (amb : Ambient) (aggressor : Order) (crosses : BigDecimal → Bool) :
    ∀ (ls : List (BigDecimal × Q)) (st : Sweep),
      ((matchSide amb aggressor crosses ls st).1.map Prod.fst).Sublist (ls.map Prod.fst)
  | [], _ => List.Sublist.refl _
  | (p, queue) :: ls, st => by
      rw [matchSide]
      split
      · split
        · dsimp only
          split
          · exact (matchSide_keys amb aggressor crosses ls _).trans (List.sublist_cons_self _ _)
          · exact List.Sublist.refl _
        · exact List.Sublist.refl _
      · exact List.Sublist.refl _

theorem matchSide_sorted {s : OrderSide} (amb : Ambient) (aggressor : Order)
    (crosses : BigDecimal → Bool) (m : OrdMap BigDecimal Q (before s)) (st : Sweep) :
    (matchSide amb aggressor crosses m.entries st).1.Pairwise (fun a b => before s a.1 b.1) := by
  have hm := m.sorted
  rw [← List.pairwise_map] at hm ⊢
  exact hm.sublist (matchSide_keys amb aggressor crosses m.entries st)

/-- Run the loops over the side opposite to the aggressor. -/
def sweep (b : OrderBook Q) (amb : Ambient) (aggressor : Order) (crosses : BigDecimal → Bool) :
    Sweep × OrderBook Q :=
  let opposite := aggressor.side.opposite
  let st : Sweep := ⟨aggressor.remainingQuantity, [], b.orderIndex, b.lastTradePrice⟩
  let r := matchSide amb aggressor crosses (b.levels opposite).entries st
  (r.2,
    { b.setLevels opposite ⟨r.1, matchSide_sorted amb aggressor crosses _ st⟩ with
      orderIndex := r.2.orderIndex
      lastTradePrice := r.2.lastTradePrice })

/-! ## Book operations -/

def insertIntoBook (b : OrderBook Q) (order : Order) : Except JavaException (OrderBook Q) :=
  match order.price with
  | none => .error .nullPointer
  | some price =>
      .ok { b.setLevels order.side ((b.levels order.side).upsert price
              (fun queue => PriorityQueue.offer (queue.getD PriorityQueue.empty) order)) with
            orderIndex := b.orderIndex.insert order.orderId order }

def removeFromBook (b : OrderBook Q) (orderId : String) : Bool × OrderBook Q :=
  match b.orderIndex.lookup orderId with
  | none => (false, b)
  | some order =>
      let b' := { b with orderIndex := b.orderIndex.erase orderId }
      match order.price with
      | none => (false, b')
      | some price =>
          match (b'.levels order.side).find? price with
          | none => (false, b')
          | some level =>
              let r := PriorityQueue.removeIf level (fun o => o.orderId = orderId)
              (r.1, b'.setLevels order.side
                (if (PriorityQueue.elems r.2).isEmpty then (b'.levels order.side).erase price
                else (b'.levels order.side).upsert price (fun _ => r.2)))

/-! ## Queries -/

/-- The counting loop of `availableQuantityAtOrBetter`; `total` is a `long`. -/
def countSide (crosses : BigDecimal → Bool) : List (BigDecimal × Q) → Int → Int
  | [], total => total
  | (levelPrice, queue) :: levels, total =>
      if crosses levelPrice then
        countSide crosses levels
          ((PriorityQueue.elems queue).foldl (fun total o => wrap64 (total + o.remainingQuantity))
            total)
      else total

/-- `compareTo` with a limit price: `>= 0` when buying, `<= 0` when selling. -/
def crossesLimit (aggressor : Order) (price levelPrice : BigDecimal) : Bool :=
  if aggressor.isBuy then price ≥ levelPrice else price ≤ levelPrice

def availableQuantityAtOrBetter (b : OrderBook Q) (aggressor : Order) : Int :=
  countSide (fun levelPrice => match aggressor.price with
      | none => true
      | some price => crossesLimit aggressor price levelPrice)
    (b.levels aggressor.side.opposite).entries 0

omit [PriorityQueue Q Order] in
def bestBid (b : OrderBook Q) : Option BigDecimal := b.bids.first?.map Prod.fst

omit [PriorityQueue Q Order] in
def bestAsk (b : OrderBook Q) : Option BigDecimal := b.asks.first?.map Prod.fst

omit [PriorityQueue Q Order] in
def totalOrders (b : OrderBook Q) : Nat := b.orderIndex.keys.card

/-! ## Matching -/

def matchMarket (b : OrderBook Q) (amb : Ambient) (aggressor : Order) :
    List Trade × OrderBook Q :=
  let r := b.sweep amb aggressor (fun _ => true)
  (r.1.trades, r.2)

def matchLimit (b : OrderBook Q) (amb : Ambient) (aggressor : Order) :
    Except JavaException (List Trade × OrderBook Q) :=
  match aggressor.price with
  | none => if aggressor.remainingQuantity > 0 then .error .nullPointer else .ok ([], b)
  | some price =>
      let r := b.sweep amb aggressor (crossesLimit aggressor price)
      -- if not fully filled, rest the unfilled portion in the book
      if r.1.remainingQty > 0 then
        let restingOrder :=
          aggressor.withRemainingQuantity r.1.remainingQty (amb.updatedAt r.1.trades.length)
        (r.2.insertIntoBook restingOrder).map (fun b' => (r.1.trades, b'))
      else .ok (r.1.trades, r.2)

def matchIoc (b : OrderBook Q) (amb : Ambient) (aggressor : Order) :
    Except JavaException (List Trade × OrderBook Q) :=
  -- remove the resting portion we just inserted (if any)
  (b.matchLimit amb aggressor).map (fun r => (r.1, (r.2.removeFromBook aggressor.orderId).2))

def matchFok (b : OrderBook Q) (amb : Ambient) (aggressor : Order) : List Trade × OrderBook Q :=
  if b.availableQuantityAtOrBetter aggressor < aggressor.quantity then ([], b)
  else b.matchMarket amb aggressor

/-- `match`. -/
def matchIncoming (b : OrderBook Q) (amb : Ambient) (incoming : Order) :
    Except JavaException (List Trade × OrderBook Q) :=
  match incoming.type with
  | .market => .ok (b.matchMarket amb incoming)
  | .limit => b.matchLimit amb incoming
  | .ioc => b.matchIoc amb incoming
  | .fok => .ok (b.matchFok amb incoming)
  | .stopLimit => .ok ([], b)

end OrderBook

/-! ## Runs of a book -/

inductive BookOp where
  | matchIncoming (amb : Ambient) (incoming : Order)
  | removeFromBook (orderId : String)

/-- What a call returns or throws. -/
structure BookOut where
  trades : Except JavaException (List Trade)
  removed : Bool

/-- One call; one that throws leaves the book as it was. -/
def OrderBook.step {Q : Type} [PriorityQueue Q Order] (b : OrderBook Q) :
    BookOp → OrderBook Q × BookOut
  | .matchIncoming amb incoming =>
      match b.matchIncoming amb incoming with
      | .ok r => (r.2, ⟨.ok r.1, false⟩)
      | .error e => (b, ⟨.error e, false⟩)
  | .removeFromBook orderId =>
      ((b.removeFromBook orderId).2, ⟨.ok [], (b.removeFromBook orderId).1⟩)

end TitanX.Java
