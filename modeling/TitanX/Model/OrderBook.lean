import TitanX.Lib.OrdMap
import TitanX.Lib.Run
import TitanX.Model.Order
import Mathlib.Data.Finmap
import Mathlib.Order.RelClasses
import Mathlib.Data.Int.Order.Basic

/-!
# The order book

`titanx/engine/OrderBook`: two ordered maps from price to a FIFO queue, the
cancel index, and the last trade price.

The two `while` loops of `matchMarket` and `matchLimit` are the same loops but
for the crossing test of the outer one, which is a parameter here (`matchSide`).
Both are structural recursions. A `while` turn either exhausts the front order,
so the queue gets shorter, or leaves it partly filled, and then nothing is left of
the aggressor and both loops end; `fillLevel_while` and `matchSide_while` state
the source's loop equations and are proved from the recursions.

A `Fill` is a trade together with a ghost: the passive side as it stood when the
trade was executed. Nothing reads the ghost. It is there because the loops pop as
they go, so that "the orders resting at that moment" is otherwise not a value the
program ever has.

In one place the source reads an order that no longer exists: after `pop_front` the loops
erase `passive.orderId` from the index, and `passive` is a reference to the order that
`pop_front` has just destroyed. What that read yields is a parameter, `PoppedId`.
-/

namespace TitanX

/-! ## Price order -/

/-- `p` comes before `q` on side `s`: `std::greater` for bids, `std::less` for asks. -/
def better : OrderSide → Int → Int → Prop
  | .buy => fun p q => q < p
  | .sell => fun p q => p < q

instance (s : OrderSide) : DecidableRel (better s) := fun p q =>
  match s with
  | .buy => inferInstanceAs (Decidable (q < p))
  | .sell => inferInstanceAs (Decidable (p < q))

instance (s : OrderSide) : IsStrictTotalOrder Int (better s) :=
  match s with
  | .buy => inferInstanceAs (IsStrictTotalOrder Int (· > ·))
  | .sell => inferInstanceAs (IsStrictTotalOrder Int (· < ·))

/-- The price levels of a side in iteration order, best first. -/
abbrev Levels := List (Int × List Order)

/-- The orders of a side in priority order. -/
def Levels.orders (ls : Levels) : List Order := ls.flatMap Prod.snd

/-! ## The state -/

/-- What `generate_uuid` and `SystemClock::now` return during one call, by the
number of trades the call has made so far. -/
structure Ambient where
  tradeId : Nat → String
  executedAt : Nat → Int
  updatedAt : Nat → Int

structure OrderBook where
  symbol : String
  bids : OrdMap Int (List Order) (better .buy)
  asks : OrdMap Int (List Order) (better .sell)
  orderIndex : Finmap (fun _ : String => Order)
  lastTradePrice : Option Int
  deriving DecidableEq

/-- A trade, and the passive side when it was executed (ghost). -/
structure Fill where
  trade : Trade
  resting : Levels

namespace OrderBook

/-- The constructor. -/
def new (symbol : String) : OrderBook := ⟨symbol, OrdMap.empty, OrdMap.empty, ∅, none⟩

/-- `bids_` or `asks_`. -/
def levels (b : OrderBook) : (s : OrderSide) → OrdMap Int (List Order) (better s)
  | .buy => b.bids
  | .sell => b.asks

/-- The book with one side replaced. -/
def setLevels (b : OrderBook) : (s : OrderSide) → OrdMap Int (List Order) (better s) → OrderBook
  | .buy, m => { b with bids := m }
  | .sell, m => { b with asks := m }

/-- The orders resting on side `s`, in priority order. -/
def resting (b : OrderBook) (s : OrderSide) : List Order := Levels.orders (b.levels s).entries

section SetLevels

variable (b : OrderBook) (s : OrderSide) (m : OrdMap Int (List Order) (better s))

@[simp] theorem levels_setLevels : (b.setLevels s m).levels s = m := by cases s <;> rfl

theorem levels_setLevels_of_ne {t : OrderSide} (h : t ≠ s) :
    (b.setLevels s m).levels t = b.levels t := by
  cases s <;> cases t <;> first | rfl | exact absurd rfl h

@[simp] theorem orderIndex_setLevels : (b.setLevels s m).orderIndex = b.orderIndex := by
  cases s <;> rfl

@[simp] theorem lastTradePrice_setLevels :
    (b.setLevels s m).lastTradePrice = b.lastTradePrice := by cases s <;> rfl

@[simp] theorem symbol_setLevels : (b.setLevels s m).symbol = b.symbol := by cases s <;> rfl

/-- The levels are read off `bids` and `asks` alone. -/
@[simp] theorem levels_mk (symbol : String) (index : Finmap (fun _ : String => Order))
    (last : Option Int) : levels ⟨symbol, b.bids, b.asks, index, last⟩ s = b.levels s := by
  cases s <;> rfl

end SetLevels

/-! ## The id of a destroyed order -/

/--
A reading of `passive.orderId` after `pop_front`: `intact id` says that the id of the order
is still found where it was. If not, the text read is taken to be no key of the index, and
erasing it erases nothing.
-/
class PoppedId where
  intact : String → Bool

/--
The reading that grants the source what it means: the id is always found. It is the one in
force wherever no other is named. `Proof.Stale` says what carries over to
the others.
-/
instance grantedId : PoppedId := ⟨fun _ => true⟩

/-- The reading for ids that are kept on the heap from 16 characters on, and are freed with
the order there. Those of `Order::create` have 36. -/
@[reducible] def shortIds : PoppedId := ⟨fun id => id.length ≤ 15⟩

/-! ## The matching loops -/

section Loops

variable [PoppedId]

/-- What the loops write: the local `remainingQty` and `trades`, and the two
fields of the book besides the side being swept. -/
structure Sweep where
  remainingQty : Int
  fills : List Fill
  orderIndex : Finmap (fun _ : String => Order)
  lastTradePrice : Option Int

/-- The body of the inner loop: trade with the front order of the best level.
Returns `updatedPassive`. -/
def fillFront (amb : Ambient) (aggressor : Order) (bestPrice : Int) (passive : Order)
    (rest : List Order) (behind : Levels) (st : Sweep) : Order × Sweep :=
  let fillQty := min st.remainingQty passive.remainingQuantity
  let n := st.fills.length
  let trade := Trade.create (amb.tradeId n) (amb.executedAt n) aggressor passive bestPrice fillQty
  let updatedPassive :=
    passive.withRemainingQuantity (passive.remainingQuantity - fillQty) (amb.updatedAt n)
  (updatedPassive,
    { remainingQty := st.remainingQty - fillQty
      fills := st.fills ++ [⟨trade, (bestPrice, passive :: rest) :: behind⟩]
      orderIndex :=
        if updatedPassive.remainingQuantity > 0 then
          st.orderIndex.insert updatedPassive.orderId updatedPassive
        -- `passive` has been popped by now
        else if PoppedId.intact passive.orderId then st.orderIndex.erase passive.orderId
        else st.orderIndex
      lastTradePrice := some bestPrice })

/-- The inner loop, over the queue of the best level. -/
def fillLevel (amb : Ambient) (aggressor : Order) (bestPrice : Int) (behind : Levels) :
    List Order → Sweep → List Order × Sweep
  | [], st => ([], st)
  | passive :: rest, st =>
      if st.remainingQty > 0 then
        let r := fillFront amb aggressor bestPrice passive rest behind st
        -- put back if partial; `remainingQty` is then 0 and the loop is over
        if r.1.remainingQuantity > 0 then (r.1 :: rest, r.2)
        else fillLevel amb aggressor bestPrice behind rest r.2
      else (passive :: rest, st)

/-- The outer loop, over the levels of the opposite side. -/
def matchSide (amb : Ambient) (aggressor : Order) (crosses : Int → Bool) :
    Levels → Sweep → Levels × Sweep
  | [], st => ([], st)
  | (bestPrice, queue) :: levels, st =>
      if st.remainingQty > 0 then
        if crosses bestPrice then
          let r := fillLevel amb aggressor bestPrice levels queue st
          -- a queue that is not used up means the aggressor is
          if r.1.isEmpty then matchSide amb aggressor crosses levels r.2
          else ((bestPrice, r.1) :: levels, r.2)
        else ((bestPrice, queue) :: levels, st)
      else ((bestPrice, queue) :: levels, st)

/-- A partly filled passive order means that nothing is left of the aggressor. -/
theorem fillFront_partly {amb : Ambient} {aggressor passive : Order} {bestPrice : Int}
    {rest : List Order} {behind : Levels} {st : Sweep}
    (h : (fillFront amb aggressor bestPrice passive rest behind st).1.remainingQuantity > 0) :
    (fillFront amb aggressor bestPrice passive rest behind st).2.remainingQty = 0 := by
  simp only [fillFront, Order.withRemainingQuantity_remainingQuantity] at h ⊢
  omega

/-- The inner `while`, as the source writes it. -/
theorem fillLevel_while (amb : Ambient) (aggressor : Order) (bestPrice : Int) (behind : Levels)
    (passive : Order) (rest : List Order) (st : Sweep) (h : st.remainingQty > 0) :
    fillLevel amb aggressor bestPrice behind (passive :: rest) st =
      let r := fillFront amb aggressor bestPrice passive rest behind st
      fillLevel amb aggressor bestPrice behind
        (if r.1.remainingQuantity > 0 then r.1 :: rest else rest) r.2 := by
  rw [fillLevel, if_pos h]
  dsimp only
  split
  · rename_i hp
    rw [fillLevel, if_neg (by rw [fillFront_partly hp]; omega)]
  · rfl

/-- The inner loop stops with orders left only when the aggressor is used up. -/
theorem fillLevel_exhausts {amb : Ambient} {aggressor : Order} {bestPrice : Int}
    {behind : Levels} : ∀ {queue : List Order} {st : Sweep},
    (fillLevel amb aggressor bestPrice behind queue st).1 ≠ [] →
    (fillLevel amb aggressor bestPrice behind queue st).2.remainingQty ≤ 0
  | [], st, h => absurd rfl h
  | passive :: rest, st, h => by
      rw [fillLevel] at h ⊢
      split at h
      · rename_i hrem
        rw [if_pos hrem]
        dsimp only at h ⊢
        split at h
        · rename_i hp
          rw [if_pos hp]
          exact le_of_eq (fillFront_partly hp)
        · rename_i hp
          rw [if_neg hp]
          exact fillLevel_exhausts h
      · rename_i hrem
        rw [if_neg hrem]
        exact not_lt.mp hrem

/-- The outer `while`, as the source writes it. -/
theorem matchSide_while (amb : Ambient) (aggressor : Order) (crosses : Int → Bool)
    (bestPrice : Int) (queue : List Order) (levels : Levels) (st : Sweep)
    (h : st.remainingQty > 0) (hc : crosses bestPrice = true) :
    matchSide amb aggressor crosses ((bestPrice, queue) :: levels) st =
      let r := fillLevel amb aggressor bestPrice levels queue st
      matchSide amb aggressor crosses
        (if r.1.isEmpty then levels else (bestPrice, r.1) :: levels) r.2 := by
  rw [matchSide, if_pos h, if_pos hc]
  dsimp only
  split
  · rfl
  · rename_i hq
    have hrem := fillLevel_exhausts (fun hnil => hq (List.isEmpty_iff.mpr hnil))
    rw [matchSide, if_neg (not_lt.mpr hrem)]

/-- A sweep only drops levels from the front, so the keys stay sorted. -/
theorem matchSide_keys (amb : Ambient) (aggressor : Order) (crosses : Int → Bool) :
    ∀ (ls : Levels) (st : Sweep),
      ((matchSide amb aggressor crosses ls st).1.map Prod.fst).Sublist (ls.map Prod.fst)
  | [], _ => List.Sublist.refl _
  | (p, queue) :: ls, st => by
      rw [matchSide]
      split
      · split
        · dsimp only
          split
          · exact (matchSide_keys amb aggressor crosses ls _).trans (List.sublist_cons_self _ _)
          · exact List.Sublist.refl _
        · exact List.Sublist.refl _
      · exact List.Sublist.refl _

theorem matchSide_sorted {s : OrderSide} (amb : Ambient) (aggressor : Order)
    (crosses : Int → Bool) (m : OrdMap Int (List Order) (better s)) (st : Sweep) :
    (matchSide amb aggressor crosses m.entries st).1.Pairwise
      (fun a b => better s a.1 b.1) := by
  have hm := m.sorted
  rw [← List.pairwise_map] at hm ⊢
  exact hm.sublist (matchSide_keys amb aggressor crosses m.entries st)

/-- Run the loops over the side opposite to the aggressor. -/
def sweep (b : OrderBook) (amb : Ambient) (aggressor : Order) (crosses : Int → Bool) :
    Sweep × OrderBook :=
  let opposite := aggressor.side.opposite
  let st : Sweep := ⟨aggressor.remainingQuantity, [], b.orderIndex, b.lastTradePrice⟩
  let r := matchSide amb aggressor crosses (b.levels opposite).entries st
  (r.2,
    { b.setLevels opposite ⟨r.1, matchSide_sorted amb aggressor crosses _ st⟩ with
      orderIndex := r.2.orderIndex
      lastTradePrice := r.2.lastTradePrice })

end Loops

/-! ## Book operations -/

/-- The side with `order` appended to the queue of its price. -/
def pushBack {s : OrderSide} (m : OrdMap Int (List Order) (better s)) (order : Order) :
    OrdMap Int (List Order) (better s) :=
  m.upsert order.price (fun queue => queue.getD [] ++ [order])

def insertIntoBook (b : OrderBook) (order : Order) : OrderBook :=
  { b.setLevels order.side (pushBack (b.levels order.side) order) with
    orderIndex := b.orderIndex.insert order.orderId order }

/-- The side without order `orderId` in `queue`, the queue at `price`; a level that
becomes empty is erased. -/
def dropFromLevel {s : OrderSide} (m : OrdMap Int (List Order) (better s)) (price : Int)
    (queue : List Order) (orderId : String) : OrdMap Int (List Order) (better s) :=
  let queue' := queue.filter (fun o => o.orderId ≠ orderId)
  if queue'.isEmpty then m.erase price else m.upsert price (fun _ => queue')

def removeFromBook (b : OrderBook) (orderId : String) : Bool × OrderBook :=
  match b.orderIndex.lookup orderId with
  | none => (false, b)
  | some order =>
      let b' := { b with orderIndex := b.orderIndex.erase orderId }
      -- market orders have no price
      if order.price = 0 then (false, b')
      else
        match (b'.levels order.side).find? order.price with
        | none => (false, b')
        | some queue =>
            (true, b'.setLevels order.side
              (dropFromLevel (b'.levels order.side) order.price queue orderId))

/-! ## Queries -/

/-- The counting loop of `availableQuantityAtOrBetter`; `total` is an `int64_t`. -/
def countSide (crosses : Int → Bool) : Levels → Int → Int
  | [], total => total
  | (levelPrice, queue) :: levels, total =>
      if crosses levelPrice then
        countSide crosses levels
          (queue.foldl (fun total o => wrap64 (total + o.remainingQuantity)) total)
      else total

/-- The crossing test of a limit price: `>=` when buying, `<=` when selling. -/
def crossesLimit (aggressor : Order) (levelPrice : Int) : Bool :=
  if aggressor.isBuy then aggressor.price ≥ levelPrice else aggressor.price ≤ levelPrice

def availableQuantityAtOrBetter (b : OrderBook) (aggressor : Order) : Int :=
  countSide (fun levelPrice => aggressor.price = 0 || crossesLimit aggressor levelPrice)
    (b.levels aggressor.side.opposite).entries 0

def bestBid (b : OrderBook) : Option Int := b.bids.first?.map Prod.fst

def bestAsk (b : OrderBook) : Option Int := b.asks.first?.map Prod.fst

def totalOrders (b : OrderBook) : Nat := b.orderIndex.keys.card

/-! ## Matching -/

section Match

variable [PoppedId]

def matchMarket (b : OrderBook) (amb : Ambient) (aggressor : Order) : List Fill × OrderBook :=
  let r := b.sweep amb aggressor (fun _ => true)
  (r.1.fills, r.2)

def matchLimit (b : OrderBook) (amb : Ambient) (aggressor : Order) : List Fill × OrderBook :=
  let r := b.sweep amb aggressor (crossesLimit aggressor)
  -- if not fully filled, rest the unfilled portion in the book
  if r.1.remainingQty > 0 then
    let restingOrder :=
      aggressor.withRemainingQuantity r.1.remainingQty (amb.updatedAt r.1.fills.length)
    (r.1.fills, r.2.insertIntoBook restingOrder)
  else (r.1.fills, r.2)

def matchIoc (b : OrderBook) (amb : Ambient) (aggressor : Order) : List Fill × OrderBook :=
  let r := b.matchLimit amb aggressor
  -- remove the resting portion we just inserted (if any)
  (r.1, (r.2.removeFromBook aggressor.orderId).2)

def matchFok (b : OrderBook) (amb : Ambient) (aggressor : Order) : List Fill × OrderBook :=
  if b.availableQuantityAtOrBetter aggressor < aggressor.quantity then ([], b)
  else b.matchMarket amb aggressor

/-- `match`: the executions of an incoming order and the book they leave. -/
def matchIncoming (b : OrderBook) (amb : Ambient) (incoming : Order) : List Fill × OrderBook :=
  match incoming.type with
  | .market => b.matchMarket amb incoming
  | .limit => b.matchLimit amb incoming
  | .ioc => b.matchIoc amb incoming
  | .fok => b.matchFok amb incoming
  | .stopLimit => ([], b)

end Match

end OrderBook

/-! ## Runs of a book -/

/-- A call on a book that changes it. -/
inductive BookOp where
  | matchIncoming (amb : Ambient) (incoming : Order)
  | removeFromBook (orderId : String)

/-- What a call returns: the executions of a `match`, the verdict of a removal. -/
structure BookOut where
  fills : List Fill
  removed : Bool

def OrderBook.step [OrderBook.PoppedId] (b : OrderBook) : BookOp → OrderBook × BookOut
  | .matchIncoming amb incoming =>
      ((b.matchIncoming amb incoming).2, ⟨(b.matchIncoming amb incoming).1, false⟩)
  | .removeFromBook orderId =>
      ((b.removeFromBook orderId).2, ⟨[], (b.removeFromBook orderId).1⟩)

end TitanX
