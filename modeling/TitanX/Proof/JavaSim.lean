import TitanX.Model.JavaBook
import TitanX.Lib.OrdMapRel
import TitanX.Proof.Sweep
import Mathlib.Algebra.Order.Field.Basic
import Mathlib.Tactic.NormNum

/-!
# The two matching loops, side by side

What it means that a Java book is in the state of a C++ book, and that the loops of
`matchMarket` and `matchLimit` take the one to the other.

A price `p` is the decimal `p / 10^8`, and a price of 0 is no price. An order is the same
but for its prices and for when it was last updated, which each program reads off its own
clock. A deque is a priority queue whose elements, arranged by `createdAt`, are the orders
of the deque (`QueueSim`); the arrangement is what survives a partial fill, where C++
pushes the order back to the front and Java offers it again with its old `createdAt`.
-/

namespace TitanX.Proof

open TitanX OrderBook

/-! ## Records -/

/-- The value of a fixed point price. -/
def decimal (p : Int) : Java.BigDecimal := (p : ℚ) / 100000000

/-- A price that may be missing: 0 in C++, null in Java. -/
def decimal? (p : Int) : Option Java.BigDecimal := if p = 0 then none else some (decimal p)

theorem decimal_le {p q : Int} : decimal p ≤ decimal q ↔ p ≤ q := by
  unfold decimal
  rw [div_le_div_iff_of_pos_right (by norm_num)]
  exact Int.cast_le

theorem decimal_lt {p q : Int} : decimal p < decimal q ↔ p < q := by
  rw [← not_le, ← not_le, decimal_le]

theorem decimal_injective : Function.Injective decimal := by
  intro p q h
  exact le_antisymm (decimal_le.mp h.le) (decimal_le.mp h.ge)

theorem better_iff_before (s : OrderSide) (p q : Int) :
    better s p q ↔ Java.before s (decimal p) (decimal q) := by
  cases s with
  | buy => exact decimal_lt.symm
  | sell => exact decimal_lt.symm

/-- The order as Java has it, if it was last updated at `updatedAt`. -/
def inJava (o : Order) (updatedAt : Int) : Java.Order where
  orderId := o.orderId
  accountId := o.accountId
  symbol := o.symbol
  side := o.side
  type := o.type
  price := decimal? o.price
  stopPrice := decimal? o.stopPrice
  quantity := o.quantity
  remainingQuantity := o.remainingQuantity
  status := o.status
  createdAt := o.createdAt
  updatedAt := updatedAt

/-- The same order, but for the time of its last update. -/
def Corresponds (o : Order) (j : Java.Order) : Prop := ∃ updatedAt, j = inJava o updatedAt

section Fields

variable {o : Order} {j : Java.Order} (h : Corresponds o j)

include h

theorem Corresponds.orderId : j.orderId = o.orderId := by obtain ⟨_, rfl⟩ := h; rfl

theorem Corresponds.createdAt : j.createdAt = o.createdAt := by obtain ⟨_, rfl⟩ := h; rfl

theorem Corresponds.remainingQuantity : j.remainingQuantity = o.remainingQuantity := by
  obtain ⟨_, rfl⟩ := h; rfl

theorem Corresponds.withRemainingQuantity (n now now' : Int) :
    Corresponds (o.withRemainingQuantity n now) (j.withRemainingQuantity n now') := by
  obtain ⟨_, rfl⟩ := h
  exact ⟨now', rfl⟩

end Fields

/-- The same trade, but for its generated id and its time. -/
structure TradeSim (t : Trade) (t' : Java.Trade) : Prop where
  symbol : t'.symbol = t.symbol
  aggressorOrderId : t'.aggressorOrderId = t.aggressorOrderId
  aggressorAccountId : t'.aggressorAccountId = t.aggressorAccountId
  passiveOrderId : t'.passiveOrderId = t.passiveOrderId
  passiveAccountId : t'.passiveAccountId = t.passiveAccountId
  price : t'.price = decimal t.price
  quantity : t'.quantity = t.quantity
  aggressorSide : t'.aggressorSide = t.aggressorSide

/-- The cancel indices bind the same ids to the same orders. -/
abbrev IndexSim (index : Finmap (fun _ : String => Order))
    (index' : Finmap (fun _ : String => Java.Order)) : Prop :=
  FinmapRel Corresponds index index'

/-! ## States -/

variable {Q : Type} [PriorityQueue Q Java.Order]

/-- The elements of `q`, arranged by `createdAt`, are the orders of `queue`. -/
def QueueSim (queue : List Order) (q : Q) : Prop :=
  ∃ js, (PriorityQueue.elems q).Perm js ∧ List.Forall₂ Corresponds queue js
    ∧ js.Pairwise (fun j k => j.createdAt < k.createdAt)

theorem QueueSim.length {queue : List Order} {q : Q} (h : QueueSim queue q) :
    (PriorityQueue.elems q).length = queue.length := by
  obtain ⟨js, hperm, hjs, -⟩ := h
  rw [hperm.length_eq, hjs.length_eq]

theorem QueueSim.isEmpty {queue : List Order} {q : Q} (h : QueueSim queue q) :
    (PriorityQueue.elems q).isEmpty = queue.isEmpty := by
  rw [Bool.eq_iff_iff, List.isEmpty_iff_length_eq_zero, List.isEmpty_iff_length_eq_zero, h.length]

structure SweepSim (st : Sweep) (st' : Java.Sweep) : Prop where
  remainingQty : st'.remainingQty = st.remainingQty
  trades : List.Forall₂ TradeSim (st.fills.map Fill.trade) st'.trades
  orderIndex : IndexSim st.orderIndex st'.orderIndex
  lastTradePrice : st'.lastTradePrice = st.lastTradePrice.map decimal

/-- The Java book `b'` is in the state of the C++ book `b`. -/
structure BookSim (b : OrderBook) (b' : Java.OrderBook Q) : Prop where
  levels : ∀ s, OrdMap.Related decimal QueueSim (b.levels s).entries (b'.levels s).entries
  orderIndex : IndexSim b.orderIndex b'.orderIndex
  lastTradePrice : b'.lastTradePrice = b.lastTradePrice.map decimal

/-- Writing one side, the index and the last trade price. -/
theorem BookSim.write {b : OrderBook} {b' : Java.OrderBook Q} (h : BookSim b b') (s : OrderSide)
    {m : OrdMap Int (List Order) (better s)} {m' : OrdMap Java.BigDecimal Q (Java.before s)}
    (hm : OrdMap.Related decimal QueueSim m.entries m'.entries)
    {index : Finmap (fun _ : String => Order)} {index' : Finmap (fun _ : String => Java.Order)}
    (hindex : IndexSim index index') {last : Option Int} {last' : Option Java.BigDecimal}
    (hlast : last' = last.map decimal) :
    BookSim { b.setLevels s m with orderIndex := index, lastTradePrice := last }
      { b'.setLevels s m' with orderIndex := index', lastTradePrice := last' } := by
  refine ⟨fun t => ?_, hindex, hlast⟩
  rw [levels_mk, Java.OrderBook.levels_mk]
  by_cases ht : t = s
  · subst ht
    rw [levels_setLevels, Java.OrderBook.levels_setLevels]
    exact hm
  · rw [levels_setLevels_of_ne _ _ _ ht, Java.OrderBook.levels_setLevels_of_ne _ _ _ ht]
    exact h.levels t

/-! ## The loops -/

section Loops

variable (amb amb' : Ambient) (aggressor : Order) (updatedAt : Int)

theorem java_fillFront_orderIndex (amb : Ambient) (aggressor : Java.Order) (p : Java.BigDecimal)
    (passive : Java.Order) (st : Java.Sweep) :
    (Java.OrderBook.fillFront amb aggressor p passive st).2.orderIndex =
      if (Java.OrderBook.fillFront amb aggressor p passive st).1.remainingQuantity > 0 then
        st.orderIndex.insert (Java.OrderBook.fillFront amb aggressor p passive st).1.orderId
          (Java.OrderBook.fillFront amb aggressor p passive st).1
      else st.orderIndex.erase passive.orderId := rfl

theorem fillFront_sim {passive : Order} {j : Java.Order} {st : Sweep} {st' : Java.Sweep}
    (hj : Corresponds passive j) (h : SweepSim st st') (p : Int) (rest : List Order)
    (behind : Levels) :
    Corresponds (fillFront amb aggressor p passive rest behind st).1
        (Java.OrderBook.fillFront amb' (inJava aggressor updatedAt) (decimal p) j st').1
      ∧ SweepSim (fillFront amb aggressor p passive rest behind st).2
        (Java.OrderBook.fillFront amb' (inJava aggressor updatedAt) (decimal p) j st').2 := by
  have hupd : Corresponds (fillFront amb aggressor p passive rest behind st).1
      (Java.OrderBook.fillFront amb' (inJava aggressor updatedAt) (decimal p) j st').1 := by
    simp only [fillFront, Java.OrderBook.fillFront, h.remainingQty, hj.remainingQuantity]
    exact hj.withRemainingQuantity _ _ _
  refine ⟨hupd, ?_, ?_, ?_, rfl⟩
  · simp only [fillFront, Java.OrderBook.fillFront, h.remainingQty, hj.remainingQuantity]
  · simp only [fillFront, Java.OrderBook.fillFront, List.map_append]
    refine List.rel_append h.trades (.cons ?_ .nil)
    obtain ⟨_, rfl⟩ := hj
    exact ⟨rfl, rfl, rfl, rfl, rfl, rfl, by rw [h.remainingQty]; rfl, rfl⟩
  · rw [fillFront_orderIndex, java_fillFront_orderIndex, hupd.remainingQuantity, hupd.orderId,
      hj.orderId]
    split
    · exact h.orderIndex.insert _ hupd
    · exact h.orderIndex.erase _

/-- With nothing left of the aggressor the inner loop does nothing. -/
theorem java_fillLevel_done {aggressor : Java.Order} {p : Java.BigDecimal} {st : Java.Sweep}
    (h : st.remainingQty ≤ 0) : ∀ (fuel : Nat) (q : Q),
    Java.OrderBook.fillLevel amb aggressor p fuel q st = (q, st)
  | 0, _ => rfl
  | fuel + 1, q => by rw [Java.OrderBook.fillLevel, if_neg (by omega)]

variable [LawfulPriorityQueue Q Java.Order.createdAt]

theorem java_fillLevel_empty {aggressor : Java.Order} {p : Java.BigDecimal} {st : Java.Sweep} {q : Q}
    (h : PriorityQueue.elems q = []) : ∀ (fuel : Nat),
    Java.OrderBook.fillLevel amb aggressor p fuel q st = (q, st)
  | 0 => rfl
  | fuel + 1 => by
      rw [Java.OrderBook.fillLevel, PriorityQueue.peek?_eq_none h]
      split <;> rfl

/-- The inner loops agree, if Java's may take as many turns as there are orders. -/
theorem fillLevel_sim (p : Int) (behind : Levels) : ∀ {queue : List Order} {q : Q} {st : Sweep}
    {st' : Java.Sweep} {fuel : Nat}, QueueSim queue q → SweepSim st st' → queue.length ≤ fuel →
    QueueSim (fillLevel amb aggressor p behind queue st).1
        (Java.OrderBook.fillLevel amb' (inJava aggressor updatedAt) (decimal p) fuel q st').1
      ∧ SweepSim (fillLevel amb aggressor p behind queue st).2
        (Java.OrderBook.fillLevel amb' (inJava aggressor updatedAt) (decimal p) fuel q st').2
  | [], q, st, st', fuel, hq, hst, _ => by
      have hempty : PriorityQueue.elems q = [] := List.length_eq_zero_iff.mp hq.length
      rw [fillLevel, java_fillLevel_empty _ hempty]
      exact ⟨hq, hst⟩
  | passive :: rest, q, st, st', 0, _, _, hfuel => absurd hfuel (by simp)
  | passive :: rest, q, st, st', fuel + 1, hq, hst, hfuel => by
      rw [fillLevel, Java.OrderBook.fillLevel, hst.remainingQty]
      by_cases hrem : st.remainingQty > 0
      · rw [if_pos hrem, if_pos hrem]
        obtain ⟨_, hperm, hjs, hsorted⟩ := hq
        cases hjs with
        | @cons _ j _ js hj hjs =>
        rw [PriorityQueue.peek?_eq_head hperm hsorted]
        have hpoll := PriorityQueue.elems_poll_tail hperm hsorted
        obtain ⟨hupd, hst'⟩ := fillFront_sim amb amb' aggressor updatedAt hj hst p rest behind
        dsimp only
        rw [hupd.remainingQuantity]
        split
        · -- the order goes back with its old `createdAt`, and the Java loop is over as well
          rename_i hpartly
          rw [java_fillLevel_done _ (by rw [hst'.remainingQty, fillFront_partly hpartly])]
          refine ⟨⟨_ :: js, ?_, .cons hupd hjs, ?_⟩, hst'⟩
          · exact (LawfulPriorityQueue.elems_offer _ _).trans (hpoll.cons _)
          · exact List.pairwise_cons.mpr ⟨(List.pairwise_cons.mp hsorted).1,
              (List.pairwise_cons.mp hsorted).2⟩
        · exact fillLevel_sim p behind ⟨js, hpoll, hjs, (List.pairwise_cons.mp hsorted).2⟩ hst'
            (by simpa using hfuel)
      · rw [if_neg hrem, if_neg hrem]
        exact ⟨hq, hst⟩

/-- The outer loops agree, if the crossing tests do. -/
theorem matchSide_sim {crosses : Int → Bool} {crosses' : Java.BigDecimal → Bool}
    (hc : ∀ p, crosses' (decimal p) = crosses p) :
    ∀ {ls : Levels} {ls' : List (Java.BigDecimal × Q)} {st : Sweep} {st' : Java.Sweep},
      OrdMap.Related decimal QueueSim ls ls' → SweepSim st st' →
      OrdMap.Related decimal QueueSim (matchSide amb aggressor crosses ls st).1
          (Java.OrderBook.matchSide amb' (inJava aggressor updatedAt) crosses' ls' st').1
        ∧ SweepSim (matchSide amb aggressor crosses ls st).2
          (Java.OrderBook.matchSide amb' (inJava aggressor updatedAt) crosses' ls' st').2 := by
  intro ls ls' st st' hls hst
  induction hls generalizing st st' with
  | nil => exact ⟨.nil, hst⟩
  | @cons level level' ls ls' hl hls ih =>
      obtain ⟨p, queue⟩ := level
      obtain ⟨p', q⟩ := level'
      obtain ⟨hp, hq⟩ := hl
      dsimp only at hp hq
      subst hp
      rw [matchSide, Java.OrderBook.matchSide, hst.remainingQty, hc]
      split
      · split
        · obtain ⟨hq', hst'⟩ := fillLevel_sim amb amb' aggressor updatedAt p ls hq hst hq.length.ge
          dsimp only
          rw [hq'.isEmpty]
          split
          · exact ih hst'
          · exact ⟨.cons ⟨rfl, hq'⟩ hls, hst'⟩
        · exact ⟨.cons ⟨rfl, hq⟩ hls, hst⟩
      · exact ⟨.cons ⟨rfl, hq⟩ hls, hst⟩

theorem sweep_sim {b : OrderBook} {b' : Java.OrderBook Q} (h : BookSim b b')
    (crosses : Int → Bool) (crosses' : Java.BigDecimal → Bool)
    (hc : ∀ p, crosses' (decimal p) = crosses p) :
    SweepSim (b.sweep amb aggressor crosses).1
        (b'.sweep amb' (inJava aggressor updatedAt) crosses').1
      ∧ BookSim (b.sweep amb aggressor crosses).2
        (b'.sweep amb' (inJava aggressor updatedAt) crosses').2 := by
  have hstart : SweepSim ⟨aggressor.remainingQuantity, [], b.orderIndex, b.lastTradePrice⟩
      ⟨aggressor.remainingQuantity, [], b'.orderIndex, b'.lastTradePrice⟩ :=
    ⟨rfl, .nil, h.orderIndex, h.lastTradePrice⟩
  obtain ⟨hls, hst⟩ := matchSide_sim amb amb' aggressor updatedAt hc
    (h.levels aggressor.side.opposite) hstart
  exact ⟨hst, h.write aggressor.side.opposite hls hst.orderIndex hst.lastTradePrice⟩

end Loops

end TitanX.Proof
