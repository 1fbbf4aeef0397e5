import TitanX.Proof.Cancel

/-!
# Orders that do not rest

`matchFok` counts first and then sweeps without a price limit; `matchIoc` lets the
remainder rest and then cancels it. Both are compared here with `matchLimit` for the same
order with type `LIMIT`.

For the fill-or-kill order this is one fact about two loops: a sweep without a limit, of an
aggressor no larger than what lies within a limit, is the sweep with the limit
(`sweep_unlimited`). For the immediate-or-cancel order it is one about a side: taking an
order out of the level it was just appended to leaves the side as it was
(`without_pushBack`). Between them stands the early return of `removeFromBook` for orders
without a price.
-/

namespace TitanX.Proof

open TitanX OrderBook

/-! ## The type of an order -/

/-- The order with the same fields but for its type. -/
def withType (o : Order) (type : OrderType) : Order := { o with type }

theorem fillLevel_withType (amb : Ambient) (o : Order) (type : OrderType) (p : Int)
    (behind : Levels) (queue : List Order) :
    ∀ st, fillLevel amb (withType o type) p behind queue st
      = fillLevel amb o p behind queue st := by
  induction queue with
  | nil => intro st; rfl
  | cons passive rest ih =>
      intro st
      simp only [fillLevel, ih]
      rfl

/-- The loops do not read the type of the aggressor. -/
theorem matchSide_withType (amb : Ambient) (o : Order) (type : OrderType)
    (crosses : Int → Bool) (ls : Levels) :
    ∀ st, matchSide amb (withType o type) crosses ls st = matchSide amb o crosses ls st := by
  induction ls with
  | nil => intro st; rfl
  | cons l ls ih =>
      intro st
      simp only [matchSide, ih, fillLevel_withType]

theorem sweep_withType (b : OrderBook) (amb : Ambient) (o : Order) (type : OrderType)
    (crosses : Int → Bool) :
    b.sweep amb (withType o type) crosses = b.sweep amb o crosses := by
  simp only [sweep, matchSide_withType]
  rfl

/-- The same order as a limit order: the fills of the same sweep, and the remainder rests. -/
theorem matchLimit_withType_cases (b : OrderBook) (amb : Ambient) (o : Order) :
    ((b.sweep amb o (crossesLimit o)).1.remainingQty ≤ 0
      ∧ b.matchLimit amb (withType o .limit) =
        ((b.sweep amb o (crossesLimit o)).1.fills, (b.sweep amb o (crossesLimit o)).2))
    ∨ (0 < (b.sweep amb o (crossesLimit o)).1.remainingQty
      ∧ b.matchLimit amb (withType o .limit) =
        ((b.sweep amb o (crossesLimit o)).1.fills,
          (b.sweep amb o (crossesLimit o)).2.insertIntoBook
            (withType (remainder b amb o) .limit))) := by
  have h := matchLimit_cases b amb (withType o .limit)
  have hc : crossesLimit (withType o .limit) = crossesLimit o := rfl
  simp only [remainder, hc, sweep_withType] at h
  exact h

/-! ## The count is exact -/

theorem remaining_nonneg {L : List Order} (h : ∀ o ∈ L, 0 < o.remainingQuantity) :
    0 ≤ (L.map Order.remainingQuantity).sum :=
  List.sum_nonneg (by simpa using fun o ho => (h o ho).le)

theorem countQueue_eq (queue : List Order) (hpos : ∀ o ∈ queue, 0 < o.remainingQuantity) :
    ∀ total : Int, 0 ≤ total →
      total + (queue.map Order.remainingQuantity).sum < 9223372036854775808 →
      queue.foldl (fun total o => wrap64 (total + o.remainingQuantity)) total
        = total + (queue.map Order.remainingQuantity).sum := by
  induction queue with
  | nil => intro total _ _; simp
  | cons o queue ih =>
      intro total h0 hlt
      have ho := hpos o (List.mem_cons_self ..)
      have hpos' : ∀ x ∈ queue, 0 < x.remainingQuantity :=
        fun x hx => hpos x (List.mem_cons_of_mem _ hx)
      have hnn := remaining_nonneg hpos'
      rw [List.map_cons, List.sum_cons] at hlt ⊢
      rw [List.foldl_cons, wrap64_of_lt (by omega) (by omega), ih hpos' _ (by omega) (by omega)]
      omega

/-- Nothing crosses behind a level that does not. -/
theorem crossing_behind {s : OrderSide} {crosses : Int → Bool} (hm : CrossMono s crosses)
    {p : Int} {queue : List Order} {ls : Levels} (h : SideOk s ((p, queue) :: ls))
    (hsorted : ((p, queue) :: ls).Pairwise (fun a b => better s a.1 b.1))
    (hc : ¬ crosses p = true) : crossing crosses (Levels.orders ((p, queue) :: ls)) = 0 := by
  by_contra hne
  have hnn := crossing_nonneg crosses h.positive
  exact hc (best_crosses hm h hsorted (by omega))

theorem countSide_eq {s : OrderSide} {crosses : Int → Bool} (hm : CrossMono s crosses)
    (ls : Levels) : SideOk s ls → ls.Pairwise (fun a b => better s a.1 b.1) →
    ∀ total : Int, 0 ≤ total →
      total + ((Levels.orders ls).map Order.remainingQuantity).sum < 9223372036854775808 →
      countSide crosses ls total = total + crossing crosses (Levels.orders ls) := by
  induction ls with
  | nil => intro _ _ total _ _; simp [countSide]
  | cons l ls ih =>
      obtain ⟨p, queue⟩ := l
      intro h hsorted total h0 hlt
      rw [countSide]
      by_cases hc : crosses p = true
      · rw [if_pos hc]
        have hq : ∀ o ∈ queue, 0 < o.remainingQuantity := fun o ho => (h.head o ho).2
        have hnn := remaining_nonneg hq
        have hnn' := remaining_nonneg h.tail.positive
        rw [orders_cons, List.map_append, List.sum_append] at hlt
        rw [countQueue_eq queue hq total h0 (by omega),
          ih h.tail (List.pairwise_cons.mp hsorted).2 _ (by omega) (by omega),
          orders_cons, crossing_append, crossing_level h hc]
        omega
      · rw [if_neg hc, crossing_behind hm h hsorted hc]
        omega

/-- What `availableQuantityAtOrBetter` counts, if the side fits in an `int64_t`. -/
theorem available_eq {b : OrderBook} (h : RepInv b) (o : Order)
    (hfits : ((b.resting o.side.opposite).map Order.remainingQuantity).sum
      < 9223372036854775808) :
    b.availableQuantityAtOrBetter o
      = crossing (crossesOrAny o) (b.resting o.side.opposite) := by
  have heq := countSide_eq (crossMono_orAny o) _ (h.side o.side.opposite)
    (b.levels o.side.opposite).sorted 0 (by omega) (by rw [Int.zero_add]; exact hfits)
  rw [Int.zero_add] at heq
  exact heq

/-! ## A sweep without a limit -/

theorem matchSide_unlimited (amb : Ambient) {s : OrderSide} (aggressor : Order)
    {within : Int → Bool} (hm : CrossMono s within) (ls : Levels) :
    SideOk s ls → ls.Pairwise (fun a b => better s a.1 b.1) →
    ∀ st, st.remainingQty ≤ crossing within (Levels.orders ls) →
      matchSide amb aggressor (fun _ => true) ls st = matchSide amb aggressor within ls st := by
  induction ls with
  | nil => intro _ _ st _; rfl
  | cons l ls ih =>
      obtain ⟨p, queue⟩ := l
      intro h hsorted st hle
      simp only [matchSide]
      by_cases hrem : st.remainingQty > 0
      · have hp : within p = true := best_crosses hm h hsorted (by omega)
        -- what is left of the aggressor is no more than crosses behind this level
        have hkept := fillLevel_rule (crossing_fill amb s aggressor within _) hp queue st
          (h.nonempty _ (List.mem_cons_self ..)) ⟨h, rfl⟩
        rw [if_pos hrem, if_pos hrem, if_pos trivial, if_pos hp]
        by_cases hq : (fillLevel amb aggressor p ls queue st).1.isEmpty = true
        · rw [collapse, if_pos hq] at hkept
          rw [if_pos hq, if_pos hq]
          exact ih h.tail (List.pairwise_cons.mp hsorted).2 _ (by omega)
        · rw [if_neg hq, if_neg hq]
      · rw [if_neg hrem, if_neg hrem]

/-- An aggressor no larger than what lies within a limit meets nothing outside it. -/
theorem sweep_unlimited {b : OrderBook} (h : RepInv b) (amb : Ambient) {aggressor : Order}
    {within : Int → Bool} (hm : CrossMono aggressor.side.opposite within)
    (hle : aggressor.remainingQuantity
      ≤ crossing within (b.resting aggressor.side.opposite)) :
    b.sweep amb aggressor (fun _ => true) = b.sweep amb aggressor within := by
  have heq := matchSide_unlimited amb aggressor hm _ (h.side aggressor.side.opposite)
    (b.levels aggressor.side.opposite).sorted (sweepStart b aggressor) hle
  unfold sweepStart at heq
  simp only [sweep, heq]

/-! ## Fill or kill -/

theorem matchFok_enough {b : OrderBook} {amb : Ambient} {o : Order} (ht : o.type = .fok)
    (hav : o.quantity ≤ b.availableQuantityAtOrBetter o) :
    b.matchIncoming amb o = ((b.sweep amb o (fun _ => true)).1.fills,
      (b.sweep amb o (fun _ => true)).2) := by
  rw [matchIncoming, ht]
  dsimp only [matchFok]
  rw [if_neg (by omega), matchMarket]

theorem matchFok_short {b : OrderBook} {amb : Ambient} {o : Order} (ht : o.type = .fok)
    (hav : b.availableQuantityAtOrBetter o < o.quantity) :
    b.matchIncoming amb o = ([], b) := by
  rw [matchIncoming, ht]
  dsimp only [matchFok]
  rw [if_pos hav]

/-- What a fill-or-kill order does where it fills. -/
theorem fok_fills {b : OrderBook} (h : RepInv b) (amb : Ambient) {o : Order} (hc : o.Created)
    (ht : o.type = .fok) (hq : 0 < o.quantity)
    (hav : o.quantity ≤ b.availableQuantityAtOrBetter o) :
    filled (b.matchIncoming amb o).1 = o.quantity
      ∧ (∀ f ∈ (b.matchIncoming amb o).1, o.price = 0 ∨ NoWorse o f.trade.price)
      ∧ (o.price ≠ 0 →
          b.matchIncoming amb o = b.matchIncoming amb (withType o .limit)) := by
  have hle : o.remainingQuantity
      ≤ crossing (crossesOrAny o) (b.resting o.side.opposite) := by
    have hcount := available_le h o
    rw [hc.remainingQuantity_eq]
    omega
  have hsweep := sweep_unlimited h amb (crossMono_orAny o) hle
  have hdone : ¬ 0 < (b.sweep amb o (crossesOrAny o)).1.remainingQty :=
    fun hrem => absurd ((sweep_remainder_iff h.side amb (crossMono_orAny o)).mp hrem) (by omega)
  refine ⟨?_, ?_, ?_⟩
  · have htotal := sweep_filled h amb o (crossesOrAny o)
    rw [hc.remainingQuantity_eq] at htotal
    rw [matchFok_enough ht hav, hsweep]
    dsimp only
    omega
  · intro f hf
    by_cases hp : o.price = 0
    · exact Or.inl hp
    · exact Or.inr (match_noWorse h amb hc (Or.inr (Or.inr ⟨ht, hp⟩)) f hf)
  · intro hp
    -- with a price, counting and limit use the same test
    have htest : crossesOrAny o = crossesLimit o := by
      funext p
      simp [crossesOrAny, hp]
    rw [matchFok_enough ht hav, hsweep, htest]
    rw [htest] at hdone
    rcases matchLimit_withType_cases b amb o with ⟨-, heq⟩ | ⟨hrem, -⟩
    · exact heq.symm
    · exact absurd hrem hdone

/--
**Fill or kill is all or nothing.** On every reachable book whose opposite side fits in an
`int64_t`: with at least the quantity of the order at or better than its price (anywhere,
if it has none) it executes for exactly that quantity, never outside its limit, and with a
price just as the same limit order would, book included; with less, nothing changes.
-/
theorem fok_all_or_nothing (symbol : String) {ops : List BookOp} (h : DistinctIds ops)
    (amb : Ambient) {o : Order} (hc : o.Created) (ht : o.type = .fok) (hq : 0 < o.quantity)
    (hfits : (((bookAfter symbol ops).resting o.side.opposite).map
      Order.remainingQuantity).sum < 9223372036854775808) :
    (o.quantity ≤ crossing (crossesOrAny o) ((bookAfter symbol ops).resting o.side.opposite) →
        filled ((bookAfter symbol ops).matchIncoming amb o).1 = o.quantity
          ∧ (∀ f ∈ ((bookAfter symbol ops).matchIncoming amb o).1,
              o.price = 0 ∨ NoWorse o f.trade.price)
          ∧ (o.price ≠ 0 → (bookAfter symbol ops).matchIncoming amb o
              = (bookAfter symbol ops).matchIncoming amb (withType o .limit)))
      ∧ (crossing (crossesOrAny o) ((bookAfter symbol ops).resting o.side.opposite) < o.quantity →
          (bookAfter symbol ops).matchIncoming amb o = ([], bookAfter symbol ops)) := by
  have hrep := (runInv_reachable symbol h).rep
  rw [← available_eq hrep o hfits]
  exact ⟨fok_fills hrep amb hc ht hq, matchFok_short ht⟩

/-- Two asks of 5 within the limit: an order for 10 uses up the last crossing level
exactly, and one for 11 does nothing. -/
theorem fok_all_or_nothing_exact :
    (((bookAfter "AAPL" (fokRun.take 2)).matchIncoming still
        (Order.create "f" 0 "F" "AAPL" .buy .fok 105 0 10)).1.map
          (fun f => (f.trade.price, f.trade.quantity)) = [(100, 5), (105, 5)]
      ∧ filled ((bookAfter "AAPL" (fokRun.take 2)).matchIncoming still
          (Order.create "f" 0 "F" "AAPL" .buy .fok 105 0 10)).1 = 10)
    ∧ (bookAfter "AAPL" (fokRun.take 2)).matchIncoming still
        (Order.create "f" 0 "F" "AAPL" .buy .fok 105 0 11)
      = ([], bookAfter "AAPL" (fokRun.take 2)) := by
  have hd : DistinctIds (fokRun.take 2) := by decide
  have hten := fok_all_or_nothing "AAPL" hd still
    (Order.created_create "f" 0 "F" "AAPL" .buy .fok 105 0 10) rfl (by decide) (by decide)
  have heleven := fok_all_or_nothing "AAPL" hd still
    (Order.created_create "f" 0 "F" "AAPL" .buy .fok 105 0 11) rfl (by decide) (by decide)
  exact ⟨⟨by decide, (hten.1 (by decide)).1⟩, heleven.2 (by decide)⟩

/-! ## Immediate or cancel -/

/-- Taking an order out of the level it was just appended to leaves the side as it was. -/
theorem without_pushBack {s : OrderSide} {m : OrdMap Int (List Order) (better s)}
    (h : SideOk s m.entries) {order : Order}
    (hid : ∀ x ∈ Levels.orders m.entries, x.orderId ≠ order.orderId) :
    without (pushBack m order).entries order.orderId = m.entries := by
  obtain ⟨l₁, queue, l₂, h₁, h₂, -, hcut, hpush⟩ := pushBack_cut h order
  rw [hcut, orders_append, orders_collapse] at hid
  have hid₁ : ∀ x ∈ Levels.orders l₁, x.orderId ≠ order.orderId :=
    fun x hx => hid x (List.mem_append_left _ hx)
  have hidq : ∀ x ∈ queue, x.orderId ≠ order.orderId :=
    fun x hx => hid x (List.mem_append_right _ (List.mem_append_left _ hx))
  have hid₂ : ∀ x ∈ Levels.orders l₂, x.orderId ≠ order.orderId :=
    fun x hx => hid x (List.mem_append_right _ (List.mem_append_right _ hx))
  have hqueue : (queue ++ [order]).filter (fun o => o.orderId ≠ order.orderId) = queue := by
    rw [List.filter_append, List.filter_eq_self.mpr (by simpa using hidq)]
    simp
  rw [hpush, hcut, without_append, without_cons, without_eq_self h₁ hid₁,
    without_eq_self h₂ hid₂, hqueue]

theorem orderBook_ext {b b' : OrderBook} (hs : b.symbol = b'.symbol)
    (hl : ∀ s, (b.levels s).entries = (b'.levels s).entries)
    (hi : b.orderIndex = b'.orderIndex) (hp : b.lastTradePrice = b'.lastTradePrice) :
    b = b' := by
  have hbids : b.bids = b'.bids := OrdMap.ext (hl .buy)
  have hasks : b.asks = b'.asks := OrdMap.ext (hl .sell)
  cases b
  cases b'
  subst hs hbids hasks hi hp
  rfl

/-- Removing what was just inserted restores the book, index included. -/
theorem remove_insert {b : OrderBook} (h : RepInv b) {order : Order}
    (hid : NotResting b order.orderId) (hpos : 0 < order.remainingQuantity)
    (hp : order.price ≠ 0) :
    ((b.insertIntoBook order).removeFromBook order.orderId).2 = b := by
  have hrep := repInv_insert h hpos hid
  have hl : (b.insertIntoBook order).orderIndex.lookup order.orderId = some order :=
    Finmap.lookup_insert _
  -- with a price, `removeFromBook` gets past its early returns
  have hr := (removeFromBook_priced hrep hl hp).2
  refine orderBook_ext ?_ ?_ ?_ ?_
  · exact hr.symbol.trans (symbol_setLevels ..)
  · intro s
    rw [hr.levels]
    rcases OrderSide.eq_or_opposite order.side s with rfl | rfl
    · rw [insert_levels_own]
      exact without_pushBack (h.side _) (fun x hx => hid x (mem_allOrders.mpr ⟨_, hx⟩))
    · rw [insert_levels_of_ne _ _ (OrderSide.opposite_ne _)]
      exact without_eq_self (h.side _) (fun x hx => hid x (mem_allOrders.mpr ⟨_, hx⟩))
  · rw [hr.orderIndex]
    refine Finmap.ext_lookup (fun id => ?_)
    by_cases heq : id = order.orderId
    · subst heq
      rw [Finmap.lookup_erase, h.index.lookup_eq_none hid]
    · rw [Finmap.lookup_erase_ne heq]
      exact Finmap.lookup_insert_of_ne _ heq
  · exact hr.lastTradePrice.trans (lastTradePrice_setLevels ..)

section Ioc

variable {b : OrderBook} (h : RepInv b) (amb : Ambient) {o : Order} (ht : o.type = .ioc)
  (hid : NotResting b o.orderId)

theorem matchIoc_eq (b : OrderBook) (amb : Ambient) {o : Order} (ht : o.type = .ioc) :
    b.matchIncoming amb o = ((b.matchLimit amb o).1,
      ((b.matchLimit amb o).2.removeFromBook o.orderId).2) := by
  rw [matchIncoming, ht]
  rfl

include h ht hid

/-- Used up or priced, an immediate-or-cancel order leaves what its sweep leaves. -/
theorem ioc_sweep
    (hout : o.price ≠ 0 ∨ (b.sweep amb o (crossesLimit o)).1.remainingQty ≤ 0) :
    b.matchIncoming amb o
      = ((b.sweep amb o (crossesLimit o)).1.fills, (b.sweep amb o (crossesLimit o)).2) := by
  have hrep := repInv_sweep h amb o (crossesLimit o)
  have hrest := notResting_sweep h hid amb o (crossesLimit o)
  rw [matchIoc_eq b amb ht]
  rcases matchLimit_cases b amb o with ⟨-, heq⟩ | ⟨hrem, heq⟩
  · -- nothing rests, so there is nothing to remove
    rw [heq]
    dsimp only
    rw [removeFromBook, hrep.index.lookup_eq_none hrest]
  · have hp : o.price ≠ 0 := hout.resolve_right (by omega)
    rw [heq]
    have hback : (((b.sweep amb o (crossesLimit o)).2.insertIntoBook
        (remainder b amb o)).removeFromBook o.orderId).2
        = (b.sweep amb o (crossesLimit o)).2 :=
      remove_insert hrep hrest hrem hp
    rw [hback]

end Ioc

/-- What an immediate-or-cancel order is to leave behind, next to the same limit order. -/
structure LeavesNoTrace (b : OrderBook) (amb : Ambient) (o : Order) : Prop where
  fills : (b.matchIncoming amb o).1 = (b.matchIncoming amb (withType o .limit)).1
  opposite : (b.matchIncoming amb o).2.levels o.side.opposite
    = (b.matchIncoming amb (withType o .limit)).2.levels o.side.opposite
  lastTradePrice : (b.matchIncoming amb o).2.lastTradePrice
    = (b.matchIncoming amb (withType o .limit)).2.lastTradePrice
  /-- No queue holds its id, -/
  notResting : NotResting (b.matchIncoming amb o).2 o.orderId
  /-- and no index entry. -/
  notIndexed : ∀ id x, (b.matchIncoming amb o).2.orderIndex.lookup id = some x →
    id ≠ o.orderId ∧ x.orderId ≠ o.orderId
  own : (b.matchIncoming amb o).2.levels o.side = b.levels o.side

/-- What the limit order shares with its sweep: its remainder goes to the other side, and
makes no trade. -/
theorem limit_sweep (b : OrderBook) (amb : Ambient) (o : Order) :
    (b.matchIncoming amb (withType o .limit)).1 = (b.sweep amb o (crossesLimit o)).1.fills
      ∧ (b.matchIncoming amb (withType o .limit)).2.levels o.side.opposite
        = (b.sweep amb o (crossesLimit o)).2.levels o.side.opposite
      ∧ (b.matchIncoming amb (withType o .limit)).2.lastTradePrice
        = (b.sweep amb o (crossesLimit o)).2.lastTradePrice := by
  have hlimit : b.matchIncoming amb (withType o .limit) = b.matchLimit amb (withType o .limit) :=
    rfl
  rcases matchLimit_withType_cases b amb o with ⟨-, hl⟩ | ⟨-, hl⟩
  · rw [hlimit, hl]
    exact ⟨rfl, rfl, rfl⟩
  · rw [hlimit, hl]
    have hside : (withType (remainder b amb o) .limit).side = o.side := rfl
    refine ⟨rfl, ?_, lastTradePrice_setLevels ..⟩
    exact insert_levels_of_ne _ _ (hside ▸ OrderSide.opposite_ne _)

/-- A book left by the sweep alone has no trace of the order. -/
theorem leavesNoTrace_of_sweep {b : OrderBook} (h : RepInv b) (amb : Ambient) {o : Order}
    (hid : NotResting b o.orderId)
    (heq : b.matchIncoming amb o
      = ((b.sweep amb o (crossesLimit o)).1.fills, (b.sweep amb o (crossesLimit o)).2)) :
    LeavesNoTrace b amb o := by
  have hrep := repInv_sweep h amb o (crossesLimit o)
  have hrest := notResting_sweep h hid amb o (crossesLimit o)
  obtain ⟨hfills, hopp, hlast⟩ := limit_sweep b amb o
  refine ⟨?_, ?_, ?_, ?_, ?_, ?_⟩ <;> rw [heq]
  · exact hfills.symm
  · exact hopp.symm
  · exact hlast.symm
  · exact hrest
  · intro id x hl
    obtain ⟨rfl, hmem⟩ := hrep.index.sound id x hl
    exact ⟨hrest x hmem, hrest x hmem⟩
  · exact sweep_levels_own b amb o _

/--
**Immediate or cancel leaves no trace, but for the early return.** On every reachable book
an immediate-or-cancel order with a new id makes the trades of the same limit order, leaves
the other side and the last trade price as that would, nothing under its own id in any queue
or in the index, and its own side as it was, exactly when it has a price or is used up:
`removeFromBook` takes price 0 for the mark of a market order and gives up before it touches
the queue.
-/
theorem ioc_leaves_no_trace_iff (symbol : String) {ops : List BookOp} (h : DistinctIds ops)
    (amb : Ambient) {o : Order} (hc : o.Created) (ht : o.type = .ioc)
    (hid : ∀ x ∈ submitted ops, x.orderId ≠ o.orderId) :
    LeavesNoTrace (bookAfter symbol ops) amb o ↔
      o.price ≠ 0
        ∨ o.quantity ≤ crossing (crossesLimit o) ((bookAfter symbol ops).resting o.side.opposite) := by
  have hinv := runInv_reachable symbol h
  have hfresh := hinv.notResting hid
  have hrem := sweep_remainder_iff hinv.rep.side amb (crossMono_limit o)
  constructor
  · intro htrace
    by_contra hn
    obtain ⟨hp, hlt⟩ := not_or.mp hn
    rw [← hc.remainingQuantity_eq] at hlt
    exact htrace.notResting _ (unpriced_stays hinv.rep amb hfresh
      ⟨Or.inr ht, not_not.mp hp, not_le.mp hlt⟩) rfl
  · intro hout
    refine leavesNoTrace_of_sweep hinv.rep amb hfresh
      (ioc_sweep hinv.rep amb ht hfresh (hout.imp_right (fun hle => ?_)))
    rw [← hc.remainingQuantity_eq] at hle
    omega

/-- A priced order for 8 against an ask of 2: the other 6 rest and are taken out again. -/
theorem ioc_leaves_no_trace_partly :
    (((bookAfter "AAPL" fokRun).matchIncoming still
        (Order.create "i" 0 "I" "AAPL" .buy .ioc 105 0 8)).1.map
          (fun f => (f.trade.price, f.trade.quantity)) = [(105, 2)])
      ∧ LeavesNoTrace (bookAfter "AAPL" fokRun) still
          (Order.create "i" 0 "I" "AAPL" .buy .ioc 105 0 8) := by
  have hd : DistinctIds fokRun := by decide
  have hid : ∀ x ∈ submitted fokRun, x.orderId ≠ "i" := by decide
  have hiff := ioc_leaves_no_trace_iff "AAPL" hd still
    (Order.created_create "i" 0 "I" "AAPL" .buy .ioc 105 0 8) rfl hid
  exact ⟨by decide, hiff.mpr (Or.inl (by decide))⟩

/-- The client sent no price: the order for 5 stays in its queue, on the side that was empty,
where no cancel finds it. -/
theorem unpriced_ioc_rests :
    ((bookAfter "AAPL" []).resting .buy = []
      ∧ (((bookAfter "AAPL" []).matchIncoming still
          (Order.create "i" 0 "I" "AAPL" .buy .ioc 0 0 5)).2.resting .buy).map
            (fun x => (x.orderId, x.remainingQuantity)) = [("i", 5)])
      ∧ ¬ LeavesNoTrace (bookAfter "AAPL" []) still
          (Order.create "i" 0 "I" "AAPL" .buy .ioc 0 0 5) := by
  refine ⟨⟨by decide, by decide⟩, fun htrace => ?_⟩
  have hrest : ∃ x ∈ allOrders ((bookAfter "AAPL" []).matchIncoming still
      (Order.create "i" 0 "I" "AAPL" .buy .ioc 0 0 5)).2, x.orderId = "i" := by decide
  obtain ⟨x, hx, hxid⟩ := hrest
  exact htrace.notResting x hx hxid

end TitanX.Proof
