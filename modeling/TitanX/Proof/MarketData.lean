import TitanX.Model.MarketData
import TitanX.Proof.JavaRefine
import TitanX.Proof.Linear
import TitanX.Proof.Splitting

/-!
# Market data tells the truth

A snapshot is taken under the lock of its symbol, so it shows the book between two calls on
it. Under every interleaving it lists the best levels of each side in order of price, bids
below asks, and of each level the number of its orders and what is left of them
(`snapshot_truthful`). What is not listed is worse than everything that is.

The route in front of it answers with an error for every book in which nothing has been
traded yet (`orderbook_needs_a_trade`).
-/

namespace TitanX.Proof

open TitanX OrderBook MatchingEngine

/-! ## The loop over the levels -/

theorem snapshotSide_eq (depth : Int) (ls : Levels) :
    ∀ count, snapshotSide depth count ls = (ls.take (depth - count).toNat).map priceLevel := by
  induction ls with
  | nil => intro count; rw [List.take_nil]; rfl
  | cons l ls ih =>
      intro count
      unfold snapshotSide
      split
      · rename_i hge
        rw [Int.toNat_of_nonpos (by omega), List.take_zero]; rfl
      · rename_i hlt
        have hsucc : (depth - count).toNat = (depth - (count + 1)).toNat + 1 := by omega
        rw [hsucc, List.take_succ_cons, List.map_cons, ih]

theorem side_snapshot (b : OrderBook) (depth : Int) (s : OrderSide) :
    (b.snapshot depth).side s = ((b.levels s).entries.take depth.toNat).map priceLevel := by
  cases s
  · exact (snapshotSide_eq depth _ 0).trans (by rw [Int.sub_zero]; rfl)
  · exact (snapshotSide_eq depth _ 0).trans (by rw [Int.sub_zero]; rfl)

theorem levelQuantity_eq (queue : List Order) :
    levelQuantity queue = wrap64 (queue.map Order.remainingQuantity).sum := by
  have hfold : ∀ (queue : List Order) (total : Int),
      queue.foldl (fun qty o => wrap64 (qty + o.remainingQuantity)) (wrap64 total)
        = wrap64 (total + (queue.map Order.remainingQuantity).sum) := by
    intro queue
    induction queue with
    | nil => intro total; rw [List.map_nil, List.sum_nil, Int.add_zero]; rfl
    | cons o queue ih =>
        intro total
        rw [List.foldl_cons, wrap64_add_wrap64, ih, List.map_cons, List.sum_cons, Int.add_assoc]
  have h := hfold queue 0
  rw [Int.zero_add] at h
  exact h

theorem price_priceLevel (l : Int × List Order) : (priceLevel l).price = l.1 := rfl

theorem orderCount_priceLevel (l : Int × List Order) :
    (priceLevel l).orderCount = wrap32 l.2.length := by rw [priceLevel]

theorem totalQuantity_priceLevel (l : Int × List Order) :
    (priceLevel l).totalQuantity = levelQuantity l.2 := by rw [priceLevel]

/-- The orders at the price of a level are those in its queue. -/
theorem orders_at_level {s : OrderSide} {ls : Levels} (h : SideOk s ls)
    (hsorted : ls.Pairwise (fun a b => better s a.1 b.1)) {l : Int × List Order} (hl : l ∈ ls) :
    (Levels.orders ls).filter (fun x => x.price = l.1) = l.2 := by
  induction ls with
  | nil => exact absurd hl List.not_mem_nil
  | cons first ls ih =>
      rcases List.mem_cons.mp hl with rfl | hl
      · exact (orders_level h hsorted).1
      · -- the first level has another price
        have hbetter := (List.pairwise_cons.mp hsorted).1 l hl
        have hnone : first.2.filter (fun x => decide (x.price = l.1)) = [] := by
          refine List.filter_eq_nil_iff.mpr (fun x hx => ?_)
          rw [decide_eq_true_iff, (h.keyed first (List.mem_cons_self ..) x hx).2]
          intro heq
          rw [heq] at hbetter
          exact irrefl_of (better s) l.1 hbetter
        have hrest : SideOk s ls :=
          ⟨fun l' hl' => h.nonempty l' (List.mem_cons_of_mem _ hl'),
            fun l' hl' => h.keyed l' (List.mem_cons_of_mem _ hl'),
            fun o ho => h.positive o (List.mem_append_right _ ho)⟩
        have hcons : Levels.orders (first :: ls) = first.2 ++ Levels.orders ls := rfl
        rw [hcons, List.filter_append, hnone, List.nil_append]
        exact ih hrest (List.pairwise_cons.mp hsorted).2 hl

/-! ## Snapshots of reachable books -/

/-- The orders of a side at one price. -/
def atPrice (b : OrderBook) (s : OrderSide) (p : Int) : List Order :=
  (b.resting s).filter (fun x => x.price = p)

/-- What a level of a snapshot says of side `s` of the book. -/
structure Shows (b : OrderBook) (s : OrderSide) (l : PriceLevel) : Prop where
  some : atPrice b s l.price ≠ []
  orderCount : l.orderCount = wrap32 (atPrice b s l.price).length
  totalQuantity : l.totalQuantity = wrap64 ((atPrice b s l.price).map Order.remainingQuantity).sum

/-- A snapshot of `b`: the best levels in order, and of every order either its level or as
many better levels as were asked for. -/
structure TruthfulSide (b : OrderBook) (s : OrderSide) (depth : Int) (levels : List PriceLevel) :
    Prop where
  sorted : levels.Pairwise (fun l l' => better s l.price l'.price)
  shows : ∀ l ∈ levels, Shows b s l
  complete : ∀ o ∈ b.resting s, (∃ l ∈ levels, l.price = o.price)
    ∨ (levels.length = depth.toNat ∧ ∀ l ∈ levels, better s l.price o.price)

theorem truthfulSide {b : OrderBook} (h : RepInv b) (s : OrderSide) (depth : Int) :
    TruthfulSide b s depth ((b.snapshot depth).side s) := by
  have hsorted := (b.levels s).sorted
  have hside := h.side s
  rw [side_snapshot]
  refine ⟨?_, fun l hl => ?_, fun o ho => ?_⟩
  · exact List.pairwise_map.mpr (hsorted.sublist (List.take_sublist ..))
  · obtain ⟨e, he, rfl⟩ := List.mem_map.mp hl
    have hmem : e ∈ (b.levels s).entries := List.mem_of_mem_take he
    have hqueue : atPrice b s e.1 = e.2 := orders_at_level hside hsorted hmem
    have hne := hside.nonempty e hmem
    refine ⟨?_, ?_, ?_⟩
    · exact hqueue ▸ hne
    · rw [price_priceLevel, hqueue, orderCount_priceLevel]
    · rw [price_priceLevel, hqueue, totalQuantity_priceLevel, levelQuantity_eq]
  · obtain ⟨-, e, he, hprice⟩ := hside.mem ho
    rw [← List.take_append_drop depth.toNat (b.levels s).entries] at he hsorted
    rcases List.mem_append.mp he with htaken | hdropped
    · exact Or.inl ⟨priceLevel e, List.mem_map_of_mem htaken, hprice⟩
    · refine Or.inr ⟨?_, fun l hl => ?_⟩
      · -- something was dropped, so the count reached the depth
        have hlen : depth.toNat < (b.levels s).entries.length := by
          by_contra hge
          rw [List.drop_eq_nil_of_le (by omega)] at hdropped
          exact absurd hdropped List.not_mem_nil
        rw [List.length_map, List.length_take]
        omega
      · obtain ⟨e', he', rfl⟩ := List.mem_map.mp hl
        have hbetter := (List.pairwise_append.mp hsorted).2.2 e' he' e hdropped
        rw [← hprice]; exact hbetter

theorem getSnapshot_eq_some {e : MatchingEngine} {symbol : String} {depth : Int}
    {snap : OrderBookSnapshot} :
    e.getSnapshot symbol depth = some snap
      ↔ (symbol ∈ e.books ∧ symbol ∈ e.locks) ∧ (e.bookOf symbol).snapshot depth = snap := by
  unfold MatchingEngine.getSnapshot
  cases hl : e.books.lookup symbol with
  | none =>
      have hnot : symbol ∉ e.books := fun hmem => by
        rw [← Finmap.lookup_isSome, hl] at hmem
        cases hmem
      simp [hnot]
  | some b =>
      have hmem : symbol ∈ e.books := Finmap.lookup_isSome.mp (by rw [hl]; rfl)
      dsimp only
      rw [bookOf_of_lookup hl]
      by_cases hlock : symbol ∈ e.locks
      · rw [if_pos hlock]
        simp [hmem, hlock]
      · rw [if_neg hlock]
        simp [hlock]

/--
**Market data tells the truth.** Under every interleaving, a snapshot lists the best levels
of each side of its book in order of price, with the number and the quantity of the orders
at that price; an order whose level is not listed is worse than `depth` levels that are. No
listed bid reaches a listed ask.
-/
theorem snapshot_truthful (actions : List Action) (symbol : String) (depth : Int)
    (snap : OrderBookSnapshot)
    (h : (exchangeAfter actions).engine.getSnapshot symbol depth = some snap) :
    (∀ s, TruthfulSide ((exchangeAfter actions).engine.bookOf symbol) s depth (snap.side s))
      ∧ ∀ bid ∈ snap.bids, ∀ ask ∈ snap.asks, bid.price < ask.price := by
  obtain ⟨-, rfl⟩ := getSnapshot_eq_some.mp h
  have hd := distinctIds_linearized actions symbol
  rw [bookOf_linearized]
  have hrep := (runInv_reachable symbol hd).rep
  refine ⟨fun s => truthfulSide hrep s depth, fun bid hbid ask hask => ?_⟩
  -- there is an order at each of the two prices
  obtain ⟨x, hx⟩ := List.exists_mem_of_ne_nil _ ((truthfulSide hrep .buy depth).shows bid hbid).some
  obtain ⟨y, hy⟩ := List.exists_mem_of_ne_nil _ ((truthfulSide hrep .sell depth).shows ask hask).some
  obtain ⟨hxr, hxp⟩ := List.mem_filter.mp hx
  obtain ⟨hyr, hyp⟩ := List.mem_filter.mp hy
  have hxs : x.side = .buy := ((hrep.side .buy).mem hxr).1
  have hys : y.side = .sell := ((hrep.side .sell).mem hyr).1
  have hbetter := uncrossed_reachable symbol hd x (mem_allOrders.mpr ⟨_, hxr⟩) y
    (mem_allOrders.mpr ⟨_, hyr⟩) (by rw [hxs, hys]; rfl)
  rw [hxs] at hbetter
  rw [← of_decide_eq_true hxp, ← of_decide_eq_true hyp]
  exact hbetter

/-- What `overtakingCalls` come to before the cancel. -/
theorem snapshot_truthful_overtaking :
    (exchangeAfter overtakingCalls.dropLast).engine.getSnapshot "AAPL" 10
        = some ⟨"AAPL", [], [⟨100, 3, 1⟩], some 100⟩
      ∧ Shows ((exchangeAfter overtakingCalls.dropLast).engine.bookOf "AAPL") .sell ⟨100, 3, 1⟩ :=
  have hsnap : (exchangeAfter overtakingCalls.dropLast).engine.getSnapshot "AAPL" 10
      = some ⟨"AAPL", [], [⟨100, 3, 1⟩], some 100⟩ := by decide +kernel
  ⟨hsnap, ((snapshot_truthful overtakingCalls.dropLast "AAPL" 10 _ hsnap).1 .sell).shows _
    (List.mem_singleton.mpr rfl)⟩

/-! ## The route -/

/-- The symbol has a book and a lock. -/
def Known (e : MatchingEngine) (symbol : String) : Prop := symbol ∈ e.books ∧ symbol ∈ e.locks

theorem getSnapshot_eq_none {e : MatchingEngine} {symbol : String} {depth : Int} :
    e.getSnapshot symbol depth = none ↔ ¬ Known e symbol := by
  rw [Option.eq_none_iff_forall_ne_some]
  constructor
  · intro h hk
    exact h _ (getSnapshot_eq_some.mpr ⟨hk, rfl⟩)
  · intro hk snap h
    exact hk (getSnapshot_eq_some.mp h).1

theorem lastPrice_eq_none {trades : List Trade} : lastPrice none trades = none ↔ trades = [] := by
  rw [lastPrice, Option.or_none, Option.map_eq_none_iff, List.getLast?_eq_none_iff]

/-- The three answers, by what the engine has on the symbol. -/
theorem getOrderBook_cases (e : MatchingEngine) (symbol : String) (depthParam : Option String) :
    (¬ Known e (toUpper symbol)
        ∧ HttpServer.getOrderBook e symbol depthParam = .symbolNotFound symbol)
      ∨ (Known e (toUpper symbol) ∧ (e.bookOf (toUpper symbol)).lastTradePrice = none
        ∧ HttpServer.getOrderBook e symbol depthParam = .serverError)
      ∨ (Known e (toUpper symbol) ∧ (e.bookOf (toUpper symbol)).lastTradePrice ≠ none
        ∧ ∃ view, HttpServer.getOrderBook e symbol depthParam = .book view) := by
  unfold HttpServer.getOrderBook
  cases hsnap : e.getSnapshot (toUpper symbol) (HttpServer.depthOf depthParam) with
  | none => exact Or.inl ⟨getSnapshot_eq_none.mp hsnap, rfl⟩
  | some snap =>
      obtain ⟨hk, rfl⟩ := getSnapshot_eq_some.mp hsnap
      dsimp only
      cases hlast : (e.bookOf (toUpper symbol)).lastTradePrice with
      | none =>
          have hjson : ((e.bookOf (toUpper symbol)).snapshot
              (HttpServer.depthOf depthParam)).toJson = none := by
            rw [OrderBookSnapshot.toJson, OrderBook.snapshot, hlast]; rfl
          rw [hjson]
          exact Or.inr (Or.inl ⟨hk, rfl, rfl⟩)
      | some p =>
          have hjson : ∃ view, ((e.bookOf (toUpper symbol)).snapshot
              (HttpServer.depthOf depthParam)).toJson = some view := by
            rw [OrderBookSnapshot.toJson, OrderBook.snapshot, hlast]; exact ⟨_, rfl⟩
          obtain ⟨view, hview⟩ := hjson
          rw [hview]
          exact Or.inr (Or.inr ⟨hk, Option.some_ne_none _, view, rfl⟩)

/--
**The book of a symbol can be asked for once something was traded in it, and not before.**
Under every interleaving the route answers 404 as long as no order of the symbol has got its
book and its lock, 500 from then on until the first trade, and with the book from then on.
-/
theorem orderbook_needs_a_trade (actions : List Action) (symbol : String)
    (depthParam : Option String) :
    (HttpServer.getOrderBook (exchangeAfter actions).engine symbol depthParam
          = .symbolNotFound symbol
        ↔ ¬ Known (exchangeAfter actions).engine (toUpper symbol))
      ∧ (HttpServer.getOrderBook (exchangeAfter actions).engine symbol depthParam = .serverError
        ↔ Known (exchangeAfter actions).engine (toUpper symbol)
          ∧ executions (toUpper symbol) (exchangeAfter actions).log = [])
      ∧ ((∃ view, HttpServer.getOrderBook (exchangeAfter actions).engine symbol depthParam
          = .book view)
        ↔ Known (exchangeAfter actions).engine (toUpper symbol)
          ∧ executions (toUpper symbol) (exchangeAfter actions).log ≠ []) := by
  have hlast := (pricesInv_reachable actions).book (toUpper symbol)
  have htraded : ((exchangeAfter actions).engine.bookOf (toUpper symbol)).lastTradePrice = none
      ↔ executions (toUpper symbol) (exchangeAfter actions).log = [] := by
    rw [hlast]; exact lastPrice_eq_none
  rcases getOrderBook_cases (exchangeAfter actions).engine symbol depthParam with
    ⟨hk, heq⟩ | ⟨hk, hl, heq⟩ | ⟨hk, hl, view, heq⟩
  · simp [heq, hk]
  · simp [heq, hk, htraded.mp hl]
  · have hne : executions (toUpper symbol) (exchangeAfter actions).log ≠ [] :=
      fun h => hl (htraded.mpr h)
    simp [heq, hk, hne]

/-! ## The Java reference -/

section Java

variable {Q : Type} [PriorityQueue Q Java.Order]

/-- A level with its price as a decimal. -/
def PriceLevel.inJava (l : PriceLevel) : Java.PriceLevel :=
  ⟨decimal l.price, l.totalQuantity, l.orderCount⟩

theorem priceLevel_sim {l : Int × List Order} {l' : Java.BigDecimal × Q}
    (hp : l'.1 = decimal l.1) (hq : QueueSim l.2 l'.2) :
    Java.OrderBook.priceLevel l' = PriceLevel.inJava (priceLevel l) := by
  have hlen := hq.length
  obtain ⟨js, hperm, hjs, -⟩ := hq
  unfold Java.OrderBook.priceLevel PriceLevel.inJava priceLevel levelQuantity
  rw [hp, hlen, hperm.foldl_eq, sum_sim hjs]

/-- Related sides of two books show the same levels. -/
theorem snapshotSide_sim (depth : Int) {ls : Levels} {ls' : List (Java.BigDecimal × Q)}
    (h : OrdMap.Related decimal QueueSim ls ls') :
    ∀ count, Java.OrderBook.snapshotSide depth count ls'
      = (snapshotSide depth count ls).map PriceLevel.inJava := by
  induction h with
  | nil => exact fun _ => rfl
  | cons hl _ ih =>
      intro count
      unfold Java.OrderBook.snapshotSide snapshotSide
      split
      · rfl
      · rw [priceLevel_sim hl.1 hl.2, ih, List.map_cons]

variable (Q) in
/--
**Both books publish the same market data.** After an orderly run made on both, a snapshot of
the Java book has the levels of the C++ one: the same prices, quantities and counts in the
same order, whatever the order in which the Java queues are iterated.
-/
theorem java_snapshot_agrees [LawfulPriorityQueue Q Java.Order.createdAt] (symbol : String)
    {ops : List BookOp} {ops' : List Java.BookOp} (h : OrderlyRun ops)
    (hops : List.Forall₂ OpSim ops ops') (depth : Int) :
    (javaAfter Q symbol ops').snapshot depth
      = ⟨((bookAfter symbol ops).snapshot depth).bids.map PriceLevel.inJava,
        ((bookAfter symbol ops).snapshot depth).asks.map PriceLevel.inJava,
        ((bookAfter symbol ops).snapshot depth).lastTradePrice.map decimal⟩ := by
  have hbook := (java_simulation Q symbol h hops).1
  have hbids := snapshotSide_sim depth (hbook.levels .buy) 0
  have hasks := snapshotSide_sim depth (hbook.levels .sell) 0
  have hlast := hbook.lastTradePrice
  unfold Java.OrderBook.snapshot
  congr 1

/-- Two sells at one price, the first of which is filled in part; the second is cancelled. -/
def sharedLevelRun : List BookOp :=
  [.matchIncoming still (Order.create "s" 0 "A" "AAPL" .sell .limit 100 0 10),
    .matchIncoming still (Order.create "r" 1 "A" "AAPL" .sell .limit 100 0 5),
    .matchIncoming still (Order.create "b" 2 "B" "AAPL" .buy .ioc 100 0 3),
    .removeFromBook "r"]

/-- The same calls on the Java book. -/
def sharedLevelRunJava : List Java.BookOp :=
  [.matchIncoming still (inJava (Order.create "s" 0 "A" "AAPL" .sell .limit 100 0 10) 7),
    .matchIncoming still (inJava (Order.create "r" 1 "A" "AAPL" .sell .limit 100 0 5) 8),
    .matchIncoming still (inJava (Order.create "b" 2 "B" "AAPL" .buy .ioc 100 0 3) 9),
    .removeFromBook "r"]

theorem java_snapshot_agrees_sharedLevel :
    ((bookAfter "AAPL" sharedLevelRun).snapshot 5).asks = [⟨100, 7, 1⟩]
      ∧ ((javaAfter (ListQueue Java.Order.createdAt) "AAPL" sharedLevelRunJava).snapshot 5).asks
        = ((bookAfter "AAPL" sharedLevelRun).snapshot 5).asks.map PriceLevel.inJava :=
  ⟨by decide, congrArg Java.OrderBookSnapshot.asks
    (java_snapshot_agrees (ListQueue Java.Order.createdAt) "AAPL"
      ⟨by decide, by decide, by decide⟩
      (.cons (.matchIncoming _ _ ⟨7, rfl⟩) (.cons (.matchIncoming _ _ ⟨8, rfl⟩)
        (.cons (.matchIncoming _ _ ⟨9, rfl⟩) (.cons (.removeFromBook "r") .nil)))) 5)⟩

end Java

end TitanX.Proof
