import TitanX.Proof.Cascade
import TitanX.Proof.Events
import TitanX.Proof.Window
import TitanX.Proof.Breaker

/-!
# The trades that are reported

`submit` hands the trades of its order to the fill consumer, one by one, and emits an event for
each. Two things come between a trade and its report. The fill consumer tells the circuit breaker
of every price, and a price that trips the breaker is the last one the loop gets to. And the stop
orders that the call activates are matched when the loop is over: what they trade is seen by
nobody.

Both can be told from the state before the call (`ReportsAll`): the prices the order trades at
are read off the depth of the book, the windows of the breaker move on with them by the clock
alone, and the stop orders trade nothing if none of them meets an offer that the order leaves or
one of its own kind. `trades_reported_iff` is the exact account.
-/

namespace TitanX.Proof

open TitanX MatchingEngine

/-! ## What a call reports -/

/-- The trades that the fill events of a call carry. -/
def fillEventTrades (events : List OrderEvent) : List Trade :=
  (events.filter (fun event => event.type = .orderFilled)).filterMap OrderEvent.trade

/-- Every trade executed in the book was passed to the fill consumer once, and is carried by
one fill event; and no other trade was. -/
structure Reported (s : Submitted) : Prop where
  consumed : s.consumed.Perm (s.executed.map Fill.trade)
  events : (fillEventTrades s.events).Perm (s.executed.map Fill.trade)

/-- What the stop orders trade that a call activates. -/
def stopFills (e : MatchingEngine) (env : SubmitEnv) (o : Order) : List Fill :=
  if fillsFor e env o = [] then [] else ((afterMatch e env o).checkStopTriggers env o.symbol).1

theorem fillEventTrades_filled (o : Order) (fills : List Fill) :
    fillEventTrades (fills.map (fun f => OrderEvent.filled o f.trade)) = fills.map Fill.trade := by
  induction fills with
  | nil => rfl
  | cons f fills ih => exact congrArg (List.cons f.trade) ih

theorem fillEventTrades_append (events events' : List OrderEvent) :
    fillEventTrades (events ++ events') = fillEventTrades events ++ fillEventTrades events' := by
  unfold fillEventTrades
  rw [List.filter_append, List.filterMap_append]

/-- Before and after the fill events of a call stand events that carry no trade. -/
theorem fillEventTrades_call (o : Order) (fills : List Fill) (rests : Prop) [Decidable rests] :
    fillEventTrades (OrderEvent.received o :: fills.map (fun f => OrderEvent.filled o f.trade)
        ++ (if rests then [OrderEvent.resting o] else []))
      = fills.map Fill.trade := by
  have hlast : fillEventTrades (if rests then [OrderEvent.resting o] else []) = [] := by
    split <;> rfl
  rw [fillEventTrades_append, hlast, List.append_nil]
  exact fillEventTrades_filled o fills

/-- The loop over the fills of a call hands over all of them, or gets stuck and reports fewer. -/
theorem deliver_reports (clock : Nat → Int) (o : Order) :
    ∀ (fills : List Fill) (n : Nat) (r : RiskEngine),
      ((deliver clock o n fills r).completed = true
        ∧ (deliver clock o n fills r).consumed = fills.map Fill.trade
        ∧ (deliver clock o n fills r).events = fills.map (fun f => OrderEvent.filled o f.trade))
      ∨ ((deliver clock o n fills r).completed = false
        ∧ (deliver clock o n fills r).events.length < fills.length)
  | [], _, _ => .inl ⟨rfl, rfl, rfl⟩
  | f :: fills, n, r => by
      rw [deliver]
      cases fillConsumer r (clock n) f.trade with
      | blocked r' => exact .inr ⟨rfl, Nat.succ_pos _⟩
      | returned _ r' =>
          rcases deliver_reports clock o fills (n + 1) r' with
            ⟨hdone, hconsumed, hevents⟩ | ⟨hstuck, hevents⟩
          · left
            dsimp only
            exact ⟨hdone, by rw [hconsumed]; rfl, by rw [hevents]; rfl⟩
          · right
            dsimp only
            exact ⟨hstuck, Nat.succ_lt_succ hevents⟩

/-- **What an admitted order does and what is said of it**, stop orders included. -/
theorem process_report (e : MatchingEngine) (env : SubmitEnv) (o : Order) :
    ((e.process env o).2.completed = true
        ∧ (e.process env o).2.executed = fillsFor e env o ++ stopFills e env o
        ∧ (e.process env o).2.consumed = (fillsFor e env o).map Fill.trade
        ∧ fillEventTrades (e.process env o).2.events = (fillsFor e env o).map Fill.trade)
      ∨ ((e.process env o).2.completed = false
        ∧ (e.process env o).2.executed = fillsFor e env o
        ∧ (fillEventTrades (e.process env o).2.events).length < (fillsFor e env o).length) := by
  rw [process_eq_settle, matched_eq]
  dsimp only
  rw [← fillsFor]
  unfold settle
  dsimp only
  rcases deliver_reports env.clock o (fillsFor e env o) 0 e.riskEngine with
    ⟨hdone, hconsumed, hevents⟩ | ⟨hstuck, hevents⟩
  · left
    rw [if_pos hdone]
    refine ⟨rfl, ?_, hconsumed, ?_⟩
    · dsimp only
      unfold stopFills
      by_cases hnil : fillsFor e env o = []
      · rw [if_pos hnil, hnil]
        rfl
      · rw [if_neg hnil, if_neg (by simpa using hnil)]
        rfl
    · dsimp only
      rw [hevents, fillEventTrades_call]
  · right
    rw [if_neg (by rw [hstuck]; decide)]
    refine ⟨rfl, rfl, ?_⟩
    -- the event of the order itself carries no trade
    refine Nat.lt_of_le_of_lt ?_ hevents
    change (fillEventTrades (deliver env.clock o 0 (fillsFor e env o) e.riskEngine).events).length ≤ _
    unfold fillEventTrades
    exact (List.length_filterMap_le _ _).trans (List.length_filter_le _ _)

/-! ## The loop over the fills -/

/-- The trade that opened the window of a symbol. -/
def openerOf (cb : CircuitBreaker) (symbol : String) : Option Tick :=
  match cb.referencePrice.lookup symbol, cb.windowStart.lookup symbol with
  | some price, some now => some ⟨now, price⟩
  | _, _ => none

theorem windowIs_openerOf (cb : CircuitBreaker) (symbol : String) :
    WindowIs cb symbol (openerOf cb symbol) := by
  unfold openerOf
  cases hr : cb.referencePrice.lookup symbol with
  | none => exact Or.inl hr
  | some price =>
      cases hs : cb.windowStart.lookup symbol with
      | none => exact Or.inr hs
      | some now => exact ⟨hr, hs⟩

/-- The trade comes less than 61 seconds after the opener of the window, and is above the
threshold by its price. -/
def TripsWindow (opener : Option Tick) (t : Tick) : Prop :=
  ∃ w, opener = some w ∧ t.now - w.now < 61000000000 ∧ AboveThreshold w.price t.price

instance (opener : Option Tick) (t : Tick) : Decidable (TripsWindow opener t) :=
  match opener with
  | none => isFalse (fun ⟨_, h, _⟩ => by cases h)
  | some w =>
      decidable_of_iff (t.now - w.now < 61000000000 ∧ AboveThreshold w.price t.price)
        ⟨fun h => ⟨w, rfl, h⟩, fun ⟨_, h, h'⟩ => by cases h; exact h'⟩

/-- No trade of the sequence trips the window it finds. -/
def Untripped (opener : Option Tick) (ts : List Tick) : Prop :=
  ∀ v ∈ trace tumbling opener ts, ¬ TripsWindow v.before v.input

instance (opener : Option Tick) (ts : List Tick) : Decidable (Untripped opener ts) :=
  inferInstanceAs (Decidable (∀ v ∈ trace tumbling opener ts, _))

/-- Trades at the prices `prices`; `n` counts them. -/
def ticks (clock : Nat → Int) : Nat → List Int → List Tick
  | _, [] => []
  | n, p :: ps => ⟨clock n, p⟩ :: ticks clock (n + 1) ps

theorem trips_iff_window {cb : CircuitBreaker} {symbol : String} {opener : Option Tick}
    (h : WindowIs cb symbol opener) (t : Tick) :
    Trips cb (.recordTrade t.now symbol t.price) ↔ TripsWindow opener t := by
  cases opener with
  | none =>
      refine iff_of_false (fun htrips => ?_) (fun htrips => ?_)
      · obtain ⟨_, _, hr, hs, -⟩ := htrips
        rcases h with h | h
        · rw [h] at hr; cases hr
        · rw [h] at hs; cases hs
      · obtain ⟨_, hw, -⟩ := htrips
        cases hw
  | some w =>
      rw [trips_open h.1 h.2]
      constructor
      · exact fun htrips => ⟨w, rfl, htrips⟩
      · rintro ⟨w', hw', htrips⟩
        cases hw'
        exact htrips

theorem untripped_cons (opener : Option Tick) (t : Tick) (ts : List Tick) :
    Untripped opener (t :: ts)
      ↔ ¬ TripsWindow opener t ∧ Untripped (tumbling opener t).1 ts := by
  unfold Untripped
  rw [trace, List.forall_mem_cons]

/-- The fill consumer stops at a trade that trips the breaker. -/
theorem fillConsumer_free {r : RiskEngine} (hfree : r.circuitBreaker.held = false) (now : Int)
    (t : Trade) :
    (¬ Trips r.circuitBreaker.data (.recordTrade now t.symbol t.price)
        ∧ ∃ r', fillConsumer r now t = .returned () r'
          ∧ r'.circuitBreaker = ⟨false, (r.circuitBreaker.data.observe now t.symbol t.price).2⟩)
      ∨ (Trips r.circuitBreaker.data (.recordTrade now t.symbol t.price)
        ∧ ∃ r', fillConsumer r now t = .blocked r') := by
  have hsame : (r.recordFill t.aggressorAccountId t.symbol t.aggressorSide
      t.quantity).circuitBreaker = r.circuitBreaker := rfl
  have hquiet := observe_quiet_iff r.circuitBreaker.data now t.symbol t.price
  unfold fillConsumer RiskEngine.updateLastTradePrice
  dsimp only
  rw [hsame]
  by_cases htrips : Trips r.circuitBreaker.data (.recordTrade now t.symbol t.price)
  · right
    rw [recordTrade_trips hfree (fun hq => hquiet.mp hq htrips)]
    exact ⟨htrips, _, rfl⟩
  · left
    rw [recordTrade_quiet hfree (hquiet.mpr htrips)]
    exact ⟨htrips, _, rfl, rfl⟩

/-- **When the loop comes to its end**, on a breaker whose mutex is free. -/
theorem deliver_completed_iff (clock : Nat → Int) (o : Order) (symbol : String) :
    ∀ (fills : List Fill) (n : Nat) (r : RiskEngine) (opener : Option Tick),
      r.circuitBreaker.held = false → WindowIs r.circuitBreaker.data symbol opener →
      (∀ f ∈ fills, f.trade.symbol = symbol) →
      ((deliver clock o n fills r).completed = true
        ↔ Untripped opener (ticks clock n (fills.map (fun f => f.trade.price))))
  | [], _, _, _, _, _, _ => iff_of_true rfl (fun v hv => absurd hv List.not_mem_nil)
  | f :: fills, n, r, opener, hfree, hwindow, hsymbol => by
      have hf := hsymbol f (List.mem_cons_self ..)
      have htrips := trips_iff_window hwindow ⟨clock n, f.trade.price⟩
      rw [List.map_cons, ticks, untripped_cons, ← htrips, deliver]
      rcases fillConsumer_free hfree (clock n) f.trade with
        ⟨hquiet, r', heq, hcb⟩ | ⟨htrip, r', heq⟩
      · rw [hf] at hquiet hcb
        rw [heq, and_iff_right hquiet]
        have hnext := windowIs_observe hwindow ⟨clock n, f.trade.price⟩
        refine deliver_completed_iff clock o symbol fills (n + 1) r' _ (by rw [hcb]) ?_
          (fun g hg => hsymbol g (List.mem_cons_of_mem _ hg))
        rw [hcb]
        exact hnext
      · rw [hf] at htrip
        rw [heq]
        exact iff_of_false (by simp) (fun hn => hn.1 htrip)

/-! ## Stop orders that do not trade -/

/-- None of the stop orders, as limit orders in turn, meets an offer of the book or an earlier
one of them. -/
structure Idle (d : Depth) (stops : List Order) : Prop where
  book : ∀ x ∈ stops, 0 < x.remainingQuantity → ∀ y ∈ d x.side.opposite,
    OrderBook.crossesLimit x y.price = false
  each : stops.Pairwise (fun x y => 0 < x.remainingQuantity → 0 < y.remainingQuantity →
    y.side = x.side.opposite → OrderBook.crossesLimit y x.price = false)

instance (d : Depth) (stops : List Order) : Decidable (Idle d stops) :=
  decidable_of_iff (_ ∧ _) ⟨fun h => ⟨h.1, h.2⟩, fun h => ⟨h.book, h.each⟩⟩

/-- What is offered after a limit order that has met nothing. -/
theorem mem_afterLimit {d : Depth} {x : Order}
    (h : 0 < x.remainingQuantity → ∀ y ∈ d x.side.opposite, OrderBook.crossesLimit x y.price = false)
    (hpos : ∀ s, ∀ y ∈ d s, 0 < y.quantity) (s : OrderSide) (y : Offer) :
    y ∈ d.afterLimit x s
      ↔ y ∈ d s ∨ (s = x.side ∧ 0 < x.remainingQuantity ∧ y = ⟨x.price, x.remainingQuantity⟩) := by
  unfold Depth.afterLimit
  rcases OrderSide.eq_or_opposite x.side s with rfl | rfl
  · rw [Depth.after_own]
    by_cases hq : 0 < x.remainingQuantity
    · -- nothing can be reached, so nothing is found
      have hnone : (d x.side.opposite).filter
          (fun y => OrderBook.crossesLimit x y.price) = [] :=
        List.filter_eq_nil_iff.mpr (fun y hy => by simp [h hq y hy])
      have hunmet : Depth.unmet (OrderBook.crossesLimit x) x.remainingQuantity
          (d x.side.opposite) = x.remainingQuantity := by
        unfold Depth.unmet
        rw [hnone]
        simp
      rw [hunmet, if_pos ⟨rfl, hq⟩, Depth.mem_place, or_comm]
      simp [hq]
    · have hsum : 0 ≤ (((d x.side.opposite).filter
          (fun y => OrderBook.crossesLimit x y.price)).map Offer.quantity).sum :=
        Greedy.sum_cap_nonneg (fun y hy => hpos _ y (List.mem_filter.mp hy).1)
      rw [if_neg (fun hn => by have := hn.2; unfold Depth.unmet at this; omega)]
      simp [hq]
  · rw [Depth.after_opposite, or_iff_left (fun hn => OrderSide.opposite_ne _ hn.1)]
    have hleft : Greedy.leftover Offer.quantity Offer.cut (max x.remainingQuantity 0)
        ((d x.side.opposite).filter (fun y => OrderBook.crossesLimit x y.price))
          = (d x.side.opposite).filter (fun y => OrderBook.crossesLimit x y.price) := by
      by_cases hq : 0 < x.remainingQuantity
      · rw [List.filter_eq_nil_iff.mpr (fun y hy => by simp [h hq y hy])]
        rfl
      · rw [Int.max_eq_right (by omega)]
        exact Greedy.leftover_zero (fun y hy => hpos _ y (List.mem_filter.mp hy).1) divisible_offer
    unfold Depth.left
    rw [hleft, List.mem_append, List.mem_filter, List.mem_filter, ← and_or_left]
    exact and_iff_left (by cases OrderBook.crossesLimit x y.price <;> simp)

theorem idle_cons {d : Depth} (hpos : ∀ s, ∀ y ∈ d s, 0 < y.quantity) (x : Order)
    (stops : List Order) :
    Idle d (x :: stops)
      ↔ (0 < x.remainingQuantity → ∀ y ∈ d x.side.opposite,
          OrderBook.crossesLimit x y.price = false) ∧ Idle (d.afterLimit x) stops := by
  constructor
  · intro h
    have hx := h.book x (List.mem_cons_self ..)
    obtain ⟨heach, hrest⟩ := List.pairwise_cons.mp h.each
    refine ⟨hx, fun z hz hq y hy => ?_, hrest⟩
    rcases (mem_afterLimit hx hpos _ y).mp hy with hy | ⟨hside, hxq, rfl⟩
    · exact h.book z (List.mem_cons_of_mem x hz) hq y hy
    · exact heach z hz hxq hq (by rw [← hside, OrderSide.opposite_opposite])
  · rintro ⟨hx, h⟩
    refine ⟨fun z hz hq y hy => ?_, List.pairwise_cons.mpr ⟨fun z hz hxq hq hside => ?_, h.each⟩⟩
    · rcases List.mem_cons.mp hz with rfl | hz
      · exact hx hq y hy
      · exact h.book z hz hq y ((mem_afterLimit hx hpos _ y).mpr (Or.inl hy))
    · have hown : z.side.opposite = x.side := by rw [hside, OrderSide.opposite_opposite]
      exact h.book z hz hq ⟨x.price, x.remainingQuantity⟩
        ((mem_afterLimit hx hpos _ _).mpr (Or.inr ⟨hown, hxq, rfl⟩))

theorem depth_positive {b : OrderBook} (h : SidesOk b) (s : OrderSide) :
    ∀ y ∈ depth b s, 0 < y.quantity := by
  intro y hy
  obtain ⟨x, hx, rfl⟩ := List.mem_map.mp hy
  exact (h s).positive x hx

/-- **When the activated orders trade nothing.** -/
theorem matchAll_idle_iff (env : SubmitEnv) :
    ∀ (stops : List Order) (n : Nat) (b : OrderBook), SidesOk b →
      ((matchAll env n ((limitOrdersOf env n stops).map Prod.snd) b).1 = []
        ↔ Idle (depth b) stops)
  | [], _, _, _ => iff_of_true rfl ⟨fun x hx => absurd hx List.not_mem_nil, List.Pairwise.nil⟩
  | stop :: stops, n, b, h => by
      have hdepth := (match_limit_depth h (env.stopAmb n) (o := limitOrderOf env n stop) rfl).2
      have hfirst : (b.matchIncoming (env.stopAmb n) (limitOrderOf env n stop)).1 = []
          ↔ (0 < stop.remainingQuantity → ∀ y ∈ depth b stop.side.opposite,
            OrderBook.crossesLimit stop y.price = false) := by
        rw [← List.map_eq_nil_iff, match_prices h]
        exact Depth.prices_eq_nil_iff (depth_positive h _)
      have hrest := matchAll_idle_iff env stops (n + 1) _
        (sidesOk_match h (env.stopAmb n) (limitOrderOf env n stop))
      rw [hdepth] at hrest
      rw [idle_cons (depth_positive h), ← hfirst]
      exact List.append_eq_nil_iff.trans (and_congr_right' hrest)

/-! ## The condition -/

/-- The prices at which an order trades on the book of its symbol. -/
def tradePrices (e : MatchingEngine) (o : Order) : List Int :=
  Depth.prices (reaches (e.bookOf o.symbol) o) o.remainingQuantity
    (depth (e.bookOf o.symbol) o.side.opposite)

/-- The depth of the book of its symbol after an order. -/
def depthAfter (e : MatchingEngine) (o : Order) : Depth :=
  (depth (e.bookOf o.symbol)).after o (reaches (e.bookOf o.symbol) o) (restsIn o)

/-- What a call that reports all trades finds. -/
structure ReportsAll (e : MatchingEngine) (env : SubmitEnv) (o : Order) : Prop where
  /-- None of the prices of the order trips the breaker. -/
  untripped : Untripped (openerOf e.riskEngine.circuitBreaker.data o.symbol)
    (ticks env.clock 0 (tradePrices e o))
  /-- And no stop order that its last price triggers meets an offer. -/
  idle : ∀ last, (tradePrices e o).getLast? = some last →
    Idle (depthAfter e o) ((pendingStops e o.symbol).filter (triggered last))

section Process

variable {e : MatchingEngine} {o : Order} (hbook : SidesOk (e.bookOf o.symbol)) (env : SubmitEnv)

include hbook

theorem fillsFor_prices :
    (fillsFor e env o).map (fun f => f.trade.price) = tradePrices e o := match_prices hbook env.amb o

theorem process_completed_iff (hfree : e.riskEngine.circuitBreaker.held = false) :
    (e.process env o).2.completed = true
      ↔ Untripped (openerOf e.riskEngine.circuitBreaker.data o.symbol)
          (ticks env.clock 0 (tradePrices e o)) := by
  have hloop := deliver_completed_iff env.clock o o.symbol (fillsFor e env o) 0 e.riskEngine _ hfree
    (windowIs_openerOf _ o.symbol) (match_symbol hbook env.amb o)
  rw [fillsFor_prices hbook env] at hloop
  rw [← hloop, process_eq_settle, matched_eq]
  unfold settle
  dsimp only
  rw [← fillsFor]
  split
  · rename_i hdone
    exact iff_of_true rfl hdone
  · rename_i hstuck
    exact iff_of_false (by simp) hstuck

/-- Nothing is activated, or what the last price of the order triggers. -/
theorem stopFills_eq_nil_iff (hioc : IocFresh (e.bookOf o.symbol) o) :
    stopFills e env o = []
      ↔ ∀ last, (tradePrices e o).getLast? = some last →
          Idle (depthAfter e o) ((pendingStops e o.symbol).filter (triggered last)) := by
  have hprices := fillsFor_prices hbook env
  unfold stopFills
  by_cases hnil : fillsFor e env o = []
  · rw [hnil] at hprices
    rw [if_pos hnil, ← hprices]
    exact iff_of_true rfl (fun last hlast => by cases hlast)
  · -- the price the orders are compared with is that of the last trade
    have hafter : (afterMatch e env o).bookOf o.symbol
        = ((e.bookOf o.symbol).matchIncoming env.amb o).2 := by
      rw [bookOf_afterMatch, if_pos rfl]
    obtain ⟨price, hprice⟩ : ∃ price, (tradePrices e o).getLast? = some price := by
      rw [← hprices]
      exact ⟨_, List.getLast?_eq_some_getLast (fun hempty => hnil (List.map_eq_nil_iff.mp hempty))⟩
    have hlast : ((afterMatch e env o).bookOf o.symbol).lastTradePrice = some price := by
      rw [hafter, match_lastTradePrice, lastPrice, ← List.getLast?_map, List.map_map]
      change (((fillsFor e env o).map (fun f => f.trade.price)).getLast?).or _ = _
      rw [hprices, hprice]
      rfl
    have hdepth : depth ((afterMatch e env o).bookOf o.symbol) = depthAfter e o := by
      rw [hafter]
      exact match_depth hbook env.amb o hioc
    have hsides : SidesOk ((afterMatch e env o).bookOf o.symbol) := by
      rw [hafter]
      exact sidesOk_match hbook env.amb o
    have hidle := matchAll_idle_iff env ((pendingStops e o.symbol).filter (triggered price)) 0 _ hsides
    rw [hdepth] at hidle
    rw [if_neg hnil, hprice]
    have hfills : ((afterMatch e env o).checkStopTriggers env o.symbol).1 = []
        ↔ Idle (depthAfter e o) ((pendingStops e o.symbol).filter (triggered price)) := by
      rcases checkStopTriggers_cases (afterMatch e env o) env o.symbol with
        ⟨hnone, heq⟩ | ⟨last, hlast', -, hmatched⟩
      · rw [heq]
        have hempty : pendingStops e o.symbol = [] :=
          hnone.resolve_right (by rw [hlast]; exact Option.some_ne_none _)
        rw [hempty]
        exact iff_of_true rfl ⟨fun x hx => absurd hx List.not_mem_nil, List.Pairwise.nil⟩
      · rw [hlast] at hlast'
        cases hlast'
        have hfst := congrArg Prod.fst hmatched
        dsimp only at hfst
        rw [hfst]
        exact hidle
    rw [hfills]
    constructor
    · intro h last hlast'
      cases hlast'
      exact h
    · exact fun h => h price rfl

/-- An admitted order. -/
theorem process_reported_iff (hioc : IocFresh (e.bookOf o.symbol) o)
    (hfree : e.riskEngine.circuitBreaker.held = false) :
    Reported (e.process env o).2 ↔ ReportsAll e env o := by
  have hall : (e.process env o).2.completed = true ∧ stopFills e env o = [] ↔ ReportsAll e env o := by
    rw [process_completed_iff hbook env hfree, stopFills_eq_nil_iff hbook env hioc]
    exact ⟨fun h => ⟨h.1, h.2⟩, fun h => ⟨h.untripped, h.idle⟩⟩
  rw [← hall]
  rcases process_report e env o with ⟨hdone, hexec, hconsumed, hevents⟩ | ⟨hstuck, hexec, hevents⟩
  · rw [and_iff_right hdone]
    constructor
    · intro h
      have hlen := h.consumed.length_eq
      rw [hconsumed, hexec, List.length_map, List.length_map, List.length_append] at hlen
      exact List.length_eq_zero_iff.mp (by omega)
    · intro hnil
      rw [hnil, List.append_nil] at hexec
      exact ⟨by rw [hconsumed, hexec], by rw [hevents, hexec]⟩
  · refine iff_of_false (fun h => ?_) (fun h => absurd (hstuck.symm.trans h.1) (by decide))
    have hlen := h.events.length_eq
    rw [hexec, List.length_map] at hlen
    omega

end Process

/-- A call that does not admit its order has nothing to hand over. -/
theorem refused_reported {e : MatchingEngine} {o : Order} (h : ¬Admitted e o) (env : SubmitEnv) :
    Reported (e.submit env o).2 := by
  unfold submit
  split
  · exact ⟨.refl _, .refl _⟩
  · rename_i hh
    rcases checkPreTrade_cases e.riskEngine o with
      ⟨r', heq, -, -⟩ | ⟨res, r', heq, happ, -, -⟩ | ⟨res, r', heq, happ, -, hadm⟩
    · rw [heq]
      exact ⟨.refl _, .refl _⟩
    · rw [heq]
      dsimp only
      rw [if_neg (by rw [happ]; decide)]
      exact ⟨.refl _, .refl _⟩
    · exact absurd ⟨Bool.eq_false_iff.mpr hh, hadm⟩ h

/--
**When every trade is reported.** For any engine whose book has well-formed sides, whatever stop
orders it holds, and any order (an IOC order with an id of its own): the trades executed during
`submit` are those passed to the fill consumer and those carried by fill events, each once, if and
only if the order is not admitted, or none of the prices it trades at trips the breaker and none of
the stop orders that its last price triggers meets an offer.
-/
theorem trades_reported_iff (e : MatchingEngine) (env : SubmitEnv) (o : Order)
    (hbook : SidesOk (e.bookOf o.symbol)) (hioc : Admitted e o → IocFresh (e.bookOf o.symbol) o) :
    Reported (e.submit env o).2 ↔ (Admitted e o → ReportsAll e env o) := by
  by_cases hadm : Admitted e o
  · rw [forall_prop_of_true hadm]
    rcases submit_report e env o with ⟨-, hheld, -⟩ | ⟨-, hna, -⟩ | ⟨-, r', hap, heq⟩
    · exact absurd (hheld.symm.trans hadm.2.free) (by decide)
    · exact absurd hadm hna
    · have hcb := hap.same.circuitBreaker
      have hiff := process_reported_iff (e := { e with riskEngine := r' }) hbook env (hioc hadm)
        (by rw [hcb]; exact hadm.2.free)
      rw [heq, hiff]
      constructor
      · exact fun h => ⟨by rw [← hcb]; exact h.untripped, h.idle⟩
      · exact fun h => ⟨by dsimp only; rw [hcb]; exact h.untripped, h.idle⟩
  · exact iff_of_true (refused_reported hadm env) (fun h => absurd h hadm)

/-- Every reachable engine is as asked, whatever it holds for stop orders. -/
theorem orderly_reachable (ops : List EngineOp) (stops : Finmap (fun _ : String => List Order))
    (o : Order) :
    let e := { (marketAfter ops).engine with stopOrders := stops }
    SidesOk (e.bookOf o.symbol) ∧ (Admitted e o → IocFresh (e.bookOf o.symbol) o) := by
  intro e
  have hinv := engineInv_reachable ops
  refine ⟨(hinv.bookOf o.symbol).rep.side, fun hadm _ => ?_⟩
  rcases submit_report (marketAfter ops).engine stillEnv o with
    ⟨-, hheld, -⟩ | ⟨-, hna, -⟩ | ⟨-, r', hap, -⟩
  · exact absurd (hheld.symm.trans hadm.2.free) (by decide)
  · exact absurd hadm hna
  · have hrun := (hinv.approve hap).bookOf o.symbol
    have hfresh := hrun.notResting (List.mem_cons_self ..)
    exact ⟨hfresh, hrun.rep.index.lookup_eq_none hfresh⟩

/-- Five shares are offered at 100 and five at 101. -/
def twoAsks : List EngineOp :=
  [.submit stillEnv (Order.create "s1" 0 "X" "AAPL" .sell .limit 100 0 5),
    .submit stillEnv (Order.create "s2" 0 "X" "AAPL" .sell .limit 101 0 5)]

/-- A buy of five at 100. -/
def buysFive : Order := Order.create "b" 0 "Y" "AAPL" .buy .limit 100 0 5

/-- A stop order waits for 100, with a limit that the second ask does not meet. -/
theorem trades_reported_stopWaits :
    let e := { (marketAfter twoAsks).engine with
      stopOrders := Finmap.singleton "AAPL" [Order.create "p" 0 "W" "AAPL" .buy .stopLimit 100 100 5] }
    tradePrices e buysFive = [100] ∧ Admitted e buysFive
      ∧ Reported (e.submit stillEnv buysFive).2 := by
  intro e
  have hprices : tradePrices e buysFive = [100] := by decide
  obtain ⟨hsides, hfresh⟩ := orderly_reachable twoAsks
    (Finmap.singleton "AAPL" [Order.create "p" 0 "W" "AAPL" .buy .stopLimit 100 100 5]) buysFive
  refine ⟨hprices, ⟨rfl, by decide, by decide, by constructor <;> decide⟩,
    (trades_reported_iff e stillEnv buysFive hsides hfresh).mpr (fun _ => ⟨by decide, ?_⟩)⟩
  intro last hlast
  rw [hprices] at hlast
  cases hlast
  decide

/-- The same, with a limit that it meets. -/
def stopWaiting : MatchingEngine :=
  { (marketAfter twoAsks).engine with
    stopOrders := Finmap.singleton "AAPL" [Order.create "p" 0 "W" "AAPL" .buy .stopLimit 101 100 5] }

/-- **The trade of the stop order is not reported.** The call makes trades at 100 and 101, and
hands over and reports the first one. -/
theorem stop_trade_not_reported :
    let s := (stopWaiting.submit stillEnv buysFive).2
    s.completed = true
      ∧ s.executed.map (fun f => f.trade.price) = [100, 101]
      ∧ s.consumed.map Trade.price = [100]
      ∧ (fillEventTrades s.events).map Trade.price = [100]
      ∧ ¬Reported s := by
  intro s
  have hexec : s.executed.map (fun f => f.trade.price) = [100, 101] := by decide
  have hconsumed : s.consumed.map Trade.price = [100] := by decide
  refine ⟨by decide, hexec, hconsumed, by decide, fun h => ?_⟩
  have hlen := h.consumed.length_eq
  have hlen₁ := congrArg List.length hexec
  have hlen₂ := congrArg List.length hconsumed
  rw [List.length_map] at hlen hlen₁ hlen₂
  exact absurd (hlen₂.symm.trans (hlen.trans hlen₁)) (by decide)

end TitanX.Proof
